import DesignTokens.Proofs.Outcome
import DesignTokens.Proofs.Steps
import DesignTokens.Proofs.Yaml.Scalar
import DesignTokens.Yaml.Scan

/-!
# What a scan keeps

A scan stays in its text, and its tokens have places there.  So have its failures, unless the text
has one of a few things in it.  A scan never changes the version (`ScanM.keeps_peek`).  The lemmas
go along the functions of the scan, one for each of them.
-/

namespace DesignTokens.Yaml

/-! ## What a text has in it -/

/-- A place of a text. -/
def Reached (text : List Char) (c : Cursor) : Prop := (Cursor.start text).Before c

/-- A line of a text starts with the declaration of a version. -/
def DeclaresVersion (text : List Char) : Prop :=
  ∃ c, Reached text c ∧ c.column = 0 ∧ Lexeme.versionMark <+: c.rest

/-- A text has an escape with eight digits, or what looks like one. -/
def HasLongEscape (text : List Char) : Prop := Lexeme.longEscape <:+: text

/-- A text has what a tag with an escape has. -/
def HasTagEscape (text : List Char) : Prop := '!' ∈ text ∧ '%' ∈ text

/-- A mark of a place of a text. -/
def MarkOf (text : List Char) (m : Mark) : Prop := (Cursor.start text).Reaches m

theorem markOf_start (text : List Char) : MarkOf text ⟨0, 0, 0⟩ := (Cursor.Before.refl _).reaches

/-- A text has something in it that can fail without a place. -/
def CanFault (text : List Char) : Prop :=
  DeclaresVersion text ∨ HasLongEscape text ∨ HasTagEscape text

/-- A failure has a place in the text, unless the text has something in it that can fail without
one. -/
def Failure.HasCause (text : List Char) (e : Failure) : Prop :=
  e.HasPlace (.start text) ∨ CanFault text ∧ e.IsFault

/-- A token that a text can have. -/
def TokenKind.In (text : List Char) : TokenKind → Prop
  | .directive (.version ..) => DeclaresVersion text
  | .tag t => '!' ∈ text ∧ ('%' ∈ t.suffix.toList → '%' ∈ text)
  | _ => True

/-- A token that a text can have, at a place of the text. -/
structure Token.In (text : List Char) (t : Token) : Prop where
  kind : t.kind.In text
  start : MarkOf text t.start
  stop : MarkOf text t.stop

theorem Reached.mark {text : List Char} {c : Cursor} (h : Reached text c) : MarkOf text c.mark :=
  Cursor.Before.reaches h

theorem Reached.mem {text : List Char} {c : Cursor} (h : Reached text c) {ch : Char}
    (hch : ch ∈ c.rest) : ch ∈ text :=
  Cursor.Before.mem_rest h hch

/-- A text without a percent sign declares no version. -/
theorem not_declaresVersion {text : List Char} (h : '%' ∉ text) : ¬ DeclaresVersion text := by
  rintro ⟨c, hc, -, hmark⟩
  exact h (hc.mem (hmark.subset List.mem_cons_self))

/-! ## States of a scan -/

/-- A state in the scan of a text: the cursor is at a place of the text, where `P` holds, the tokens
are the text's, possible keys start at places of it, and the version is the first one unless the
text declares another. -/
structure Scan.Fits (text : List Char) (first : Version) (P : Cursor → Prop) (s : Scan) :
    Prop where
  reached : Reached text s.cursor
  cursor : P s.cursor
  tokens : ∀ t ∈ s.queue, t.In text
  candidates : ∀ k ∈ s.candidates, MarkOf text k.2.mark
  version : s.version = first ∨ s.version = .v12 ∨ DeclaresVersion text

theorem Scan.Fits.imp {text : List Char} {first : Version} {P Q : Cursor → Prop} {s : Scan}
    (h : s.Fits text first P) (himp : P s.cursor → Q s.cursor) : s.Fits text first Q :=
  ⟨h.reached, himp h.cursor, h.tokens, h.candidates, h.version⟩

/-- Nothing is known of the cursor besides its place. -/
abbrev Anywhere (_ : Cursor) : Prop := True

namespace ScanM

variable {α β : Type} {text : List Char} {first : Version} {P : Cursor → Prop}

/-- What a step of a scan keeps, from a cursor where `P` holds to an answer and a cursor where `Q`
holds. -/
def Keeps (text : List Char) (first : Version) (P : Cursor → Prop) (m : ScanM α)
    (Q : α → Cursor → Prop) : Prop :=
  Ends (Scan.Fits text first P) m (fun a => Scan.Fits text first (Q a))
    fun e s => e.HasCause text ∧ s.Fits text first Anywhere

section Rules

variable {Q : α → Cursor → Prop} {R : β → Cursor → Prop} {m : ScanM α} {f : α → ScanM β}

theorem Keeps.bind (hm : Keeps text first P m Q) (hf : ∀ a, Keeps text first (Q a) (f a) R) :
    Keeps text first P (m >>= f) R :=
  Ends.bind hm hf

theorem Keeps.imp {P' : Cursor → Prop} {Q' : α → Cursor → Prop} (h : Keeps text first P m Q)
    (hP : ∀ c, P' c → P c) (hQ : ∀ a c, Q a c → Q' a c) : Keeps text first P' m Q' :=
  Ends.imp h (fun _ hs => hs.imp (hP _)) fun _ _ hs => hs.imp (hQ _ _)

/-- A step that keeps what is known of the cursor, and steps after it. -/
theorem Keeps.andThen (hm : Keeps text first P m fun _ => P)
    (hf : ∀ a, Keeps text first P (f a) R) : Keeps text first P (m >>= f) R :=
  hm.bind hf

theorem keeps_pure {a : α} (h : ∀ c, P c → Q a c) : Keeps text first P (pure a) Q :=
  ends_pure fun _ hs => hs.imp (h _)

theorem keeps_throw {e : Failure} (h : e.HasCause text) :
    Keeps text first P (throw e : ScanM α) Q :=
  ends_throw fun _ hs => ⟨h, hs.imp fun _ => trivial⟩

/-- After the state is looked at, the cursor is known. -/
theorem keeps_get {f : Scan → ScanM β} (h : ∀ s, s.Fits text first P →
    Keeps text first (fun c => P c ∧ c = s.cursor) (f s) R) : Keeps text first P (get >>= f) R :=
  fun s hs => h s hs s (hs.imp fun hc => ⟨hc, rfl⟩)

theorem keeps_set {t : Scan} {P' : Cursor → Prop} (h : t.Fits text first P') :
    Keeps text first P (set t) fun _ => P' :=
  ends_set fun _ => h

theorem keeps_modify {g : Scan → Scan} {P' : Cursor → Prop}
    (h : ∀ s, s.Fits text first P → (g s).Fits text first P') :
    Keeps text first P (modify g) fun _ => P' :=
  ends_modify h

theorem keeps_ite {p : Prop} [Decidable p] {m' : ScanM α} (hm : p → Keeps text first P m Q)
    (hm' : ¬ p → Keeps text first P m' Q) : Keeps text first P (if p then m else m') Q := by
  split
  · exact hm ‹_›
  · exact hm' ‹_›

end Rules

/-! ## Failures and lexemes -/

theorem hasCause_of_hasPlace {c : Cursor} {e : Failure} (h : e.HasPlace c) (hc : Reached text c) :
    e.HasCause text :=
  .inl (h.after hc)

theorem keeps_failHere (problem : Problem) {Q : α → Cursor → Prop} :
    Keeps text first P (failHere problem) Q := by
  unfold failHere
  exact keeps_get fun s hs => keeps_throw (.inl ⟨_, hs.reached.mark⟩)

/-- Nothing is asked of what would follow a failure. -/
theorem keeps_failHere_bind (problem : Problem) {f : α → ScanM β} {Q : β → Cursor → Prop} :
    Keeps text first P (failHere problem >>= f) Q :=
  (keeps_failHere problem (Q := fun _ _ => False)).bind fun _ _ hs => hs.cursor.elim

/-- The answer of a reader that goes on in the text. -/
theorem keeps_take {answer : Lexeme.Result α} {c : Cursor} {p : Prop} {Q : α → Prop}
    (hc : Reached text c) (h : Lexeme.GoesOn p c answer) (hp : p → CanFault text)
    (hQ : ∀ a d, answer = .ok (a, d) → Q a) :
    Keeps text first (fun d => P d ∧ d = c) (take answer) fun a _ => Q a := by
  unfold take
  split
  · rename_i a d
    refine .bind (Q := fun _ _ => Q a) (keeps_modify fun s hs => ?_) fun _ => keeps_pure fun _ => id
    exact ⟨hc.trans h, hQ a d rfl, hs.tokens, hs.candidates, hs.version⟩
  · rename_i e
    exact keeps_throw (h.elim (hasCause_of_hasPlace · hc) fun h => .inr (And.imp_left hp h))

/-! ## Keys -/

theorem keeps_forgetStale : Keeps text first P forgetStale fun _ => P := by
  unfold forgetStale
  refine keeps_get fun s hs => ?_
  split
  rename_i stale fresh hpartition
  dsimp only
  refine keeps_ite (fun _ => ?_) fun _ => ?_
  · exact keeps_failHere_bind _
  · refine keeps_set ⟨hs.reached, hs.cursor, hs.tokens, fun k hk => hs.candidates k ?_, hs.version⟩
    rw [List.partition_eq_filter_filter] at hpartition
    obtain ⟨-, rfl⟩ := Prod.mk.inj hpartition
    exact List.mem_of_mem_filter hk

theorem fits_dropCandidate {s : Scan} (hs : s.Fits text first P) :
    s.dropCandidate.Fits text first P :=
  ⟨hs.reached, hs.cursor, hs.tokens, fun k hk => hs.candidates k (List.mem_of_mem_filter hk),
    hs.version⟩

theorem keeps_forgetCandidate : Keeps text first P forgetCandidate fun _ => P := by
  unfold forgetCandidate
  refine keeps_get fun s hs => ?_
  refine keeps_ite (fun _ => ?_) fun _ => ?_
  · exact keeps_failHere_bind _
  · exact keeps_set (fits_dropCandidate hs)

theorem keeps_saveCandidate : Keeps text first P saveCandidate fun _ => P := by
  unfold saveCandidate
  refine keeps_get fun s hs => ?_
  refine keeps_ite (fun _ => ?_) fun _ => keeps_pure fun _ h => h.1
  refine .bind keeps_forgetCandidate fun _ => keeps_modify fun t ht => ?_
  refine ⟨ht.reached, ht.cursor.1, ht.tokens, fun k hk => ?_, ht.version⟩
  rcases List.mem_append.mp hk with hk | hk
  · exact ht.candidates k hk
  · rw [List.mem_singleton.mp hk]
    exact hs.reached.mark

theorem keeps_allowKey (allowed : Bool) : Keeps text first P (allowKey allowed) fun _ => P :=
  keeps_modify fun _ hs => ⟨hs.reached, hs.cursor, hs.tokens, hs.candidates, hs.version⟩

/-! ## Tokens -/

theorem fits_push {kind : TokenKind} {start stop : Mark} {s : Scan}
    (ht : Token.In text ⟨kind, start, stop⟩) (hs : s.Fits text first P) :
    (s.push kind start stop).Fits text first P := by
  refine ⟨hs.reached, hs.cursor, fun t hin => ?_, hs.candidates, hs.version⟩
  rcases List.mem_append.mp hin with hin | hin
  · exact hs.tokens t hin
  · rw [List.mem_singleton.mp hin]
    exact ht

/-- A token of no characters at the cursor. -/
theorem fits_push_here {kind : TokenKind} (hkind : kind.In text) {s : Scan}
    (hs : s.Fits text first P) : (s.push kind s.cursor.mark s.cursor.mark).Fits text first P :=
  fits_push ⟨hkind, hs.reached.mark, hs.reached.mark⟩ hs

theorem fits_insert {kind : TokenKind} (hkind : kind.In text) {number : Nat} {mark : Mark}
    (hmark : MarkOf text mark) {s : Scan} (hs : s.Fits text first P) :
    (s.insert number kind mark).Fits text first P := by
  refine ⟨hs.reached, hs.cursor, fun t ht => ?_, hs.candidates, hs.version⟩
  rcases List.mem_append.mp ht with ht | ht
  · exact hs.tokens t (List.mem_of_mem_take ht)
  · rcases List.mem_cons.mp ht with rfl | ht
    · exact ⟨hkind, hmark, hmark⟩
    · exact hs.tokens t (List.mem_of_mem_drop ht)

theorem fits_openAt (column : Nat) {s : Scan} (hs : s.Fits text first P) :
    (s.openAt column).Fits text first P := by
  unfold Scan.openAt
  split
  · exact ⟨hs.reached, hs.cursor, hs.tokens, hs.candidates, hs.version⟩
  · exact hs

theorem fits_closeAfter (column : Int) (outer : List Int) {s : Scan}
    (hs : s.Fits text first P) : (Scan.closeAfter column outer s).Fits text first P := by
  induction outer generalizing s with
  | nil => exact hs
  | cons before rest ih =>
    unfold Scan.closeAfter
    split
    · have hpush : (s.push .blockEnd s.cursor.mark s.cursor.mark).Fits text first P :=
        fits_push_here (by trivial) hs
      exact ih ⟨hpush.reached, hpush.cursor, hpush.tokens, hpush.candidates, hpush.version⟩
    · exact hs

theorem fits_unwind (column : Int) {s : Scan} (hs : s.Fits text first P) :
    (s.unwind column).Fits text first P := by
  unfold Scan.unwind
  split
  · exact hs
  · exact fits_closeAfter column s.outer hs

/-- The cursor moves on in the text. -/
theorem fits_advance (n : Nat) {s : Scan} (hs : s.Fits text first P) :
    { s with cursor := s.cursor.advance n }.Fits text first Anywhere :=
  ⟨hs.reached.trans (Cursor.before_advance n _), trivial, hs.tokens, hs.candidates, hs.version⟩

theorem keeps_symbol {kind : TokenKind} (hkind : kind.In text) (n : Nat) :
    Keeps text first P (symbol kind n) fun _ => Anywhere :=
  keeps_modify fun s hs => fits_advance n (fits_push ⟨hkind, hs.reached.mark,
    (hs.reached.trans (Cursor.before_advance n s.cursor)).reaches⟩ hs)

theorem keeps_finish {kind : TokenKind} (hkind : kind.In text) {start : Mark}
    (hstart : MarkOf text start) : Keeps text first P (finish kind start) fun _ => P :=
  keeps_modify fun _ hs => fits_push ⟨hkind, hstart, hs.reached.mark⟩ hs

theorem keeps_leaveDocument : Keeps text first P leaveDocument fun _ => P :=
  .andThen (keeps_modify fun _ => fits_unwind (-1)) fun _ =>
    keeps_forgetCandidate.andThen fun _ => keeps_allowKey false

theorem keeps_openBlock {kind : TokenKind} (hkind : kind.In text) :
    Keeps text first P (openBlock kind) fun _ => P := by
  refine keeps_modify fun s hs => ?_
  split
  · exact fits_push ⟨hkind, hs.reached.mark, hs.reached.mark⟩ (fits_openAt _ hs)
  · exact hs

/-! ## Lexemes -/

theorem before_skipToToken (inFlow : Bool) (fuel : Nat) (broke : Bool) (c : Cursor) :
    c.Before (skipToToken inFlow fuel broke c).2 := by
  induction fuel generalizing broke c with
  | zero => exact .refl c
  | succ fuel ih =>
    unfold skipToToken
    extract_lets d e
    have he : c.Before e := by
      have hd : c.Before d := Cursor.before_skipWhile _ c
      refine hd.trans ?_
      unfold e
      split
      · exact Cursor.before_skipLine d
      · exact .refl d
    split
    · exact he.trans ((Cursor.before_of_lineBreak? ‹_›).trans (ih _ _))
    · exact he

theorem keeps_gotoToken : Keeps text first P gotoToken fun _ => Anywhere := by
  unfold gotoToken
  refine keeps_get fun s hs => ?_
  extract_lets c d
  have hd : s.cursor.Before d := by
    unfold d
    split
    · exact Cursor.before_step c
    · exact .refl c
  split
  rename_i hskip
  have he := before_skipToToken s.inFlow (d.left + 1) false d
  rw [hskip] at he
  exact keeps_set ⟨hs.reached.trans (hd.trans he), trivial, hs.tokens, hs.candidates, hs.version⟩

theorem keeps_readEnd : Keeps text first P readEnd fun _ => Anywhere := by
  unfold readEnd
  refine keeps_leaveDocument.andThen fun _ => .andThen (keeps_modify fun s hs => ?_) fun _ =>
    keeps_symbol (by trivial) 0
  exact ⟨hs.reached, hs.cursor, hs.tokens, by simp, hs.version⟩

theorem keeps_readDirective :
    Keeps text first (fun c => c.column = 0 ∧ c.peek = some '%') readDirective fun _ =>
      Anywhere := by
  unfold readDirective
  refine keeps_leaveDocument.andThen fun _ => keeps_get fun s hs => ?_
  obtain ⟨hcolumn, hpeek⟩ := hs.cursor
  have hdeclares : Lexeme.versionMark <+: s.cursor.rest → DeclaresVersion text := fun h =>
    ⟨s.cursor, hs.reached, hcolumn, h⟩
  refine .bind (keeps_take (Q := TokenKind.In text ∘ .directive) hs.reached
    (Lexeme.goesOn_directive s.version hpeek) (fun h => .inl (hdeclares h)) ?_)
    fun directive => keeps_get fun t ht => ?_
  · intro directive d hd
    cases directive with
    | version major minor => exact hdeclares (Lexeme.versionMark_of_directive hpeek hd)
    | _ => trivial
  · -- the rest of the line has no token
    have hkind : (TokenKind.directive directive).In text := ht.cursor
    obtain ⟨c, hc, hbefore⟩ | ⟨e, he, hplace⟩ := Lexeme.restOfLine_spec t.cursor
    · rw [hc]
      have hpush : (t.push (.directive directive) s.cursor.mark t.cursor.mark).Fits text first _ :=
        fits_push ⟨hkind, hs.reached.mark, ht.reached.mark⟩ ht
      exact keeps_set ⟨hpush.reached.trans hbefore, trivial, hpush.tokens, hpush.candidates,
        hpush.version⟩
    · rw [he]
      exact keeps_throw (hasCause_of_hasPlace hplace ht.reached)

theorem keeps_readSeparator {kind : TokenKind} (hkind : kind.In text) :
    Keeps text first P (readSeparator kind) fun _ => Anywhere :=
  keeps_leaveDocument.andThen fun _ => keeps_symbol hkind 3

theorem keeps_readOpen (bracket : Bracket) {kind : TokenKind} (hkind : kind.In text) :
    Keeps text first P (readOpen bracket kind) fun _ => Anywhere := by
  unfold readOpen
  refine keeps_saveCandidate.andThen fun _ => .andThen (keeps_modify fun s hs => ?_) fun _ =>
    (keeps_allowKey true).andThen fun _ => keeps_symbol hkind 1
  exact ⟨hs.reached, hs.cursor, hs.tokens, hs.candidates, hs.version⟩

theorem keeps_readClose {kind : TokenKind} (hkind : kind.In text) :
    Keeps text first P (readClose kind) fun _ => Anywhere := by
  unfold readClose
  refine keeps_forgetCandidate.andThen fun _ => .andThen (keeps_modify fun s hs => ?_) fun _ =>
    (keeps_allowKey false).andThen fun _ => keeps_symbol hkind 1
  exact ⟨hs.reached, hs.cursor, hs.tokens, hs.candidates, hs.version⟩

theorem keeps_readComma : Keeps text first P readComma fun _ => Anywhere :=
  (keeps_allowKey true).andThen fun _ => keeps_forgetCandidate.andThen fun _ =>
    keeps_symbol (by trivial) 1

theorem keeps_enterBlock (misplaced : Problem) {kind : TokenKind} (hkind : kind.In text) :
    Keeps text first P (enterBlock misplaced kind) fun _ => P := by
  unfold enterBlock
  refine keeps_get fun s hs => ?_
  refine keeps_ite (fun _ => ?_) fun _ => keeps_pure fun _ h => h.1
  refine keeps_ite (fun _ => keeps_failHere_bind _) fun _ => ?_
  exact (keeps_openBlock hkind).imp (fun _ => id) fun _ _ h => h.1

theorem keeps_readEntry : Keeps text first P readEntry fun _ => Anywhere :=
  (keeps_enterBlock _ (by trivial)).andThen fun _ => (keeps_allowKey true).andThen fun _ =>
    keeps_forgetCandidate.andThen fun _ => keeps_symbol (by trivial) 1

theorem keeps_readKey : Keeps text first P readKey fun _ => Anywhere := by
  unfold readKey
  refine (keeps_enterBlock _ (by trivial)).andThen fun _ => keeps_get fun s _ => ?_
  exact (keeps_allowKey _).andThen fun _ => keeps_forgetCandidate.andThen fun _ =>
    keeps_symbol (by trivial) 1

theorem keeps_makeKey {key : KeyCandidate} (hkey : MarkOf text key.mark) :
    Keeps text first P (makeKey key) fun _ => P := by
  unfold makeKey
  refine .andThen (keeps_modify fun s hs => ?_) fun _ =>
    .andThen (keeps_modify fun s hs => ?_) fun _ => keeps_allowKey false
  · exact fits_insert (by trivial) hkey (fits_dropCandidate hs)
  · split
    · exact fits_insert (by trivial) hkey (fits_openAt _ hs)
    · exact hs

theorem keeps_readValue : Keeps text first P readValue fun _ => Anywhere := by
  unfold readValue
  refine keeps_get fun s hs => ?_
  split
  · rename_i key hcandidate
    obtain ⟨k, hfind, rfl⟩ := Option.map_eq_some_iff.mp hcandidate
    have hkey := hs.candidates k (List.mem_of_find?_eq_some hfind)
    exact (keeps_makeKey hkey).andThen fun _ => keeps_symbol (by trivial) 1
  · refine (keeps_enterBlock _ (by trivial)).andThen fun _ => keeps_get fun t _ => ?_
    exact (keeps_allowKey _).andThen fun _ => keeps_forgetCandidate.andThen fun _ =>
      keeps_symbol (by trivial) 1

/-! ## Properties and scalars -/

theorem goesOn_map {p : Prop} {c : Cursor} {r : Lexeme.Result α} {f : α → β}
    (h : Lexeme.GoesOn p c r) : Lexeme.GoesOn p c (r.map fun (a, d) => (f a, d)) := by
  match r, h with
  | .ok _, h => exact h
  | .error _, h => exact h

theorem keeps_readWord {answer : Cursor → Version → Lexeme.Result TokenKind}
    (hgoes : ∀ c version, Reached text c → P c →
      Lexeme.GoesOn (HasLongEscape text) c (answer c version))
    (hkind : ∀ c version, Reached text c → P c → ∀ kind d,
      answer c version = .ok (kind, d) → kind.In text) :
    Keeps text first P (readWord answer) fun _ => Anywhere := by
  unfold readWord
  refine keeps_saveCandidate.andThen fun _ => (keeps_allowKey false).andThen fun _ =>
    keeps_get fun s hs => ?_
  refine .bind (keeps_take (Q := TokenKind.In text) hs.reached (hgoes _ _ hs.reached hs.cursor)
    (fun h => .inr (.inl h)) (hkind _ _ hs.reached hs.cursor)) fun kind => ?_
  intro t ht
  exact (keeps_finish ht.cursor hs.reached.mark).imp (fun _ => id) (fun _ _ _ => trivial) t ht

/-- A lexeme that makes a token of a kind that says nothing about the text. -/
theorem keeps_readWord_plain (reader : Cursor → Lexeme.Result α) (kind : α → TokenKind)
    (hgoes : ∀ c, Reached text c → P c → Lexeme.GoesOn (HasLongEscape text) c (reader c))
    (hkind : ∀ a, (kind a).In text) :
    Keeps text first P (readWord fun c _ => (reader c).map fun (a, d) => (kind a, d)) fun _ =>
      Anywhere := by
  refine keeps_readWord (fun c _ hc hP => goesOn_map (hgoes c hc hP)) ?_
  intro c _ _ _ k d h
  obtain ⟨⟨a, e⟩, -, hkd⟩ := Outcome.exceptMap_eq_ok.mp h
  obtain ⟨rfl, -⟩ := Prod.mk.inj hkd
  exact hkind a

theorem keeps_readQuoted (double : Bool) : Keeps text first P
    (readWord fun c _ => (Lexeme.quotedScalar double c).map fun (text, d) =>
      (.scalar text false, d)) fun _ => Anywhere := by
  refine keeps_readWord_plain (Lexeme.quotedScalar double) (.scalar · false) (fun c hc _ => ?_)
    fun _ => trivial
  exact (Lexeme.goesOn_quotedScalar double c).imp fun h =>
    h.trans (Cursor.Before.rest_suffix hc).isInfix

theorem keeps_readTag : Keeps text first (fun c => c.peek = some '!')
    (readWord fun c version => (Lexeme.tag version c).map fun (tag, d) => (.tag tag, d)) fun _ =>
      Anywhere := by
  refine keeps_readWord (fun c version _ _ => goesOn_map (Lexeme.goesOn_tag version c)) ?_
  intro c version hc hpeek kind d h
  obtain ⟨⟨t, e⟩, ht, hkd⟩ := Outcome.exceptMap_eq_ok.mp h
  obtain ⟨rfl, -⟩ := Prod.mk.inj hkd
  refine ⟨hc.mem (Cursor.mem_rest_of_peek hpeek), fun hsuffix => ?_⟩
  -- a percent sign in the tag stands in the text
  refine Decidable.byContradiction fun hnot => ?_
  exact Lexeme.not_mem_of_tag ht (fun hin => hnot (hc.mem hin)) hsuffix

theorem keeps_readPlain : Keeps text first P readPlain fun _ => Anywhere := by
  unfold readPlain
  refine keeps_saveCandidate.andThen fun _ => keeps_modify fun s hs => ?_
  obtain ⟨hafter, hstop⟩ := Lexeme.behind_plainScalar (setting s) s.cursor
  let plain := (Lexeme.plainScalar (setting s) s.cursor).1
  have hpush : (s.push (.scalar (String.ofList plain.text) true) s.cursor.mark plain.stop).Fits
      text first P := fits_push ⟨trivial, hs.reached.mark, hstop.after hs.reached⟩ hs
  exact ⟨hs.reached.trans hafter, trivial, hpush.tokens, hpush.candidates, hpush.version⟩

theorem keeps_readBlock (folded : Bool) : Keeps text first P (readBlock folded) fun _ =>
    Anywhere := by
  unfold readBlock
  refine (keeps_allowKey true).andThen fun _ => keeps_forgetCandidate.andThen fun _ =>
    keeps_get fun s hs => ?_
  obtain ⟨hgoes, hstop⟩ := Lexeme.behind_blockScalar (p := False) folded (setting s) s.cursor
  have hmark : ∀ a d, Lexeme.blockScalar folded (setting s) s.cursor = .ok (a, d) →
      MarkOf text a.2 := fun a d h => (hstop a.1 a.2 d h).after hs.reached
  refine .bind (keeps_take hs.reached hgoes (fun h => h.elim) hmark) fun a =>
    keeps_modify fun t ht => ?_
  have htoken : Token.In text ⟨.scalar a.1 false, s.cursor.mark, a.2⟩ :=
    ⟨trivial, hs.reached.mark, ht.cursor⟩
  exact (fits_push htoken ht).imp fun _ => trivial

/-! ## One lexeme -/

theorem keeps_readLexeme {s : Scan} {ch : Char} (hpeek : s.cursor.peek = some ch) :
    Keeps text first (fun c => c = s.cursor) (readLexeme s ch) fun _ => Anywhere := by
  unfold readLexeme
  extract_lets atLineStart ended
  refine keeps_ite (fun h => ?_) fun _ => ?_
  · -- a directive and a tag need to know the character that they start with
    obtain ⟨hch, hcolumn⟩ : ch = '%' ∧ atLineStart = true := by simpa using h
    refine keeps_readDirective.imp (fun c hc => ?_) fun _ _ => id
    rw [hc, hpeek, hch]
    exact ⟨by simpa [atLineStart] using hcolumn, rfl⟩
  refine keeps_ite (fun _ => keeps_readSeparator (by trivial)) fun _ => ?_
  refine keeps_ite (fun _ => keeps_readSeparator (by trivial)) fun _ => ?_
  refine keeps_ite (fun _ => keeps_readOpen _ (by trivial)) fun _ => ?_
  refine keeps_ite (fun _ => keeps_readOpen _ (by trivial)) fun _ => ?_
  refine keeps_ite (fun _ => keeps_readClose (by trivial)) fun _ => ?_
  refine keeps_ite (fun _ => keeps_readClose (by trivial)) fun _ => ?_
  refine keeps_ite (fun _ => keeps_readComma) fun _ => ?_
  refine keeps_ite (fun _ => keeps_readEntry) fun _ => ?_
  refine keeps_ite (fun _ => keeps_readKey) fun _ => ?_
  refine keeps_ite (fun _ => keeps_readValue) fun _ => ?_
  refine keeps_ite (fun _ => ?_) fun _ => ?_
  · exact keeps_readWord_plain _ .alias (fun c _ _ => Lexeme.goesOn_anchorName c) fun _ => trivial
  refine keeps_ite (fun _ => ?_) fun _ => ?_
  · exact keeps_readWord_plain _ .anchor (fun c _ _ => Lexeme.goesOn_anchorName c) fun _ => trivial
  refine keeps_ite (fun h => ?_) fun _ => ?_
  · refine keeps_readTag.imp (fun c hc => ?_) fun _ _ => id
    rw [hc, hpeek, h]
  refine keeps_ite (fun _ => keeps_readBlock _) fun _ => ?_
  refine keeps_ite (fun _ => ?_) fun _ => ?_
  · exact keeps_readQuoted _
  exact keeps_ite (fun _ => keeps_readPlain) fun _ => keeps_failHere _

theorem keeps_readNext : Keeps text first P readNext fun _ => Anywhere := by
  unfold readNext
  refine keeps_gotoToken.bind fun _ => keeps_forgetStale.andThen fun _ =>
    .andThen (keeps_modify fun s => fits_unwind _) fun _ => keeps_get fun s hs => ?_
  split
  · exact keeps_readEnd
  · exact (keeps_readLexeme ‹_›).imp (fun _ h => h.2) fun _ _ => id

/-! ## Releasing tokens -/

theorem keeps_settle (fuel : Nat) : Keeps text first Anywhere (settle fuel) fun _ => Anywhere := by
  induction fuel with
  | zero => exact keeps_failHere _
  | succ fuel ih =>
    unfold settle
    refine keeps_get fun s hs => ?_
    refine keeps_ite (fun _ => keeps_pure fun _ _ => trivial) fun _ => ?_
    refine keeps_forgetStale.andThen fun _ => keeps_get fun t ht => ?_
    refine keeps_ite (fun _ => ?_) fun _ => keeps_pure fun _ _ => trivial
    exact keeps_readNext.bind fun _ => ih

/-- The next token is one of the text. -/
theorem keeps_peek : Keeps text first Anywhere peek fun t _ => t.In text := by
  unfold peek
  refine keeps_get fun s hs => ?_
  refine ((keeps_settle _).imp (fun _ _ => trivial) fun _ _ => id).bind fun _ =>
    keeps_get fun t ht => ?_
  split
  · rename_i token rest hqueue
    exact keeps_pure fun _ _ => ht.tokens token (by simp [hqueue])
  · exact keeps_failHere _

theorem keeps_release : Keeps text first Anywhere release fun _ => Anywhere :=
  keeps_modify fun _ hs =>
    ⟨hs.reached, hs.cursor, fun t ht => hs.tokens t (List.mem_of_mem_tail ht), hs.candidates,
      hs.version⟩

end ScanM

end DesignTokens.Yaml
