import DesignTokens.Proofs.Steps
import DesignTokens.Proofs.Yaml.Plain

/-!
# Scanning collections in brackets

A text of brackets, commas, keys and scalars with white space between them has certain tokens
(`Spells`).  A scan supplies these tokens one after the other, although some of them have to wait
in the queue because a colon may still make a key of them (`ScanM.gives_peek`,
`ScanM.gives_release`).
-/

namespace DesignTokens.Yaml

open Cursor

/-! ## Texts and their tokens -/

/-- A text in quotation marks on one line that is read as a certain text when `r` follows it. -/
structure IsQuoted (raw r : List Char) (text : String) : Prop where
  opened : raw.head? = some '"'
  line : ∀ ch ∈ raw, ch ≠ '\n' ∧ ch ≠ '\r'
  reads : ∀ c : Cursor, c.rest = raw ++ r →
    Lexeme.quotedScalar true c = .ok (text, c.advance raw.length)

/-- How a collection opens. -/
def Bracket.opening : Bracket → Char × TokenKind
  | .square => ('[', .sequenceOpen)
  | .curly => ('\x7b', .mappingOpen)

/-- How a collection closes. -/
def Bracket.closing : Bracket → Char × TokenKind
  | .square => (']', .sequenceClose)
  | .curly => ('\x7d', .mappingClose)

/-- The tokens of a text between open brackets, with no white space in front of it; `keyed` says
that a key may start there. -/
inductive Spells : (brackets : List Bracket) → (keyed : Bool) → List TokenKind → List Char →
    Prop where
  | ended {keyed : Bool} : Spells [] keyed [.textEnd] []
  | opened {brackets : List Bracket} {keyed : Bool} {kinds : List TokenKind} {w r : List Char}
      (b : Bracket) : IsBlank true w → Spells (b :: brackets) true kinds r →
      Spells brackets keyed (b.opening.2 :: kinds) (b.opening.1 :: (w ++ r))
  | closed {brackets : List Bracket} {keyed : Bool} {kinds : List TokenKind} {w r : List Char}
      (b : Bracket) : IsBlank (!brackets.isEmpty) w → Spells brackets false kinds r →
      Spells (b :: brackets) keyed (b.closing.2 :: kinds) (b.closing.1 :: (w ++ r))
  | comma {brackets : List Bracket} {keyed : Bool} {kinds : List TokenKind} {w r : List Char}
      {b : Bracket} : IsBlank true w → Spells (b :: brackets) true kinds r →
      Spells (b :: brackets) keyed (.flowEntry :: kinds) (',' :: (w ++ r))
  /-- A key and its colon stand on one line, and not too far from each other. -/
  | key {brackets : List Bracket} {kinds : List TokenKind} {raw v w r : List Char}
      {text : String} : IsQuoted raw (v ++ ':' :: (w ++ r)) text →
      (∀ ch ∈ v, ch = ' ' ∨ ch = '\t') → raw.length + v.length ≤ maxKeyLength → IsBlank true w →
      Spells (.curly :: brackets) false kinds r →
      Spells (.curly :: brackets) true (.key :: .scalar text false :: .value :: kinds)
        (raw ++ (v ++ ':' :: (w ++ r)))
  | quoted {brackets : List Bracket} {keyed : Bool} {kinds : List TokenKind} {raw w r : List Char}
      {text : String} : IsQuoted raw (w ++ r) text → IsBlank (!brackets.isEmpty) w →
      Spells brackets false kinds r →
      Spells brackets keyed (.scalar text false :: kinds) (raw ++ (w ++ r))
  | bare {brackets : List Bracket} {keyed : Bool} {kinds : List TokenKind} {raw w r : List Char} :
      IsBare raw → IsBlank (!brackets.isEmpty) w → EndsItem (!brackets.isEmpty) r →
      Spells brackets false kinds r →
      Spells brackets keyed (.scalar (String.ofList raw) true :: kinds) (raw ++ (w ++ r))

/-- A character that a token starts with. -/
def StartsToken (ch : Char) : Prop :=
  ch ∈ "[]\x7b\x7d,\"".toList ∨ isBareChar ch = true

theorem StartsToken.solid {ch : Char} (h : StartsToken ch) :
    Json.isSpace ch = false ∧ ch ≠ '#' ∧ isBreak ch = false ∧ ch ≠ Char.ofNat 0xFEFF := by
  rcases h with h | h
  · have hall : ∀ ch ∈ "[]\x7b\x7d,\"".toList, Json.isSpace ch = false ∧ ch ≠ '#' ∧
        isBreak ch = false ∧ ch ≠ Char.ofNat 0xFEFF := forall_mem_of_all (by decide)
    exact hall ch h
  · refine ⟨?_, ne_of_class h (by decide), isBreak_of_class (by decide) h,
      ne_of_class h (by decide)⟩
    simp [Json.isSpace, ne_of_class h (d := ' ') (by decide),
      ne_of_class h (d := '\t') (by decide), ne_of_class h (d := '\n') (by decide),
      ne_of_class h (d := '\r') (by decide)]

theorem IsQuoted.eq_cons {raw r : List Char} {text : String} (h : IsQuoted raw r text) :
    ∃ s, raw = '"' :: s := by
  have := h.opened
  cases raw with
  | nil => cases this
  | cons ch s => exact ⟨s, by simpa using this⟩

namespace Spells

variable {brackets : List Bracket} {keyed : Bool} {kinds : List TokenKind} {s : List Char}

/-- Where a key may start, all else may start as well. -/
theorem allowKey (h : Spells brackets keyed kinds s) : Spells brackets true kinds s := by
  cases h with
  | ended => exact .ended
  | opened b hw h => exact .opened b hw h
  | closed b hw h => exact .closed b hw h
  | comma hw h => exact .comma hw h
  | key hraw hv hlength hw h => exact .key hraw hv hlength hw h
  | quoted hraw hw h => exact .quoted hraw hw h
  | bare hraw hw hr h => exact .bare hraw hw hr h

theorem of_le {keyed' : Bool} (h : Spells brackets keyed kinds s)
    (hle : keyed = true → keyed' = true) : Spells brackets keyed' kinds s := by
  cases keyed' with
  | true => exact h.allowKey
  | false =>
    cases keyed with
    | true => simp at hle
    | false => exact h

theorem head (h : Spells brackets keyed kinds s) : ∀ ch ∈ s.head?, StartsToken ch := by
  cases h with
  | ended => simp
  | opened b => cases b <;> simp [StartsToken, Bracket.opening]
  | closed b => cases b <;> simp [StartsToken, Bracket.closing]
  | comma => simp [StartsToken]
  | key hraw | quoted hraw =>
    obtain ⟨t, rfl⟩ := hraw.eq_cons
    simp [StartsToken]
  | bare hraw =>
    obtain ⟨ch, t, rfl, -⟩ := hraw.start
    simpa [StartsToken] using .inr (hraw.chars ch List.mem_cons_self)

theorem isSolid (h : Spells brackets keyed kinds s) : IsSolid s := fun ch hch =>
  have hsolid := (h.head ch hch).solid
  ⟨hsolid.1, hsolid.2.1, hsolid.2.2.1⟩

/-- A character makes at most three tokens, and the end makes one. -/
theorem length_le (h : Spells brackets keyed kinds s) : kinds.length ≤ 3 * s.length + 1 := by
  induction h with
  | ended => simp
  | opened | closed | comma => simp only [List.length_cons, List.length_append] at *; omega
  | key hraw | quoted hraw =>
    obtain ⟨t, rfl⟩ := hraw.eq_cons
    simp only [List.length_cons, List.length_append] at *
    omega
  | bare hraw =>
    obtain ⟨ch, t, rfl, -⟩ := hraw.start
    simp only [List.length_cons, List.length_append] at *
    omega

end Spells

/-! ## States that supply tokens -/

namespace Scan

/-- What follows the tokens in the queue. -/
inductive Pending (s : Scan) : List TokenKind → Prop where
  | reading {kinds : List TokenKind} {w r : List Char} : s.done = false →
      s.cursor.rest = w ++ r → IsBlank s.inFlow w → Spells s.brackets s.keyAllowed kinds r →
      Pending s (s.queue.map (·.kind) ++ kinds)
  /-- The last token becomes a key with the colon at which the text goes on. -/
  | awaiting {q : List Token} {text : String} {start stop : Mark} {key : KeyCandidate}
      {brackets : List Bracket} {kinds : List TokenKind} {v w r : List Char} : s.done = false →
      s.brackets = .curly :: brackets →
      s.queue = q ++ [⟨.scalar text false, start, stop⟩] → s.candidate? = some key →
      key.number = s.released + q.length → key.mark.line = s.cursor.line →
      s.cursor.offset + v.length ≤ key.mark.offset + maxKeyLength →
      s.cursor.rest = v ++ ':' :: (w ++ r) → (∀ ch ∈ v, ch = ' ' ∨ ch = '\t') →
      IsBlank true w → Spells s.brackets false kinds r →
      Pending s (q.map (·.kind) ++ .key :: .scalar text false :: .value :: kinds)
  | ended : s.done = true → Pending s (s.queue.map (·.kind))

/-- A state outside all block collections where nothing has to be a key. -/
structure Steady (s : Scan) : Prop where
  indent : s.indent = -1
  outer : s.outer = []
  optional : ∀ p ∈ s.candidates, p.2.required = false

/-- A state from which a scan supplies tokens. -/
structure Supplies (s : Scan) (kinds : List TokenKind) : Prop where
  steady : s.Steady
  pending : s.Pending kinds

/-- The state before the next token, after white space `w`. -/
def arrive (w : List Char) (allowed : Bool) (s : Scan) : Scan :=
  let c := s.cursor.advance w.length
  { s with
    cursor := c
    keyAllowed := allowed
    candidates := s.candidates.filter fun p => !p.2.isStale c }

theorem Steady.of_candidates {s t : Scan} (h : s.Steady) (hindent : t.indent = s.indent)
    (houter : t.outer = s.outer)
    (hcandidates : ∀ p ∈ t.candidates, p ∈ s.candidates ∨ p.2.required = false) : t.Steady where
  indent := hindent.trans h.indent
  outer := houter.trans h.outer
  optional p hp := (hcandidates p hp).elim (h.optional p) id

theorem Steady.filter {s : Scan} (h : s.Steady) (p : Nat × KeyCandidate → Bool) :
    Steady { s with candidates := s.candidates.filter p } :=
  h.of_candidates rfl rfl fun _ hp => .inl (List.mem_filter.mp hp).1

theorem Steady.arrive {s : Scan} (h : s.Steady) (w : List Char) (allowed : Bool) :
    (s.arrive w allowed).Steady :=
  h.of_candidates rfl rfl fun _ hp => .inl (List.mem_filter.mp hp).1

theorem Steady.candidate? {s : Scan} (h : s.Steady) :
    (s.candidate?.map (·.required)).getD false = false := by
  unfold Scan.candidate?
  cases hfind : s.candidates.find? (·.1 = s.level) with
  | none => rfl
  | some p => exact h.optional p (List.mem_of_find?_eq_some hfind)

end Scan

namespace ScanM

variable {s s' : Scan} {w r : List Char}

/-! ## Parts of a step -/

theorem gives_forgetStale (hs : s.Steady) :
    Gives s forgetStale () { s with candidates := s.candidates.filter fun p => !p.2.isStale s.cursor } := by
  unfold forgetStale
  refine gives_get.bind ?_
  rw [List.partition_eq_filter_filter]
  have hany : ((s.candidates.filter fun p => p.2.isStale s.cursor).any (·.2.required)) = false := by
    rw [List.any_eq_false]
    intro p hp
    simp [hs.optional p (List.mem_filter.mp hp).1]
  dsimp only
  rw [if_neg (by simp [hany])]
  exact gives_set

theorem gives_forgetCandidate (hs : s.Steady) : Gives s forgetCandidate () s.dropCandidate := by
  unfold forgetCandidate
  refine gives_get.bind ?_
  rw [if_neg (by simp [hs.candidate?])]
  exact gives_set

theorem gives_allowKey (allowed : Bool) :
    Gives s (allowKey allowed) () { s with keyAllowed := allowed } :=
  gives_modify

/-- Where a key may start, the place is remembered as one that need not be a key. -/
theorem gives_saveCandidate (hs : s.Steady) :
    ∃ candidates, Gives s saveCandidate () { s with candidates := candidates } ∧
      Scan.Steady { s with candidates := candidates } ∧
      (s.keyAllowed = true → ∃ key, Scan.candidate? { s with candidates := candidates } = some key ∧
        key.number = s.released + s.queue.length ∧ key.mark = s.cursor.mark) := by
  unfold saveCandidate
  by_cases hkey : s.keyAllowed = true
  · let key : KeyCandidate :=
      ⟨s.released + s.queue.length, !s.inFlow && s.indent = s.cursor.column, s.cursor.mark⟩
    have hrequired : key.required = false := by
      have : ¬ (-1 : Int) = s.cursor.column := by omega
      simp [key, hs.indent, this]
    refine ⟨s.candidates.filter (·.1 ≠ s.level) ++ [(s.level, key)], gives_get.bind ?_, ?_,
      fun _ => ⟨key, ?_, rfl, rfl⟩⟩
    · rw [if_pos hkey]
      refine (gives_forgetCandidate hs).bind ?_
      exact gives_modify
    · refine hs.of_candidates rfl rfl fun p hp => ?_
      rcases List.mem_append.mp hp with hp | hp
      · exact .inl (List.mem_filter.mp hp).1
      · obtain rfl := List.mem_singleton.mp hp
        exact .inr hrequired
    · -- no other place is left at this number of brackets
      have hnone : (s.candidates.filter (·.1 ≠ s.level)).find? (·.1 = s.level) = none := by
        simp
      show ((s.candidates.filter (·.1 ≠ s.level) ++ [(s.level, key)]).find?
        (·.1 = s.level)).map (·.2) = some key
      rw [List.find?_append, hnone]
      simp
  · refine ⟨s.candidates, gives_get.bind ?_, hs, fun h => absurd h hkey⟩
    rw [if_neg hkey]
    exact gives_pure

theorem gives_gotoToken (hrest : s.cursor.rest = w ++ r) (hw : IsBlank s.inFlow w)
    (hr : IsSolid r) (hmark : s.cursor.sees (Char.ofNat 0xFEFF) = false) :
    ∃ allowed, (s.keyAllowed = true → allowed = true) ∧
      Gives s gotoToken () { s with cursor := s.cursor.advance w.length, keyAllowed := allowed } := by
  have hfuel : w.length < s.cursor.left + 1 := by
    rw [s.cursor.left_eq, hrest, List.length_append]
    omega
  obtain ⟨broke, hskip⟩ : ∃ broke, skipToToken s.inFlow (s.cursor.left + 1) false s.cursor =
      (broke, s.cursor.advance w.length) := skipToToken_eq hrest hw hr hfuel
  refine ⟨s.keyAllowed || (broke && !s.inFlow), fun h => by simp [h], ?_⟩
  unfold gotoToken
  refine gives_get.bind ?_
  simp only [hmark, Bool.and_false, Bool.false_eq_true, ↓reduceIte, hskip]
  exact gives_set

theorem unwind_eq (hs : s.Steady) (column : Int) : s.unwind column = s := by
  unfold Scan.unwind
  rw [hs.outer, Scan.closeAfter, ite_self]

/-- A scan comes to the next token and reads it. -/
theorem gives_readNext (hs : s.Steady) (hrest : s.cursor.rest = w ++ r) (hw : IsBlank s.inFlow w)
    (hr : IsSolid r) (hmark : s.cursor.sees (Char.ofNat 0xFEFF) = false) :
    ∃ allowed, (s.keyAllowed = true → allowed = true) ∧
      ∀ s', Gives (s.arrive w allowed) (match r.head? with
          | none => readEnd
          | some ch => readLexeme (s.arrive w allowed) ch) () s' →
        Gives s readNext () s' := by
  obtain ⟨allowed, hallowed, hgoto⟩ := gives_gotoToken hrest hw hr hmark
  refine ⟨allowed, hallowed, fun s' hs' => ?_⟩
  have hsteady : Scan.Steady { s with cursor := s.cursor.advance w.length, keyAllowed := allowed } :=
    ⟨hs.indent, hs.outer, hs.optional⟩
  unfold readNext
  refine hgoto.bind ((gives_forgetStale hsteady).bind (gives_modify.bind (gives_get.bind ?_)))
  rw [unwind_eq (hsteady.filter _)]
  have hpeek : (s.arrive w allowed).cursor.peek = r.head? := by
    rw [Cursor.peek, Scan.arrive, rest_advance_append hrest]
  rw [← hpeek] at hs'
  exact hs'

/-! ## One lexeme -/

/-- After a lexeme a scan supplies certain tokens, and less of the text is left. -/
structure Advances (s s' : Scan) (kinds : List TokenKind) : Prop where
  version : s'.version = s.version
  progress : s'.done = true ∨ s'.cursor.left < s.cursor.left
  supplies : s'.Supplies kinds

/-- A scan goes on after a token at the end of the queue. -/
theorem supplies_of_push {q : List Token} {kind : TokenKind} {start stop : Mark}
    {kinds : List TokenKind} (hqueue : s.queue = q ++ [⟨kind, start, stop⟩]) (hs : s.Steady)
    (hdone : s.done = false) (hrest : s.cursor.rest = w ++ r) (hw : IsBlank s.inFlow w)
    (h : Spells s.brackets s.keyAllowed kinds r) :
    s.Supplies (q.map (·.kind) ++ kind :: kinds) := by
  have hpending := Scan.Pending.reading hdone hrest hw h
  rw [hqueue, List.map_append, List.append_assoc] at hpending
  exact ⟨hs, hpending⟩

theorem atTriple_eq_false {c : Cursor} {ch d : Char} (h : c.rest = ch :: r) (hne : ch ≠ d) :
    c.atTriple d = false := by
  unfold Cursor.atTriple
  rw [h]
  simp [hne]

variable {b : Bracket} {kinds : List TokenKind}

theorem readLexeme_opening (hrest : s.cursor.rest = b.opening.1 :: r) :
    readLexeme s b.opening.1 = readOpen b b.opening.2 := by
  unfold readLexeme
  rw [atTriple_eq_false hrest (by cases b <;> decide), atTriple_eq_false hrest (by cases b <;> decide)]
  cases b <;> simp [Bracket.opening]

theorem advances_opening (hs : s.Steady) (hdone : s.done = false)
    (hrest : s.cursor.rest = b.opening.1 :: (w ++ r)) (hw : IsBlank true w)
    (h : Spells (b :: s.brackets) true kinds r) :
    ∃ s', Gives s (readLexeme s b.opening.1) () s' ∧
      Advances s s' (s.queue.map (·.kind) ++ b.opening.2 :: kinds) := by
  rw [readLexeme_opening hrest]
  obtain ⟨candidates, hsave, hsteady, -⟩ := gives_saveCandidate hs
  refine ⟨_, hsave.bind (gives_modify.bind ((gives_allowKey true).bind gives_modify)), rfl,
    .inr (left_advance_lt (s := [_]) hrest (by simp)), ?_⟩
  exact supplies_of_push rfl ⟨hsteady.indent, hsteady.outer, hsteady.optional⟩ hdone
    (rest_advance_append (s := [_]) hrest) hw h

theorem Steady.dropCandidate (hs : s.Steady) : s.dropCandidate.Steady :=
  hs.of_candidates rfl rfl fun _ hp => .inl (List.mem_filter.mp hp).1

theorem readLexeme_closing (hrest : s.cursor.rest = b.closing.1 :: r) :
    readLexeme s b.closing.1 = readClose b.closing.2 := by
  unfold readLexeme
  rw [atTriple_eq_false hrest (by cases b <;> decide), atTriple_eq_false hrest (by cases b <;> decide)]
  cases b <;> simp [Bracket.closing]

theorem advances_closing {brackets : List Bracket} (hs : s.Steady) (hdone : s.done = false)
    (hbrackets : s.brackets = b :: brackets) (hrest : s.cursor.rest = b.closing.1 :: (w ++ r))
    (hw : IsBlank (!brackets.isEmpty) w) (h : Spells brackets false kinds r) :
    ∃ s', Gives s (readLexeme s b.closing.1) () s' ∧
      Advances s s' (s.queue.map (·.kind) ++ b.closing.2 :: kinds) := by
  rw [readLexeme_closing hrest]
  have hsteady := Steady.dropCandidate hs
  refine ⟨_, (gives_forgetCandidate hs).bind
    (gives_modify.bind ((gives_allowKey false).bind gives_modify)), rfl,
    .inr (left_advance_lt (s := [_]) hrest (by simp)), ?_⟩
  have htail : s.brackets.tail = brackets := by rw [hbrackets, List.tail_cons]
  refine supplies_of_push rfl ⟨hsteady.indent, hsteady.outer, hsteady.optional⟩ hdone
    (rest_advance_append (s := [_]) hrest) ?_ ?_
  · show IsBlank (!s.brackets.tail.isEmpty) w
    rwa [htail]
  · show Spells s.brackets.tail false kinds r
    rwa [htail]

theorem readLexeme_comma (hrest : s.cursor.rest = ',' :: r) : readLexeme s ',' = readComma := by
  unfold readLexeme
  rw [atTriple_eq_false hrest (by decide), atTriple_eq_false hrest (by decide)]
  simp

theorem advances_comma (hs : s.Steady) (hdone : s.done = false) (hflow : s.inFlow = true)
    (hrest : s.cursor.rest = ',' :: (w ++ r)) (hw : IsBlank true w)
    (h : Spells s.brackets true kinds r) :
    ∃ s', Gives s (readLexeme s ',') () s' ∧
      Advances s s' (s.queue.map (·.kind) ++ .flowEntry :: kinds) := by
  rw [readLexeme_comma hrest]
  have hallow : Scan.Steady { s with keyAllowed := true } := ⟨hs.indent, hs.outer, hs.optional⟩
  have hsteady := Steady.dropCandidate hallow
  refine ⟨_, (gives_allowKey true).bind ((gives_forgetCandidate hallow).bind gives_modify), rfl,
    .inr (left_advance_lt (s := [_]) hrest (by simp)), ?_⟩
  refine supplies_of_push rfl ⟨hsteady.indent, hsteady.outer, hsteady.optional⟩ hdone
    (rest_advance_append (s := [_]) hrest) ?_ h
  show IsBlank s.inFlow w
  rwa [hflow]

/-! ## Scalars -/

theorem readLexeme_quote (hrest : s.cursor.rest = '"' :: r) :
    readLexeme s '"' = readWord fun c _ =>
      (Lexeme.quotedScalar true c).map fun (text, c) => (.scalar text false, c) := by
  unfold readLexeme
  rw [atTriple_eq_false hrest (by decide), atTriple_eq_false hrest (by decide)]
  simp

theorem gives_take {α : Type} {answer : Lexeme.Result α} {a : α} {c : Cursor}
    (h : answer = .ok (a, c)) : Gives s (take answer) a { s with cursor := c } := by
  subst h
  exact gives_modify.bind gives_pure

/-- What reading a quoted scalar leads to; where a key may start, the scalar may become one. -/
theorem gives_quoted {raw : List Char} {text : String} (hs : s.Steady)
    (hrest : s.cursor.rest = raw ++ r) (hraw : IsQuoted raw r text) :
    ∃ s', Gives s (readLexeme s '"') () s' ∧ s'.Steady ∧ s'.version = s.version ∧
      s'.done = s.done ∧ s'.brackets = s.brackets ∧ s'.keyAllowed = false ∧
      s'.cursor = s.cursor.advance raw.length ∧ s'.released = s.released ∧
      (∃ start stop, s'.queue = s.queue ++ [⟨.scalar text false, start, stop⟩]) ∧
      (s.keyAllowed = true → ∃ key, s'.candidate? = some key ∧
        key.number = s.released + s.queue.length ∧ key.mark = s.cursor.mark) := by
  obtain ⟨t, rfl⟩ := hraw.eq_cons
  rw [readLexeme_quote hrest]
  obtain ⟨candidates, hsave, hsteady, hkey⟩ := gives_saveCandidate hs
  have hread : (Lexeme.quotedScalar true s.cursor).map (fun p => (TokenKind.scalar p.1 false, p.2)) =
      .ok (.scalar text false, s.cursor.advance ('"' :: t).length) := by
    rw [hraw.reads s.cursor hrest]
    rfl
  refine ⟨_, hsave.bind ((gives_allowKey false).bind (gives_get.bind
    ((gives_take hread).bind gives_modify))), ?_⟩
  · exact ⟨⟨hsteady.indent, hsteady.outer, hsteady.optional⟩, rfl, rfl, rfl, rfl, rfl, rfl,
      ⟨_, _, rfl⟩, hkey⟩

theorem advances_quoted {raw : List Char} {text : String} (hs : s.Steady) (hdone : s.done = false)
    (hrest : s.cursor.rest = raw ++ (w ++ r)) (hraw : IsQuoted raw (w ++ r) text)
    (hw : IsBlank s.inFlow w) (h : Spells s.brackets false kinds r) :
    ∃ s', Gives s (readLexeme s '"') () s' ∧
      Advances s s' (s.queue.map (·.kind) ++ .scalar text false :: kinds) := by
  obtain ⟨s', hgives, hsteady, hversion, hdone', hbrackets, hkeyed, hcursor, -, ⟨start, stop, hqueue⟩,
    -⟩ := gives_quoted hs hrest hraw
  obtain ⟨t, rfl⟩ := hraw.eq_cons
  refine ⟨s', hgives, hversion, .inr ?_, supplies_of_push hqueue hsteady (hdone'.trans hdone)
    (by rw [hcursor]; exact rest_advance_append hrest) ?_ (by rwa [hbrackets, hkeyed])⟩
  · rw [hcursor]
    exact left_advance_lt hrest (by simp)
  · rw [Scan.inFlow, hbrackets]
    exact hw

theorem advances_key {brackets : List Bracket} {raw v : List Char} {text : String} (hs : s.Steady)
    (hdone : s.done = false) (hbrackets : s.brackets = .curly :: brackets)
    (hkeyed : s.keyAllowed = true) (hrest : s.cursor.rest = raw ++ (v ++ ':' :: (w ++ r)))
    (hraw : IsQuoted raw (v ++ ':' :: (w ++ r)) text) (hv : ∀ ch ∈ v, ch = ' ' ∨ ch = '\t')
    (hlength : raw.length + v.length ≤ maxKeyLength) (hw : IsBlank true w)
    (h : Spells s.brackets false kinds r) :
    ∃ s', Gives s (readLexeme s '"') () s' ∧
      Advances s s' (s.queue.map (·.kind) ++ .key :: .scalar text false :: .value :: kinds) := by
  obtain ⟨s', hgives, hsteady, hversion, hdone', hbrackets', -, hcursor, hreleased,
    ⟨start, stop, hqueue⟩, hkey⟩ := gives_quoted hs hrest hraw
  obtain ⟨key, hcandidate, hnumber, hmark⟩ := hkey hkeyed
  obtain ⟨hline, hoffset⟩ := place_advance hrest hraw.line
  obtain ⟨t, rfl⟩ := hraw.eq_cons
  refine ⟨s', hgives, hversion, .inr ?_, hsteady, ?_⟩
  · rw [hcursor]
    exact left_advance_lt hrest (by simp)
  · -- the scalar waits for its colon: on the same line, and not too far away
    refine .awaiting (hdone'.trans hdone)
      (hbrackets'.trans hbrackets) hqueue hcandidate (by rw [hreleased, hnumber]) ?_ ?_ ?_ hv hw
      (by rwa [hbrackets'])
    · rw [hcursor, hline, hmark]
      rfl
    · rw [hcursor, hoffset, hmark]
      show s.cursor.offset + _ + v.length ≤ s.cursor.offset + maxKeyLength
      omega
    · rw [hcursor]
      exact rest_advance_append hrest

/-- A bare word is no mark between documents. -/
theorem atTriple_of_bare {c : Cursor} {raw : List Char} (hraw : IsBare raw)
    (hrest : c.rest = raw ++ r) : c.atTriple '-' = false ∧ c.atTriple '.' = false := by
  obtain ⟨ch, t, rfl, halnum | ⟨rfl, d, u, rfl, hd⟩⟩ := hraw.start
  · exact ⟨atTriple_eq_false hrest (ne_of_class halnum (by decide)),
      atTriple_eq_false hrest (ne_of_class halnum (by decide))⟩
  · refine ⟨?_, atTriple_eq_false hrest (by decide)⟩
    have hne : d ≠ '-' := ne_of_class hd (by decide)
    unfold Cursor.atTriple
    rw [hrest]
    simp [hne]

/-- A bare word starts a plain scalar, and a minus sign in front of it no entry. -/
theorem startsPlain_of_bare {ch : Char} {t : List Char} (hraw : IsBare (ch :: t))
    (hrest : s.cursor.rest = ch :: (t ++ r)) :
    startsPlain s = true ∧ (ch = '-' → endsWord (s.cursor.peekAt 1) = false) := by
  have hpeek : s.cursor.peek = some ch := by rw [Cursor.peek, hrest]; rfl
  obtain ⟨_, _, ⟨⟩, halnum | ⟨rfl, d, u, rfl, hd⟩⟩ := hraw.start
  · have hne (d : Char) (hd : d.isAlphanum = false) : ch ≠ d := ne_of_class halnum hd
    have hbreak : isBreak ch = false := isBreak_of_class (by decide) halnum
    refine ⟨?_, fun h => absurd h (hne _ (by decide))⟩
    unfold startsPlain
    rw [hpeek]
    simp [endsMark, endsLine, hbreak, hne ' ' (by decide), hne '\t' (by decide),
      hne Text.apostrophe (by decide), hne '-' (by decide), hne '?' (by decide),
      hne ':' (by decide), hne ',' (by decide), hne '[' (by decide), hne ']' (by decide),
      hne '\x7b' (by decide), hne '\x7d' (by decide), hne '#' (by decide), hne '&' (by decide),
      hne '*' (by decide), hne '!' (by decide), hne '|' (by decide), hne '>' (by decide),
      hne '"' (by decide), hne '%' (by decide), hne '@' (by decide), hne '\x60' (by decide)]
  · have hnext : s.cursor.peekAt 1 = some d := by rw [Cursor.peekAt, hrest]; rfl
    have hword : endsWord (some d) = false := endsWord_of_bare (by simp [isBareChar, hd])
    rw [hnext]
    refine ⟨?_, fun _ => hword⟩
    unfold startsPlain
    rw [hpeek, hnext]
    simp [hword]

theorem readLexeme_bare {ch : Char} {t : List Char} (hraw : IsBare (ch :: t))
    (hrest : s.cursor.rest = ch :: (t ++ r)) : readLexeme s ch = readPlain := by
  have hch : isBareChar ch = true := hraw.chars ch List.mem_cons_self
  have hne (d : Char) (hd : isBareChar d = false) : ch ≠ d := ne_of_class hch hd
  obtain ⟨hstart, hminus⟩ := startsPlain_of_bare hraw hrest
  have hentry : (decide (ch = '-') && endsWord (s.cursor.peekAt 1)) = false := by
    by_cases h : ch = '-'
    · rw [hminus h, Bool.and_false]
    · simp [h]
  unfold readLexeme
  simp only [atTriple_of_bare hraw hrest, hstart, hentry, hne '%' (by decide),
    hne '[' (by decide), hne '\x7b' (by decide), hne ']' (by decide), hne '\x7d' (by decide),
    hne ',' (by decide), hne '?' (by decide), hne ':' (by decide), hne '*' (by decide),
    hne '&' (by decide), hne '!' (by decide), hne '|' (by decide), hne '>' (by decide),
    hne '"' (by decide), hne Text.apostrophe (by decide), decide_false, Bool.false_and,
    Bool.and_false, Bool.or_self, Bool.false_eq_true, ↓reduceIte]

theorem advances_bare {ch : Char} {t : List Char} (hs : s.Steady) (hdone : s.done = false)
    (hrest : s.cursor.rest = ch :: (t ++ (w ++ r))) (hraw : IsBare (ch :: t))
    (hw : IsBlank s.inFlow w) (hr : EndsItem s.inFlow r) (h : Spells s.brackets false kinds r) :
    ∃ s', Gives s (readLexeme s ch) () s' ∧
      Advances s s' (s.queue.map (·.kind) ++ .scalar (String.ofList (ch :: t)) true :: kinds) := by
  rw [readLexeme_bare hraw hrest]
  obtain ⟨candidates, hsave, hsteady, -⟩ := gives_saveCandidate hs
  have hw' : IsBlank (setting s).inFlow w := hw
  obtain ⟨scalar, v, u, hscalar, htext, rfl⟩ := plainScalar_eq hrest hraw hw' hr
  have hrest' : s.cursor.rest = (ch :: t ++ v) ++ (u ++ r) := by rw [hrest]; simp
  -- white space behind a plain scalar is passed over together with it
  let s' : Scan :=
    { s with
      candidates := candidates
      queue := s.queue ++ [⟨.scalar (String.ofList (ch :: t)) true, s.cursor.mark, scalar.stop⟩]
      cursor := s.cursor.advance (ch :: t ++ v).length
      keyAllowed := scalar.brokeLine }
  have hgives : Gives s readPlain () s' := by
    refine hsave.bind (gives_modify_of_eq ?_)
    have hsame : Lexeme.plainScalar (setting { s with candidates := candidates }) s.cursor =
        (scalar, s.cursor.advance (ch :: t ++ v).length) := hscalar
    dsimp only
    rw [hsame, htext]
    rfl
  refine ⟨s', hgives, rfl, .inr (left_advance_lt hrest' (by simp)), ?_⟩
  exact supplies_of_push rfl ⟨hsteady.indent, hsteady.outer, hsteady.optional⟩ hdone
    (rest_advance_append hrest') (fun d hd => hw d (List.mem_append_right _ hd))
    (h.of_le (by simp))

/-! ## The colon of a key -/

theorem readLexeme_colon (hrest : s.cursor.rest = ':' :: r) (hvalue : marksValue s = true) :
    readLexeme s ':' = readValue := by
  unfold readLexeme
  rw [atTriple_eq_false hrest (by decide), atTriple_eq_false hrest (by decide)]
  simp [hvalue]

/-- After a scalar in a mapping a colon marks a value. -/
theorem marksValue_of_scalar {q : List Token} {text : String} {plain : Bool} {start stop : Mark}
    {brackets : List Bracket} (hbrackets : s.brackets = .curly :: brackets)
    (hqueue : s.queue = q ++ [⟨.scalar text plain, start, stop⟩]) : marksValue s = true := by
  unfold marksValue
  rw [hbrackets, hqueue]
  simp

/-- A key goes in front of the last token of the queue. -/
theorem queue_insert {q : List Token} {t : Token} {number : Nat} {kind : TokenKind} {mark : Mark}
    (hqueue : s.queue = q ++ [t]) (hnumber : number = s.released + q.length) :
    (s.insert number kind mark).queue = q ++ [⟨kind, mark, mark⟩, t] := by
  unfold Scan.insert
  rw [hqueue, hnumber, Nat.add_sub_cancel_left]
  simp

theorem advances_colon {q : List Token} {text : String} {start stop : Mark} {key : KeyCandidate}
    {brackets : List Bracket} (hs : s.Steady) (hdone : s.done = false)
    (hbrackets : s.brackets = .curly :: brackets)
    (hqueue : s.queue = q ++ [⟨.scalar text false, start, stop⟩])
    (hcandidate : s.candidate? = some key) (hnumber : key.number = s.released + q.length)
    (hrest : s.cursor.rest = ':' :: (w ++ r)) (hw : IsBlank true w)
    (h : Spells s.brackets false kinds r) :
    ∃ s', Gives s (readLexeme s ':') () s' ∧
      Advances s s' (q.map (·.kind) ++ .key :: .scalar text false :: .value :: kinds) := by
  have hsteady := Steady.dropCandidate hs
  have hflow : s.inFlow = true := by
    unfold Scan.inFlow
    rw [hbrackets]
    rfl
  rw [readLexeme_colon hrest (marksValue_of_scalar hbrackets hqueue)]
  -- the mark of the key goes in front of the scalar that waits in the queue
  let t : Scan := s.dropCandidate.insert key.number .key key.mark
  have hinsert : t.queue = q ++ [⟨.key, key.mark, key.mark⟩, ⟨.scalar text false, start, stop⟩] :=
    queue_insert hqueue hnumber
  have hmake : Gives s (makeKey key) () { t with keyAllowed := false } := by
    unfold makeKey
    have hsame : Gives t (modify fun s =>
        if !s.inFlow && decide (s.indent < (key.mark.column : Int)) then
          (s.openAt key.mark.column).insert key.number .blockMappingStart key.mark
        else s : ScanM Unit) () t := by
      refine gives_modify_of_eq (if_neg ?_)
      show ¬ (!s.inFlow && _) = true
      simp [hflow]
    exact gives_modify.bind (hsame.bind (gives_allowKey false))
  -- between brackets a colon opens no block, it only marks the value
  let u : Scan :=
    { t.push .value t.cursor.mark (t.cursor.advance 1).mark with
      cursor := t.cursor.advance 1, keyAllowed := false }
  have hread : Gives s readValue () u := by
    unfold readValue
    refine gives_get.bind ?_
    rw [hcandidate]
    exact hmake.bind gives_modify
  refine ⟨u, hread, rfl, .inr (left_advance_lt (s := [_]) hrest (by simp)), ?_⟩
  have hblank : IsBlank u.inFlow w := by
    show IsBlank s.inFlow w
    rwa [hflow]
  have hsupplies := supplies_of_push (s := u) rfl
    ⟨hsteady.indent, hsteady.outer, hsteady.optional⟩ hdone
    (rest_advance_append (s := [_]) hrest) hblank h
  rw [hinsert] at hsupplies
  simpa using hsupplies

/-! ## The end of the text -/

theorem gives_leaveDocument (hs : s.Steady) :
    Gives s leaveDocument () { s.dropCandidate with keyAllowed := false } := by
  have hunwind : Gives s (modify (·.unwind (-1)) : ScanM Unit) () s :=
    gives_modify_of_eq (unwind_eq hs _)
  exact hunwind.bind ((gives_forgetCandidate hs).bind (gives_allowKey false))

theorem advances_end (hs : s.Steady) :
    ∃ s', Gives s readEnd () s' ∧ Advances s s' (s.queue.map (·.kind) ++ [.textEnd]) := by
  let s' : Scan :=
    { s with
      keyAllowed := false
      candidates := []
      done := true
      queue := s.queue ++ [⟨.textEnd, s.cursor.mark, s.cursor.mark⟩] }
  have hpending : s'.Pending (s.queue.map (·.kind) ++ [.textEnd]) := by
    have := Scan.Pending.ended (s := s') rfl
    rwa [List.map_append] at this
  exact ⟨s', (gives_leaveDocument hs).bind (gives_modify.bind gives_modify), rfl, .inl rfl,
    ⟨hs.indent, hs.outer, by simp [s']⟩, hpending⟩

/-! ## Whole steps -/

theorem find?_filter_of_find? {α : Type} {p q : α → Bool} {xs : List α} {a : α}
    (h : xs.find? p = some a) (ha : q a = true) : (xs.filter q).find? p = some a := by
  obtain ⟨hp, as, bs, rfl, has⟩ := List.find?_eq_some_iff_append.mp h
  refine List.find?_eq_some_iff_append.mpr ⟨hp, as.filter q, bs.filter q, by simp [ha], ?_⟩
  exact fun a ha => has a (List.mem_filter.mp ha).1

/-- A possible key that is not stale stays. -/
theorem candidate?_filter {key : KeyCandidate} (h : s.candidate? = some key) {c : Cursor}
    (hfresh : key.isStale c = false) :
    Scan.candidate? { s with candidates := s.candidates.filter fun p => !p.2.isStale c } =
      some key := by
  unfold Scan.candidate? at h ⊢
  obtain ⟨p, hp, rfl⟩ := Option.map_eq_some_iff.mp h
  refine Option.map_eq_some_iff.mpr ⟨p, find?_filter_of_find? hp ?_, rfl⟩
  simp [hfresh]

theorem isStale_advance {key : KeyCandidate} {c : Cursor} {v : List Char}
    (hrest : c.rest = v ++ r) (hv : ∀ ch ∈ v, ch = ' ' ∨ ch = '\t')
    (hline : key.mark.line = c.line)
    (hoffset : c.offset + v.length ≤ key.mark.offset + maxKeyLength) :
    key.isStale (c.advance v.length) = false := by
  obtain ⟨hline', hoffset'⟩ := place_advance hrest fun ch hch => by
    rcases hv ch hch with rfl | rfl <;> decide
  unfold KeyCandidate.isStale
  simp only [hline, hline', hoffset', ne_eq, not_true_eq_false, decide_false, Bool.false_or,
    decide_eq_false_iff_not]
  omega

theorem Advances.of_arrive {t s' : Scan} {kinds : List TokenKind} (h : Advances t s' kinds)
    {allowed : Bool} (ht : t = s.arrive w allowed) : Advances s s' kinds := by
  subst ht
  have hle : (s.arrive w allowed).cursor.left ≤ s.cursor.left := left_advance_le _ _
  exact ⟨h.version, h.progress.imp id fun hlt => Nat.lt_of_lt_of_le hlt hle, h.supplies⟩

/-- Every token is read from where it starts. -/
theorem advances_lexeme (hs : s.Steady) (hdone : s.done = false) (hrest : s.cursor.rest = r)
    (h : Spells s.brackets s.keyAllowed kinds r) :
    ∃ s', Gives s (match r.head? with
        | none => readEnd
        | some ch => readLexeme s ch) () s' ∧
      Advances s s' (s.queue.map (·.kind) ++ kinds) := by
  generalize hbrackets : s.brackets = brackets at h
  generalize hkeyed : s.keyAllowed = keyed at h
  have hflow : s.inFlow = !brackets.isEmpty := by rw [Scan.inFlow, hbrackets]
  cases h with
  | ended => exact advances_end hs
  | opened b hw h => exact advances_opening hs hdone hrest hw (hbrackets ▸ h)
  | closed b hw h => exact advances_closing hs hdone hbrackets hrest hw h
  | comma hw h => exact advances_comma hs hdone hflow hrest hw (hbrackets ▸ h)
  | key hraw hv hlength hw h =>
    obtain ⟨t, rfl⟩ := hraw.eq_cons
    exact advances_key hs hdone hbrackets hkeyed hrest hraw hv hlength hw (hbrackets ▸ h)
  | quoted hraw hw h =>
    obtain ⟨t, rfl⟩ := hraw.eq_cons
    exact advances_quoted hs hdone hrest hraw (hflow ▸ hw) (hbrackets ▸ h)
  | bare hraw hw hr h =>
    obtain ⟨ch, t, rfl, -⟩ := hraw.start
    exact advances_bare hs hdone hrest hraw (hflow ▸ hw) (hflow ▸ hr) (hbrackets ▸ h)

/-- Nothing that a scan goes over is a byte order mark. -/
theorem sees_mark_eq_false {inFlow : Bool} {c : Cursor} (hrest : c.rest = w ++ r)
    (hw : IsBlank inFlow w) (hr : ∀ ch ∈ r.head?, ch ≠ Char.ofNat 0xFEFF) :
    c.sees (Char.ofNat 0xFEFF) = false := by
  refine sees_of_rest ?_
  rw [hrest]
  cases w with
  | nil => exact hr
  | cons ch w =>
    rintro _ ⟨⟩
    exact ne_of_class (hw ch List.mem_cons_self).1 (by decide)

/-- A scan that supplies tokens reads the next lexeme. -/
theorem advances_readNext (h : s.Supplies kinds) (hdone : s.done = false) :
    ∃ s', Gives s readNext () s' ∧ Advances s s' kinds := by
  obtain ⟨hs, hpending⟩ := h
  cases hpending with
  | ended hdone' =>
    rw [hdone] at hdone'
    cases hdone'
  | @reading kinds w r _ hrest hw hspells =>
    have hmark := sees_mark_eq_false hrest hw fun ch hch => (hspells.head ch hch).solid.2.2.2
    obtain ⟨allowed, hallowed, hnext⟩ := gives_readNext hs hrest hw hspells.isSolid hmark
    obtain ⟨s', hgives, hadvances⟩ := advances_lexeme (hs.arrive w allowed) hdone
      (rest_advance_append hrest) (hspells.of_le hallowed)
    exact ⟨s', hnext s' hgives, hadvances.of_arrive rfl⟩
  | @awaiting q text start stop key brackets kinds v w r _ hbrackets hqueue hcandidate hnumber hline
      hoffset hrest hv hw hspells =>
    have hflow : s.inFlow = true := by
      unfold Scan.inFlow
      rw [hbrackets]
      rfl
    have hblank : IsBlank s.inFlow v := fun ch hch => by
      rcases hv ch hch with rfl | rfl <;> exact ⟨rfl, fun _ => hflow⟩
    have hcolon : IsSolid (':' :: (w ++ r)) := by
      rintro _ ⟨⟩
      decide
    have hmark := sees_mark_eq_false hrest hblank (by rintro _ ⟨⟩; decide)
    obtain ⟨allowed, -, hnext⟩ := gives_readNext hs hrest hblank hcolon hmark
    -- the candidate for a key is not stale yet when its colon is reached
    have hcandidate' := candidate?_filter hcandidate (isStale_advance hrest hv hline hoffset)
    obtain ⟨s', hgives, hadvances⟩ := advances_colon (hs.arrive v allowed) ‹_› hbrackets hqueue
      hcandidate' hnumber (rest_advance_append hrest) hw hspells
    exact ⟨s', hnext s' hgives, hadvances.of_arrive rfl⟩

/-! ## Releasing tokens -/

/-- A state whose first token is certain. -/
structure Ready (s : Scan) (kinds : List TokenKind) : Prop where
  supplies : s.Supplies kinds
  nonempty : s.queue ≠ []
  certain : s.done = false → s.mayBecomeKey = false

theorem supplies_forgetStale (h : s.Supplies kinds) :
    Scan.Supplies { s with candidates := s.candidates.filter fun p => !p.2.isStale s.cursor }
      kinds := by
  refine ⟨h.steady.filter _, ?_⟩
  cases h.pending with
  | reading hdone hrest hw hspells => exact .reading hdone hrest hw hspells
  | awaiting hdone hbrackets hqueue hcandidate hnumber hline hoffset hrest hv hw hspells =>
    have hfresh : KeyCandidate.isStale _ (s.cursor.advance ([] : List Char).length) = false :=
      isStale_advance (List.nil_append _).symm (by simp) hline (by simp only [List.length_nil]; omega)
    exact .awaiting hdone hbrackets hqueue (candidate?_filter hcandidate hfresh) hnumber hline
      hoffset hrest hv hw hspells
  | ended hdone => exact .ended hdone

theorem mayBecomeKey_of_candidate? {key : KeyCandidate} (h : s.candidate? = some key)
    (hnumber : key.number = s.released) : s.mayBecomeKey = true := by
  obtain ⟨p, hp, rfl⟩ := Option.map_eq_some_iff.mp h
  exact List.any_eq_true.mpr ⟨p, List.mem_of_find?_eq_some hp, decide_eq_true hnumber⟩

/-- At the end of the text the queue holds all tokens that are left. -/
theorem nonempty_of_done (h : s.Supplies kinds) (hkinds : kinds ≠ []) (hdone : s.done = true) :
    s.queue ≠ [] := by
  cases h.pending with
  | reading hdone' | awaiting hdone' =>
    rw [hdone] at hdone'
    cases hdone'
  | ended =>
    rintro hqueue
    exact hkinds (by rw [hqueue]; rfl)

/-- Scanning goes on until the first token is certain. -/
theorem gives_settle (fuel : Nat) (h : s.Supplies kinds) (hkinds : kinds ≠ [])
    (hfuel : if s.done then 1 ≤ fuel else s.cursor.left + 2 ≤ fuel) :
    ∃ s', Gives s (settle fuel) () s' ∧ s'.version = s.version ∧ Ready s' kinds := by
  induction fuel generalizing s with
  | zero => split at hfuel <;> omega
  | succ fuel ih =>
    unfold settle
    by_cases hdone : s.done = true
    · refine ⟨s, gives_get.bind ?_, rfl, h, nonempty_of_done h hkinds hdone, by simp [hdone]⟩
      rw [if_pos hdone]
      exact gives_pure
    · let t : Scan := { s with candidates := s.candidates.filter fun p => !p.2.isStale s.cursor }
      have ht : t.Supplies kinds := supplies_forgetStale h
      have hforget : Gives s forgetStale () t := gives_forgetStale h.steady
      by_cases hmore : (t.queue.isEmpty || t.mayBecomeKey) = true
      · -- the text gets shorter, or its end was read
        obtain ⟨u, hu, hadvances⟩ := advances_readNext ht (by simpa using hdone)
        obtain ⟨s', hs', hversion, hready⟩ := ih hadvances.supplies (by
          rw [if_neg hdone] at hfuel
          rcases hadvances.progress with h | h
          · rw [if_pos h]
            omega
          · have : u.cursor.left < s.cursor.left := h
            split <;> omega)
        refine ⟨s', gives_get.bind ?_, hversion.trans hadvances.version, hready⟩
        rw [if_neg hdone]
        refine hforget.bind (gives_get.bind ?_)
        rw [if_pos hmore]
        exact hu.bind hs'
      · simp only [Bool.or_eq_true, not_or, Bool.not_eq_true, List.isEmpty_eq_false_iff] at hmore
        refine ⟨t, gives_get.bind ?_, rfl, ht, hmore.1, fun _ => hmore.2⟩
        rw [if_neg hdone]
        refine hforget.bind (gives_get.bind ?_)
        rw [if_neg (by simp [hmore])]
        exact gives_pure

/-- The first token of a queue is the next one when it is certain. -/
theorem pending_tail {t : Token} {q : List Token} (h : s.Pending kinds) (hqueue : s.queue = t :: q)
    (hcertain : s.done = false → s.mayBecomeKey = false) :
    ∃ rest, kinds = t.kind :: rest ∧
      Scan.Pending { s with queue := q, released := s.released + 1 } rest := by
  cases h with
  | reading hdone hrest hw hspells =>
    refine ⟨q.map (·.kind) ++ _, by rw [hqueue]; rfl, ?_⟩
    exact .reading (s := { s with queue := q, released := s.released + 1 }) hdone hrest hw hspells
  | @awaiting q' _ _ _ key _ _ _ _ _ hdone hbrackets hqueue' hcandidate hnumber hline hoffset
      hrest hv hw hspells =>
    cases q' with
    | nil =>
      -- the only token of the queue may become the key
      have hkey := mayBecomeKey_of_candidate? hcandidate hnumber
      rw [hcertain hdone] at hkey
      cases hkey
    | cons t' q' =>
      rw [hqueue, List.cons_append] at hqueue'
      obtain ⟨rfl, rfl⟩ := List.cons.inj hqueue'
      have hnumber' : key.number = s.released + 1 + q'.length := by
        rw [hnumber, List.length_cons]
        omega
      refine ⟨q'.map (·.kind) ++ _, rfl, ?_⟩
      exact .awaiting (s := { s with queue := _, released := s.released + 1 }) hdone hbrackets rfl
        hcandidate hnumber' hline hoffset hrest hv hw hspells
  | ended hdone =>
    refine ⟨q.map (·.kind), by rw [hqueue]; rfl, ?_⟩
    exact .ended (s := { s with queue := q, released := s.released + 1 }) hdone

theorem Ready.pending {t : Token} {q : List Token} (h : Ready s kinds) (hqueue : s.queue = t :: q) :
    ∃ rest, kinds = t.kind :: rest ∧
      Scan.Pending { s with queue := q, released := s.released + 1 } rest :=
  pending_tail h.supplies.pending hqueue h.certain

/-- A scan that supplies tokens gives the first one, -/
theorem gives_peek {kind : TokenKind} (h : s.Supplies (kind :: kinds)) :
    ∃ t s', Gives s peek t s' ∧ t.kind = kind ∧ s'.version = s.version ∧
      Ready s' (kind :: kinds) := by
  obtain ⟨s', hsettle, hversion, hready⟩ := gives_settle (s.cursor.left + 2) h (by simp)
    (by split <;> omega)
  obtain ⟨t, q, hqueue⟩ := List.exists_cons_of_ne_nil hready.nonempty
  obtain ⟨rest, hkinds, -⟩ := hready.pending hqueue
  refine ⟨t, s', ?_, (List.cons.inj hkinds).1.symm, hversion, hready⟩
  unfold peek
  refine gives_get.bind (hsettle.bind (gives_get.bind ?_))
  rw [hqueue]
  exact gives_pure

/-- and after it was released, the scan supplies the others. -/
theorem gives_release {kind : TokenKind} (h : Ready s (kind :: kinds)) :
    ∃ s', Gives s release () s' ∧ s'.version = s.version ∧ s'.Supplies kinds := by
  obtain ⟨t, q, hqueue⟩ := List.exists_cons_of_ne_nil h.nonempty
  obtain ⟨rest, hkinds, hpending⟩ := h.pending hqueue
  obtain ⟨-, rfl⟩ := List.cons.inj hkinds
  have hsteady := h.supplies.steady
  refine ⟨_, gives_modify, rfl, ⟨hsteady.indent, hsteady.outer, hsteady.optional⟩, ?_⟩
  rw [hqueue]
  exact hpending

/-- A scan of a text supplies the mark of its start and then the tokens of the text. -/
theorem ready_start (version : Version) (hw : IsBlank false w) (h : Spells [] true kinds r) :
    Ready (Scan.start version (w ++ r)) (.textStart :: kinds) where
  supplies :=
    ⟨⟨rfl, rfl, by simp [Scan.start]⟩,
      .reading (s := Scan.start version (w ++ r)) rfl rfl hw h⟩
  nonempty := by simp [Scan.start]
  certain _ := rfl

end ScanM

end DesignTokens.Yaml
