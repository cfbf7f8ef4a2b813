import DesignTokens.Yaml.Lexeme.Property

/-!
# Readers go on in the text

The place after a lexeme is some characters behind the place where it starts (`Lexeme.GoesOn`), and
so are the places of the failures of readers.  Among anchors, tags and directives there is one
failure without a place: the number of a version may have more digits than a number can have.
-/

namespace DesignTokens.Yaml

/-! ## Places one after the other -/

namespace Cursor

/-- A place that some characters lie before, or none. -/
def Before (c d : Cursor) : Prop := ∃ n, d = c.advance n

theorem Before.refl (c : Cursor) : c.Before c := ⟨0, rfl⟩

theorem advance_add (m n : Nat) (c : Cursor) : c.advance (m + n) = (c.advance m).advance n := by
  induction m generalizing c with
  | zero => rw [Nat.zero_add, advance]
  | succ m ih => rw [Nat.succ_add, advance, advance, ih]

theorem Before.trans {c d e : Cursor} (h : c.Before d) (h' : d.Before e) : c.Before e := by
  obtain ⟨m, rfl⟩ := h
  obtain ⟨n, rfl⟩ := h'
  exact ⟨m + n, (advance_add m n c).symm⟩

theorem before_advance (n : Nat) (c : Cursor) : c.Before (c.advance n) := ⟨n, rfl⟩

theorem before_step (c : Cursor) : c.Before c.step := ⟨1, rfl⟩

theorem before_skipWhile (p : Char → Bool) (c : Cursor) : c.Before (c.skipWhile p) :=
  before_advance _ c

theorem before_skipLine (c : Cursor) : c.Before c.skipLine := before_skipWhile _ c

/-- A line break is one character or two. -/
theorem before_of_lineBreak? {c d : Cursor} {b : Char} (h : c.lineBreak? = some (b, d)) :
    c.Before d := by
  unfold lineBreak? at h
  split at h
  · simp at h
  · split at h
    · obtain ⟨-, rfl⟩ := Prod.mk.inj (Option.some.inj h)
      exact before_advance 2 c
    · split at h
      · obtain ⟨-, rfl⟩ := Prod.mk.inj (Option.some.inj h)
        exact before_step c
      · split at h
        · obtain ⟨-, rfl⟩ := Prod.mk.inj (Option.some.inj h)
          exact before_step c
        · simp at h

theorem before_skipBreak (c : Cursor) : c.Before c.skipBreak := by
  unfold skipBreak
  split
  · exact before_of_lineBreak? ‹_›
  · exact .refl c

/-- The text from a later place on ends the text from an earlier one on. -/
theorem Before.rest_suffix {c d : Cursor} (h : c.Before d) : d.rest <:+ c.rest := by
  obtain ⟨n, rfl⟩ := h
  rw [rest_advance]
  exact List.drop_suffix n c.rest

theorem Before.mem_rest {c d : Cursor} (h : c.Before d) {ch : Char} (hch : ch ∈ d.rest) :
    ch ∈ c.rest :=
  h.rest_suffix.subset hch

theorem rest_of_peek {c : Cursor} {ch : Char} (h : c.peek = some ch) :
    c.rest = ch :: c.rest.tail := by
  obtain ⟨r, hr⟩ := List.head?_eq_some_iff.mp h
  rw [hr, List.tail_cons]

theorem peek_of_sees {c : Cursor} {ch : Char} (h : c.sees ch = true) : c.peek = some ch := by
  simpa [sees] using h

theorem mem_rest_of_peek {c : Cursor} {ch : Char} (h : c.peek = some ch) : ch ∈ c.rest :=
  List.mem_of_mem_head? h

/-- A mark of a place that some characters lie before, or none. -/
def Reaches (c : Cursor) (m : Mark) : Prop := ∃ d, c.Before d ∧ d.mark = m

theorem Before.reaches {c d : Cursor} (h : c.Before d) : c.Reaches d.mark := ⟨d, h, rfl⟩

/-- What a later place reaches, an earlier one does. -/
theorem Reaches.after {c d : Cursor} {m : Mark} (h : d.Reaches m) (hd : c.Before d) :
    c.Reaches m := by
  obtain ⟨e, he, rfl⟩ := h
  exact (hd.trans he).reaches

end Cursor

/-! ## Answers of readers -/

/-- The part of a tag in which escapes are left. -/
def TagText.suffix : TagText → String
  | .verbatim tag => tag
  | .shorthand _ suffix => suffix

/-- A failure with a place that a cursor reaches. -/
inductive Failure.HasPlace (c : Cursor) : Failure → Prop where
  | intro (problem : Problem) {mark : Mark} (h : c.Reaches mark) :
      HasPlace c (.problem problem mark)

/-- A failure without a place. -/
inductive Failure.IsFault : Failure → Prop where
  | intro (fault : Fault) : IsFault (.fault fault)

theorem Failure.HasPlace.after {c d : Cursor} {e : Failure} (h : e.HasPlace d) (hd : c.Before d) :
    e.HasPlace c := by
  obtain ⟨problem, hmark⟩ := h
  exact ⟨problem, hmark.after hd⟩

namespace Lexeme

open Cursor

variable {α : Type} {p q : Prop} {c d : Cursor}

/-- A reader at a place goes on in the text from there, or its failure has a place there; where `p`
holds, it may also fail without a place. -/
def GoesOn (p : Prop) (c : Cursor) : Result α → Prop
  | .ok (_, d) => c.Before d
  | .error e => e.HasPlace c ∨ p ∧ e.IsFault

theorem goesOn_ok {a : α} (h : c.Before d) : GoesOn p c (.ok (a, d) : Result α) := h

theorem goesOn_fail (problem : Problem) (h : c.Before d) :
    GoesOn p c (fail problem d : Result α) :=
  .inl ⟨problem, h.reaches⟩

theorem GoesOn.before {r : Result α} (h : GoesOn p c r) {a : α} (hr : r = .ok (a, d)) :
    c.Before d := by
  subst hr
  exact h

theorem GoesOn.failure {r : Result α} (h : GoesOn p c r) {e : Failure} (hr : r = .error e) :
    e.HasPlace c ∨ p ∧ e.IsFault := by
  subst hr
  exact h

/-- A failure that is passed on. -/
theorem GoesOn.error {β : Type} {r : Result α} (h : GoesOn p c r) {e : Failure}
    (hr : r = .error e) : GoesOn p c (.error e : Result β) :=
  h.failure hr

/-- A reader that goes on from a later place goes on from an earlier one. -/
theorem GoesOn.after {r : Result α} (h : GoesOn p d r) (hd : c.Before d) : GoesOn p c r := by
  match r, h with
  | .ok _, h => exact hd.trans h
  | .error _, h => exact h.imp_left fun h => h.after hd

theorem GoesOn.imp {r : Result α} (h : GoesOn p c r) (himp : p → q) : GoesOn q c r := by
  match r, h with
  | .ok _, h => exact h
  | .error _, h => exact h.imp_right (And.imp_left himp)

/-! ## Anchors and parts of tags -/

theorem before_takeRun {f : Char → Bool} {run : List Char} (h : takeRun f c = (run, d)) :
    c.Before d := by
  obtain ⟨-, rfl⟩ := Prod.mk.inj h
  exact before_skipWhile f c

theorem before_skipBlanks (c : Cursor) : c.Before (skipBlanks c) := before_skipWhile _ c

/-- The rest of a line is blanks, a comment and a line break, each of which may be missing. -/
theorem restOfLine_spec (c : Cursor) :
    (∃ d, restOfLine c = .ok d ∧ c.Before d) ∨ ∃ e, restOfLine c = .error e ∧ e.HasPlace c := by
  have hcomment : c.Before (if (skipBlanks c).sees '#' then (skipBlanks c).skipLine
      else skipBlanks c) := by
    refine (before_skipBlanks c).trans ?_
    split
    · exact before_skipLine _
    · exact .refl _
  unfold restOfLine
  dsimp only
  generalize (if (skipBlanks c).sees '#' then _ else _) = d at hcomment ⊢
  split
  · exact .inl ⟨_, rfl, hcomment.trans (before_skipBreak d)⟩
  · exact .inr ⟨_, rfl, _, hcomment.reaches⟩

theorem before_of_restOfLine (h : restOfLine c = .ok d) : c.Before d := by
  obtain ⟨e, he, hbefore⟩ | ⟨e, he, -⟩ := restOfLine_spec c
  · obtain rfl := Except.ok.inj (he.symm.trans h)
    exact hbefore
  · simp [he] at h

theorem hasPlace_of_restOfLine {e : Failure} (h : restOfLine c = .error e) : e.HasPlace c := by
  obtain ⟨d, hd, -⟩ | ⟨f, hf, hplace⟩ := restOfLine_spec c
  · simp [hd] at h
  · obtain rfl := Except.error.inj (hf.symm.trans h)
    exact hplace

theorem goesOn_anchorName (c : Cursor) : GoesOn p c (anchorName c) := by
  unfold anchorName
  split
  rename_i hrun
  have hname := (before_step c).trans (before_takeRun hrun)
  split
  · exact goesOn_fail _ hname
  · split
    · exact goesOn_ok hname
    · exact goesOn_fail _ hname

/-- The escapes of a text that cannot be decoded fail at the first of them. -/
theorem goesOn_tagEscapes (fuel : Nat) (bytes : List Nat) (h : c.Before d) :
    GoesOn p c (tagEscapes c fuel bytes d) := by
  induction fuel generalizing bytes d with
  | zero => exact goesOn_ok h
  | succ fuel ih =>
    have hstep := h.trans (before_step d)
    unfold tagEscapes
    split
    · split
      · exact goesOn_fail _ hstep
      · split
        · exact goesOn_fail _ hstep
        · exact ih _ (h.trans (before_advance 3 d))
    · split <;> exact goesOn_fail _ hstep
    · split
      · exact goesOn_ok h
      · exact goesOn_fail _ (.refl c)

theorem goesOn_tagChars (version : Version) (fuel : Nat) (done : List Char) (c : Cursor) :
    GoesOn p c (tagChars version fuel done c) := by
  induction fuel generalizing done c with
  | zero => exact goesOn_ok (.refl c)
  | succ fuel ih =>
    unfold tagChars
    split
    · have hescapes := goesOn_tagEscapes (p := p) (c.left + 1) [] (.refl c)
      split
      · exact (ih _ _).after (hescapes.before ‹_›)
      · exact hescapes.error ‹_›
    · split
      rename_i hrun
      split
      · exact goesOn_ok (.refl c)
      · exact (ih _ _).after (before_takeRun hrun)

theorem goesOn_tagText (version : Version) (c : Cursor) : GoesOn p c (tagText version c) := by
  have hchars := goesOn_tagChars (p := p) version (c.left + 1) [] c
  unfold tagText
  split
  · exact hchars.error ‹_›
  · exact goesOn_fail _ (hchars.before ‹_›)
  · exact goesOn_ok (hchars.before ‹_›)

theorem goesOn_tagHandle (c : Cursor) : GoesOn p c (tagHandle c) := by
  unfold tagHandle
  split
  · exact goesOn_fail _ (.refl c)
  · split
    · exact goesOn_ok (before_step c)
    · split
      rename_i hrun
      have hname := (before_step c).trans (before_takeRun hrun)
      split
      · exact goesOn_ok (hname.trans (before_step _))
      · exact goesOn_fail _ hname

/-- Of two marks a tag takes the second one for its first. -/
theorem tagStart_spec {short : String}
    (h : (if c.peekAt 1 = some '!' then ("!!", c.step) else ("!", c)) = (short, d)) :
    '%' ∉ short.toList ∧ c.Before d := by
  split at h
  · obtain ⟨rfl, rfl⟩ := Prod.mk.inj h
    exact ⟨by decide, before_step c⟩
  · obtain ⟨rfl, rfl⟩ := Prod.mk.inj h
    exact ⟨by decide, .refl c⟩

theorem goesOn_tagStart (short : String) (c : Cursor) :
    GoesOn p c (if hasSecondMark (c.rest.drop 1) then tagHandle c else .ok (short, c.step)) := by
  split
  · exact goesOn_tagHandle c
  · exact goesOn_ok (before_step c)

/-! ## Tags and the escapes in them -/

/-- The characters of a tag have no percent sign when the text has none. -/
theorem not_mem_of_tagChars {version : Version} {fuel : Nat} {done text : List Char}
    (h : tagChars version fuel done c = .ok (text, d)) (hc : '%' ∉ c.rest) (hdone : '%' ∉ done) :
    '%' ∉ text := by
  induction fuel generalizing done c with
  | zero =>
    obtain ⟨rfl, -⟩ := Prod.mk.inj (Except.ok.inj h)
    simpa using hdone
  | succ fuel ih =>
    unfold tagChars at h
    split at h
    · -- no escape starts here
      rename_i hsees
      exact absurd (mem_rest_of_peek (peek_of_sees hsees)) hc
    · split at h
      rename_i run e hrun
      split at h
      · obtain ⟨rfl, -⟩ := Prod.mk.inj (Except.ok.inj h)
        simpa using hdone
      · have he := before_takeRun hrun
        obtain ⟨rfl, -⟩ := Prod.mk.inj hrun
        refine ih h (fun hin => hc (he.mem_rest hin)) fun hin => ?_
        rcases List.mem_append.mp hin with hin | hin
        · exact hc ((List.takeWhile_prefix _).subset (List.mem_reverse.mp hin))
        · exact hdone hin

theorem not_mem_of_tagText {version : Version} {text : String}
    (h : tagText version c = .ok (text, d)) (hc : '%' ∉ c.rest) : '%' ∉ text.toList := by
  unfold tagText at h
  split at h
  · simp at h
  · simp [fail] at h
  · rename_i hchars
    obtain ⟨rfl, -⟩ := Prod.mk.inj (Except.ok.inj h)
    simpa using not_mem_of_tagChars hchars hc (by simp)

/-- What a tag at a place is read to: it goes on in the text from there, and has no percent sign
when the text has none. -/
def TagFrom (c : Cursor) : Result TagText → Prop
  | .ok (t, d) => c.Before d ∧ ('%' ∉ c.rest → '%' ∉ t.suffix.toList)
  | .error e => e.HasPlace c

theorem tagText_spec {version : Version} {text : String} {e : Cursor}
    (h : tagText version d = .ok (text, e)) (hd : c.Before d) :
    c.Before e ∧ ('%' ∉ c.rest → '%' ∉ text.toList) :=
  ⟨hd.trans ((goesOn_tagText (p := False) version d).before h),
    fun hc => not_mem_of_tagText h fun hin => hc (hd.mem_rest hin)⟩

theorem tagFrom_tag (version : Version) (c : Cursor) : TagFrom c (tag version c) := by
  have htext {d : Cursor} (hd : c.Before d) {e : Failure} (h : tagText version d = .error e) :
      e.HasPlace c :=
    (((goesOn_tagText version d).failure h).resolve_right And.left).after hd
  unfold tag
  split
  rename_i short d hstart
  obtain ⟨hshort, hd⟩ := tagStart_spec hstart
  extract_lets handle answer
  have hhandle : GoesOn False c handle := (goesOn_tagStart short d).after hd
  clear_value handle
  -- a tag is verbatim, or a mark of its own, or a handle with a suffix
  have hanswer : TagFrom c answer := by
    unfold answer
    split
    · have hopen := hd.trans (before_advance 2 d)
      split
      · exact htext hopen ‹_›
      · obtain ⟨he, hsuffix⟩ := tagText_spec ‹_› hopen
        split
        · exact ⟨he.trans (before_step _), hsuffix⟩
        · exact ⟨_, he.reaches⟩
    · split
      · exact ⟨hd.trans (before_step d), fun _ => hshort⟩
      · split
        · exact (hhandle.failure rfl).resolve_right And.left
        · split
          · exact htext (hhandle.before rfl) ‹_›
          · exact tagText_spec ‹_› (hhandle.before rfl)
  clear_value answer
  split
  · exact hanswer
  · split
    · exact hanswer
    · exact ⟨_, hanswer.1.reaches⟩

theorem goesOn_tag (version : Version) (c : Cursor) : GoesOn p c (tag version c) := by
  have h := tagFrom_tag version c
  match tag version c, h with
  | .ok _, h => exact h.1
  | .error _, h => exact .inl h

theorem not_mem_of_tag {version : Version} {t : TagText} (h : tag version c = .ok (t, d))
    (hc : '%' ∉ c.rest) : '%' ∉ t.suffix.toList := by
  have hfrom := tagFrom_tag version c
  rw [h] at hfrom
  exact hfrom.2 hc

/-- Only a percent sign can make a tag unreadable. -/
theorem exists_unescapeSuffix {s : List Char} (h : '%' ∉ s) : ∃ t, unescapeSuffix s = some t := by
  induction s with
  | nil => exact ⟨[], rfl⟩
  | cons ch s ih =>
    rw [List.mem_cons, not_or] at h
    obtain ⟨hne, hs⟩ := h
    obtain ⟨t, ht⟩ := ih hs
    refine ⟨ch :: t, ?_⟩
    unfold unescapeSuffix
    rw [if_pos (Ne.symm hne), ht, Option.map_some]

/-! ## Directives -/

theorem goesOn_directiveName (c : Cursor) : GoesOn p c (directiveName c) := by
  unfold directiveName
  split
  rename_i hrun
  have hname := before_takeRun hrun
  split
  · exact goesOn_fail _ hname
  · split
    · exact goesOn_ok hname
    · exact goesOn_fail _ hname

/-- The name of a directive stands at the start. -/
theorem prefix_of_directiveName {name : List Char} (h : directiveName c = .ok (name, d)) :
    name <+: c.rest := by
  unfold directiveName at h
  split at h
  rename_i hrun
  obtain ⟨rfl, rfl⟩ := Prod.mk.inj hrun
  split at h
  · simp [fail] at h
  · split at h
    · obtain ⟨rfl, -⟩ := Prod.mk.inj (Except.ok.inj h)
      exact List.takeWhile_prefix _
    · simp [fail] at h

/-- A number may have too many digits. -/
theorem goesOn_versionNumber (c : Cursor) : GoesOn True c (versionNumber c) := by
  unfold versionNumber
  split
  rename_i hrun
  split
  · exact goesOn_fail _ (.refl c)
  · split
    · exact goesOn_ok (before_takeRun hrun)
    · exact .inr ⟨trivial, ⟨_⟩⟩

theorem goesOn_versionNumbers (c : Cursor) : GoesOn True c (versionNumbers c) := by
  have hmajor := (goesOn_versionNumber (skipBlanks c)).after (before_skipBlanks c)
  unfold versionNumbers
  split
  · exact hmajor.error ‹_›
  · rename_i d hd
    split
    · exact goesOn_fail _ (hmajor.before hd)
    · have hminor := (goesOn_versionNumber d.step).after
        ((hmajor.before hd).trans (before_step d))
      split
      · exact hminor.error ‹_›
      · rename_i he
        split
        · exact goesOn_ok (hminor.before he)
        · exact goesOn_fail _ (hminor.before he)

theorem goesOn_handleDeclaration (version : Version) (c : Cursor) :
    GoesOn p c (handleDeclaration version c) := by
  have hhandle := (goesOn_tagHandle (p := p) (skipBlanks c)).after (before_skipBlanks c)
  unfold handleDeclaration
  split
  · exact hhandle.error ‹_›
  · rename_i d hd
    split
    · exact goesOn_fail _ (hhandle.before hd)
    · have htext := (goesOn_tagText (p := p) version (skipBlanks d)).after
        ((hhandle.before hd).trans (before_skipBlanks d))
      split
      · exact htext.error ‹_›
      · rename_i he
        split
        · exact goesOn_ok (htext.before he)
        · exact goesOn_fail _ (htext.before he)

/-- What declares a version of the language starts so. -/
def versionMark : List Char := '%' :: "YAML".toList

/-- The number of a version can only fail without a place where one is declared. -/
theorem goesOn_directive (version : Version) {c : Cursor} (hc : c.peek = some '%') :
    GoesOn (versionMark <+: c.rest) c (directive version c) := by
  have hname := (goesOn_directiveName (p := versionMark <+: c.rest) c.step).after
    (before_step c)
  unfold directive
  split
  · exact hname.error ‹_›
  · rename_i name d hd
    have hprefix := prefix_of_directiveName hd
    split
    · rename_i hversion
      have hopens : versionMark <+: c.rest := by
        rw [rest_of_peek hc, ← rest_step]
        exact List.cons_prefix_cons.mpr ⟨rfl, hversion ▸ hprefix⟩
      have hnumbers := ((goesOn_versionNumbers d).imp fun _ => hopens).after (hname.before hd)
      split
      · exact hnumbers.error ‹_›
      · exact goesOn_ok (hnumbers.before ‹_›)
    · split
      · exact (goesOn_handleDeclaration version d).after (hname.before hd)
      · exact goesOn_ok ((hname.before hd).trans (before_skipLine d))

/-- A version comes from a directive of that name. -/
theorem versionMark_of_directive {version : Version} (hc : c.peek = some '%') {major minor : Nat}
    (h : directive version c = .ok (.version major minor, d)) : versionMark <+: c.rest := by
  unfold directive at h
  split at h
  · simp at h
  · rename_i name e he
    split at h
    · rename_i hversion
      rw [rest_of_peek hc, ← rest_step]
      exact List.cons_prefix_cons.mpr ⟨rfl, hversion ▸ prefix_of_directiveName he⟩
    · split at h
      · exact absurd h (by
          unfold handleDeclaration
          split
          · simp
          · split
            · simp [fail]
            · split
              · simp
              · split <;> simp [fail])
      · simp at h

end Lexeme

end DesignTokens.Yaml
