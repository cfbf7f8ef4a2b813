import DesignTokens.Proofs.Yaml.Property
import DesignTokens.Yaml.Lexeme.Scalar

/-!
# Readers of scalars go on in the text

Scalars of all kinds are read from the text at the cursor on, and stop behind it.  The only failure
without a place is that of an escape with eight digits, which may name a character that does not
exist.
-/

namespace DesignTokens.Yaml.Lexeme

open Cursor

variable {α : Type} {p : Prop} {c d : Cursor}

/-! ## Plain scalars -/

theorem before_plainBreaks {fuel : Nat} {done more : List Char} {ended : Bool}
    (h : plainBreaks fuel done c = (more, ended, d)) : c.Before d := by
  induction fuel generalizing done c with
  | zero =>
    obtain ⟨-, -, rfl⟩ : _ ∧ _ ∧ c = d := by simpa [plainBreaks] using h
    exact .refl c
  | succ fuel ih =>
    unfold plainBreaks at h
    split at h
    · exact (before_step c).trans (ih h)
    · split at h
      · rename_i hbreak
        split at h
        · obtain ⟨-, -, rfl⟩ : _ ∧ _ ∧ _ = d := by simpa using h
          exact before_of_lineBreak? hbreak
        · exact (before_of_lineBreak? hbreak).trans (ih h)
      · obtain ⟨-, -, rfl⟩ : _ ∧ _ ∧ c = d := by simpa using h
        exact .refl c

theorem before_plainGap (c : Cursor) : c.Before (plainGap c).after := by
  unfold plainGap
  split
  rename_i hrun
  have hblanks := before_takeRun hrun
  split
  · exact hblanks
  · rename_i hbreak
    have hfirst := hblanks.trans (before_of_lineBreak? hbreak)
    split
    · exact hfirst
    · split <;> exact hfirst.trans (before_plainBreaks ‹_›)

/-- The runs of a plain scalar lie behind its start, and so does the place where it stops. -/
theorem behind_plainRuns (setting : Setting) (fuel : Nat) (gap : List Char) {scalar : PlainScalar}
    (hd : c.Before d) (hstop : c.Reaches scalar.stop) :
    c.Before (plainRuns setting fuel gap scalar d).2 ∧
      c.Reaches (plainRuns setting fuel gap scalar d).1.stop := by
  induction fuel generalizing gap scalar d with
  | zero => exact ⟨hd, hstop⟩
  | succ fuel ih =>
    unfold plainRuns
    extract_lets run d' between scalar' e
    have hrun : c.Before d' := hd.trans (before_advance _ d)
    have he : c.Before e := hrun.trans (before_plainGap d')
    split
    · exact ⟨hd, hstop⟩
    · split
      · exact ⟨he, hrun.reaches⟩
      · exact ih _ he hrun.reaches

theorem behind_plainScalar (setting : Setting) (c : Cursor) :
    c.Before (plainScalar setting c).2 ∧ c.Reaches (plainScalar setting c).1.stop :=
  behind_plainRuns setting _ [] (.refl c) (Before.refl c).reaches

/-! ## Quoted scalars -/

/-- A number with a few digits is below a power of the base. -/
theorem hexNumber_lt (digits : List Char) : hexNumber digits < Nat.pow 16 digits.length := by
  have hdigit : ∀ ch, (Numeral.digitIn? 16 ch).getD 0 < 16 := by
    intro ch
    cases h : Numeral.digitIn? 16 ch with
    | none => simp
    | some d => simpa using (Option.filter_eq_some_iff.mp h).2
  have key : ∀ (digits : List Char) (n : Nat),
      digits.foldl (fun n ch => n * 16 + (Numeral.digitIn? 16 ch).getD 0) n <
        (n + 1) * 16 ^ digits.length := by
    intro digits
    induction digits with
    | nil => simp
    | cons ch digits ih =>
      intro n
      have hstep := ih (n * 16 + (Numeral.digitIn? 16 ch).getD 0)
      have hle : (n * 16 + (Numeral.digitIn? 16 ch).getD 0 + 1) * 16 ^ digits.length ≤
          (n + 1) * 16 * 16 ^ digits.length :=
        Nat.mul_le_mul_right _ (by have := hdigit ch; omega)
      rw [List.foldl_cons, List.length_cons, Nat.pow_succ, Nat.mul_comm (16 ^ _), ← Nat.mul_assoc]
      exact Nat.lt_of_lt_of_le hstep hle
  simpa [hexNumber] using key digits 0

theorem goesOn_quotedBreaks (fuel : Nat) (done : List Char) (c : Cursor) :
    GoesOn p c (quotedBreaks fuel done c) := by
  induction fuel generalizing done c with
  | zero => exact goesOn_ok (.refl c)
  | succ fuel ih =>
    unfold quotedBreaks
    split
    · exact goesOn_fail _ (.refl c)
    · extract_lets d
      have hd : c.Before d := before_skipWhile _ c
      split
      · exact (ih _ _).after (hd.trans (before_of_lineBreak? ‹_›))
      · exact goesOn_ok hd

/-- What opens an escape with eight digits. -/
def longEscape : List Char := ['\\', 'U']

/-- With up to four digits an escape stands for a code that exists. -/
theorem goesOn_numericEscape (width : Nat) (c : Cursor) :
    GoesOn (4 < width) c (numericEscape width c) := by
  unfold numericEscape
  split
  · exact goesOn_fail _ (.refl c)
  · extract_lets code d
    have hd : c.Before d := before_advance width c
    -- four digits do not reach beyond the last code
    have hwidth : 0x110000 ≤ code → 4 < width := by
      intro hcode
      refine Decidable.byContradiction fun hle => ?_
      have hpow : (16 : Nat) ^ (c.rest.take width).length ≤ 16 ^ 4 :=
        Nat.pow_le_pow_right (by decide) (by simp; omega)
      have hlt : code < 16 ^ (c.rest.take width).length := hexNumber_lt _
      omega
    split
    · rename_i hlarge
      exact .inr ⟨hwidth (Nat.le_trans (by decide) hlarge), ⟨_⟩⟩
    · split
      · exact .inr ⟨hwidth ‹_›, ⟨_⟩⟩
      · split
        · split
          · exact goesOn_ok (hd.trans (before_advance 6 d))
          · exact goesOn_ok hd
        · split <;> exact goesOn_ok hd

theorem eq_of_escapeWidth? {ch : Char} {width : Nat} (h : escapeWidth? ch = some width)
    (hwidth : 4 < width) : ch = 'U' := by
  unfold escapeWidth? at h
  split at h
  · simp at h; omega
  · split at h
    · simp at h; omega
    · split at h
      · assumption
      · simp at h

/-- An escape may only fail without a place when it has eight digits. -/
theorem goesOn_quotedEscape {c : Cursor} (hc : c.peek = some '\\') :
    GoesOn (longEscape <+: c.rest) c (quotedEscape c) := by
  unfold quotedEscape
  extract_lets d
  have hd : c.Before d := before_step c
  split
  · exact goesOn_fail _ hd
  · rename_i ch hch
    have hlong : ch = 'U' → longEscape <+: c.rest := by
      rintro rfl
      rw [rest_of_peek hc, ← rest_step, rest_of_peek hch]
      exact ⟨_, rfl⟩
    split
    · exact goesOn_ok (hd.trans (before_step d))
    · rename_i width _ hwidth
      have hnumeric := ((goesOn_numericEscape width d.step).imp fun h =>
        hlong (eq_of_escapeWidth? hwidth h)).after (hd.trans (before_step d))
      split
      · exact goesOn_ok (hnumeric.before ‹_›)
      · exact hnumeric.error ‹_›
    · split
      · exact (goesOn_quotedBreaks _ _ _).after (hd.trans (before_skipBreak d))
      · exact goesOn_fail _ hd

theorem goesOn_quotedGap (c : Cursor) : GoesOn p c (quotedGap c) := by
  unfold quotedGap
  split
  rename_i hrun
  have hblanks := before_takeRun hrun
  split
  · exact goesOn_fail _ hblanks
  · split
    · exact goesOn_ok hblanks
    · rename_i d hbreak
      have hbreaks := (goesOn_quotedBreaks (p := p) (d.left + 1) [] d).after
        (hblanks.trans (before_of_lineBreak? hbreak))
      split
      · exact goesOn_ok (hbreaks.before ‹_›)
      · exact hbreaks.error ‹_›

theorem goesOn_quotedChars (double : Bool) (fuel : Nat) (done : List Char) (c : Cursor) :
    GoesOn (longEscape <:+: c.rest) c (quotedChars double fuel done c) := by
  induction fuel generalizing done c with
  | zero => exact goesOn_fail _ (.refl c)
  | succ fuel ih =>
    -- what follows a later place follows an earlier one
    have hlater : ∀ {d : Cursor} (done : List Char), c.Before d →
        GoesOn (longEscape <:+: c.rest) c (quotedChars double fuel done d) := fun done hd =>
      ((ih done _).imp fun h => h.trans hd.rest_suffix.isInfix).after hd
    unfold quotedChars
    split
    · exact goesOn_fail _ (.refl c)
    · rename_i ch hpeek
      split
      · split
        exact hlater _ (before_takeRun ‹_›)
      · split
        · exact hlater _ (before_advance 2 c)
        · generalize (if double then '"' else Text.apostrophe) = closing
          split
          · exact goesOn_ok (before_step c)
          · split
            · exact hlater _ (before_step c)
            · have hanswer : GoesOn (longEscape <:+: c.rest) c
                  (if ch = '\\' then quotedEscape c else quotedGap c) := by
                split
                · exact (goesOn_quotedEscape (by simp [*])).imp List.IsPrefix.isInfix
                · exact goesOn_quotedGap c
              split
              · exact hlater _ (hanswer.before ‹_›)
              · exact hanswer.error ‹_›

theorem goesOn_quotedScalar (double : Bool) (c : Cursor) :
    GoesOn (longEscape <:+: c.rest) c (quotedScalar double c) := by
  have hchars := ((goesOn_quotedChars double (c.left + 1) [] c.step).imp fun h =>
    h.trans (before_step c).rest_suffix.isInfix).after (before_step c)
  unfold quotedScalar
  split
  · exact goesOn_ok (hchars.before ‹_›)
  · exact hchars.error ‹_›

/-! ## Block scalars -/

theorem before_chompingMark? {chomping : Chomping} (h : chompingMark? c = some (chomping, d)) :
    c.Before d := by
  unfold chompingMark? at h
  split at h
  · obtain ⟨-, rfl⟩ := Prod.mk.inj (Option.some.inj h)
    exact before_step c
  · split at h
    · obtain ⟨-, rfl⟩ := Prod.mk.inj (Option.some.inj h)
      exact before_step c
    · simp at h

theorem goesOn_incrementMark? (c : Cursor) : GoesOn p c (incrementMark? c) := by
  unfold incrementMark?
  split
  · split
    · exact goesOn_fail _ (.refl c)
    · split
      · exact goesOn_ok (before_step c)
      · exact goesOn_ok (.refl c)
  · exact goesOn_ok (.refl c)

theorem goesOn_blockHeader (c : Cursor) : GoesOn p c (blockHeader c) := by
  unfold blockHeader
  extract_lets answer
  -- the marks for chomping and for the indentation stand in either order
  have hanswer : GoesOn p c answer := by
    unfold answer
    split
    · rename_i d hchomping
      have hd := before_chompingMark? hchomping
      have hincrement := (goesOn_incrementMark? (p := p) d).after hd
      split
      · exact goesOn_ok (hincrement.before ‹_›)
      · exact hincrement.error ‹_›
    · have hincrement := goesOn_incrementMark? (p := p) c
      split
      · exact hincrement.error ‹_›
      · exact goesOn_ok (hincrement.before ‹_›)
      · rename_i hd
        split
        · exact goesOn_ok ((hincrement.before hd).trans (before_chompingMark? ‹_›))
        · exact goesOn_ok (hincrement.before hd)
  clear_value answer
  split
  · exact hanswer.error rfl
  · split
    · exact hanswer
    · exact goesOn_fail _ (hanswer.before rfl)

theorem behind_leadingLines (fuel : Nat) (lines : LeadingLines) (hd : c.Before d)
    (hstop : c.Reaches lines.stop) :
    c.Before (leadingLines fuel lines d).2 ∧ c.Reaches (leadingLines fuel lines d).1.stop := by
  induction fuel generalizing lines d with
  | zero => exact ⟨hd, hstop⟩
  | succ fuel ih =>
    unfold leadingLines
    split
    · exact ih _ (hd.trans (before_step d)) hstop
    · split
      · have he := hd.trans (before_of_lineBreak? ‹_›)
        exact ih _ he he.reaches
      · exact ⟨hd, hstop⟩

theorem before_skipIndent (indent : Nat) (c : Cursor) : c.Before (skipIndent indent c) :=
  before_advance _ c

theorem behind_blockBreaks (indent fuel : Nat) (done : List Char) {stop : Mark} (hd : c.Before d)
    (hstop : c.Reaches stop) :
    c.Before (blockBreaks indent fuel done stop d).2.2 ∧
      c.Reaches (blockBreaks indent fuel done stop d).2.1 := by
  induction fuel generalizing done stop d with
  | zero => exact ⟨hd, hstop⟩
  | succ fuel ih =>
    unfold blockBreaks
    extract_lets e
    have he : c.Before e := hd.trans (before_skipIndent indent d)
    split
    · have hbreak := he.trans (before_of_lineBreak? ‹_›)
      exact ih _ hbreak hbreak.reaches
    · exact ⟨he, hstop⟩

theorem behind_blankLines (indent : Nat) (hd : c.Before d) :
    c.Before (blankLines indent d).2.2 ∧ c.Reaches (blankLines indent d).2.1 :=
  behind_blockBreaks indent _ _ hd hd.reaches

theorem behind_blockLines (folded watch : Bool) (indent fuel : Nat) (lines : BlockLines)
    (hd : c.Before d) (hstop : c.Reaches lines.stop) :
    c.Before (blockLines folded watch indent fuel lines d).2 ∧
      c.Reaches (blockLines folded watch indent fuel lines d).1.stop := by
  induction fuel generalizing lines d with
  | zero => exact ⟨hd, hstop⟩
  | succ fuel ih =>
    unfold blockLines
    split
    · exact ⟨hd, hstop⟩
    · extract_lets startsDark
      split
      rename_i run d' hrun
      extract_lets text
      split
      rename_i lineBreak e hbreak
      have he : c.Before e := by
        refine hd.trans ((before_takeRun hrun).trans ?_)
        split at hbreak
        · exact (Prod.mk.inj hbreak).2 ▸ before_of_lineBreak? ‹_›
        · exact (Prod.mk.inj hbreak).2 ▸ .refl d'
      split
      rename_i breaks stop f hblank
      -- the mark of the end is that of the last line with text, not that of the cursor
      obtain ⟨hf, hlast⟩ : c.Before f ∧ c.Reaches stop := by
        have hlines := behind_blankLines indent he
        rwa [hblank] at hlines
      extract_lets lines joint
      split
      · exact ⟨hf, hlast⟩
      · split
        · exact ⟨hf, hlast⟩
        · exact ih _ hf hlast

/-- A block scalar goes on in the text, and stops behind its start. -/
theorem behind_blockScalar (folded : Bool) (setting : Setting) (c : Cursor) :
    GoesOn p c (blockScalar folded setting c) ∧ ∀ text stop d,
      blockScalar folded setting c = .ok ((text, stop), d) → c.Reaches stop := by
  have hheader := (goesOn_blockHeader (p := p) c.step).after (before_step c)
  unfold blockScalar
  split
  · exact ⟨hheader.error ‹_›, by simp⟩
  · rename_i header d hd
    split
    · exact ⟨.inl ((hasPlace_of_restOfLine ‹_›).after (hheader.before hd)), by simp⟩
    · rename_i e hrest
      have he := (hheader.before hd).trans (before_of_restOfLine hrest)
      extract_lets outer start
      have hstart : GoesOn p c (start.map fun r => (r.1, r.2.2.2)) ∧
          ∀ r, start = .ok r → c.Reaches r.2.2.1.2 := by
        -- without an indentation in the header the first line of the text fixes it
        unfold start
        split
        · split
          rename_i lead f hlead
          obtain ⟨hf, hstop⟩ : c.Before f ∧ c.Reaches lead.stop := by
            have hlines := behind_leadingLines (e.left + 1) ⟨[], none, 0, e.mark⟩ he
              he.reaches
            rwa [hlead] at hlines
          split
          · exact ⟨goesOn_fail _ hf, by simp [fail]⟩
          · exact ⟨goesOn_ok hf, by rintro _ ⟨⟩; exact hstop⟩
        · obtain ⟨hf, hstop⟩ := behind_blankLines (max 1 outer + _ - 1) he
          exact ⟨goesOn_ok hf, by rintro _ ⟨⟩; exact hstop⟩
      clear_value start
      split
      · exact ⟨hstart.1.error rfl, by simp⟩
      · rename_i watch indent first f
        split
        rename_i lines g hlines
        have hblock := behind_blockLines folded watch indent (f.left + 1)
          ⟨[], none, first.1, first.2⟩ hstart.1 (hstart.2 _ rfl)
        rw [hlines] at hblock
        refine ⟨goesOn_ok hblock.1, ?_⟩
        rintro _ _ _ ⟨⟩
        exact hblock.2

end DesignTokens.Yaml.Lexeme
