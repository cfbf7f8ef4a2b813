import DesignTokens.Proofs.Json.Portable
import DesignTokens.Proofs.Yaml.Flow
import DesignTokens.Proofs.Yaml.Scalar

/-!
# Strings of JSON as quoted scalars

A string of JSON goes character by character and a quoted scalar of YAML run by run.  `Quotes` takes
a quoted scalar apart into characters, so that a portable string is read as the same text
(`isQuoted_of_readString`).
-/

namespace DesignTokens.Json

open Yaml Yaml.Cursor Yaml.Lexeme

/-! ## Hexadecimal digits -/

theorem mem_of_hexValue? {c : Char} {v : Nat} (h : hexValue? c = some v) :
    c ∈ "0123456789abcdefABCDEF".toList := by
  have hrange : 48 ≤ c.toNat ∧ c.toNat ≤ 57 ∨ 97 ≤ c.toNat ∧ c.toNat ≤ 102 ∨
      65 ≤ c.toNat ∧ c.toNat ≤ 70 := by
    unfold hexValue? at h
    simp only [Char.isDigit_iff_toNat, Bool.and_eq_true, decide_eq_true_eq, Char.le_def,
      UInt32.le_iff_toNat_le] at h
    split at h
    · exact .inl ‹_›
    · split at h
      · exact .inr (.inl ‹_›)
      · split at h
        · exact .inr (.inr ‹_›)
        · cases h
  have hall : ∀ n < 103, 48 ≤ n ∧ n ≤ 57 ∨ 97 ≤ n ∧ n ≤ 102 ∨ 65 ≤ n ∧ n ≤ 70 →
      Char.ofNat n ∈ "0123456789abcdefABCDEF".toList := by decide
  rw [← Char.ofNat_toNat c]
  exact hall c.toNat (by omega) hrange

theorem isHexDigit_of_hexValue? {c : Char} {v : Nat} (h : hexValue? c = some v) :
    isHexDigit c = true ∧ Numeral.digitIn? 16 c = some v := by
  have hall : ∀ c ∈ "0123456789abcdefABCDEF".toList,
      isHexDigit c = true ∧ Numeral.digitIn? 16 c = hexValue? c :=
    forall_mem_of_all (by decide)
  rw [← h]
  exact hall c (mem_of_hexValue? h)

/-- The digits of an escape, as both readers take them. -/
structure IsUnit (q r : List Char) (unit : Nat) : Prop where
  length : q.length = 4
  digits : ∀ d ∈ q, isHexDigit d = true
  first : firstNonHex 4 (q ++ r) = none
  number : hexNumber q = unit

/-- Four hexadecimal digits stand for the same number in both languages. -/
theorem exists_unit {s r : List Char} {n : Nat} (h : hexQuad? s = some (n, r)) :
    ∃ q, s = q ++ r ∧ IsUnit q r n := by
  unfold hexQuad? at h
  split at h
  · rename_i a b c d t
    simp only [Option.bind_eq_bind, Option.bind_eq_some_iff, Option.some.injEq,
      Prod.mk.injEq] at h
    obtain ⟨a', ha, b', hb, c', hc, d', hd, rfl, rfl⟩ := h
    obtain ⟨ha, ha'⟩ := isHexDigit_of_hexValue? ha
    obtain ⟨hb, hb'⟩ := isHexDigit_of_hexValue? hb
    obtain ⟨hc, hc'⟩ := isHexDigit_of_hexValue? hc
    obtain ⟨hd, hd'⟩ := isHexDigit_of_hexValue? hd
    exact ⟨[a, b, c, d], rfl, rfl, by simp [ha, hb, hc, hd], by simp [firstNonHex, ha, hb, hc, hd],
      by simp [hexNumber, ha', hb', hc', hd']⟩
  · cases h

/-! ## Escapes with digits -/

variable {c : Cursor} {q s r t : List Char} {ch : Char} {unit low : Nat}

theorem IsUnit.lt (h : IsUnit q r unit) : unit < 65536 := by
  have hlt := hexNumber_lt q
  rw [h.length, h.number] at hlt
  exact hlt

theorem IsUnit.take (h : IsUnit q r unit) : (q ++ r).take 4 = q := by
  rw [← h.length, List.take_left]

/-- Both readers know the same halves of pairs. -/
theorem isHighHalf_eq (n : Nat) : Lexeme.isHighHalf n = isHighHalf n := rfl

theorem isLowHalf_eq (n : Nat) : Lexeme.isLowHalf n = isLowHalf n := rfl

/-- The second half of a pair is an escape of its own. -/
theorem lowHalf?_eq (h : IsUnit q r low) :
    lowHalf? ('\\' :: 'u' :: (q ++ r)) = if isLowHalf low then some low else none := by
  simp [lowHalf?, h.first, h.take, h.number, isLowHalf_eq]

/-- What an escape stands for that is no first half of a pair. -/
theorem numericEscape_of_single (hrest : c.rest = q ++ r) (hunit : IsUnit q r unit)
    (hsingle : isHighHalf unit = true → lowHalf? r = none) :
    numericEscape 4 c = .ok (charOfUnit unit, c.advance q.length) := by
  have hlt := hunit.lt
  have hafter : (c.advance 4).rest = r := by rw [← hunit.length, rest_advance_append hrest]
  unfold numericEscape
  rw [hrest, hunit.first]
  dsimp only
  rw [hunit.take, hunit.number, hunit.length, if_neg (by simp; omega), if_neg (by omega), hafter,
    isHighHalf_eq, isLowHalf_eq]
  unfold charOfUnit
  cases hhigh : isHighHalf unit with
  | true => rw [hsingle hhigh]; rfl
  | false => cases isLowHalf unit <;> rfl

/-- Two halves of a pair are one character. -/
theorem numericEscape_of_pair {q' : List Char} (hrest : c.rest = q ++ '\\' :: 'u' :: (q' ++ r))
    (hunit : IsUnit q ('\\' :: 'u' :: (q' ++ r)) unit) (hlow : IsUnit q' r low)
    (hhigh : isHighHalf unit = true) (hhalf : isLowHalf low = true) :
    numericEscape 4 c = .ok (joinHalves unit low, c.advance (q ++ '\\' :: 'u' :: q').length) := by
  have hlt := hunit.lt
  have hafter : (c.advance 4).rest = '\\' :: 'u' :: (q' ++ r) := by
    rw [← hunit.length, rest_advance_append hrest]
  have hlength : (q ++ '\\' :: 'u' :: q').length = 4 + 6 := by
    simp [hunit.length, hlow.length]
  unfold numericEscape
  rw [hrest, hunit.first]
  dsimp only
  rw [hunit.take, hunit.number, if_neg (by simp; omega), if_neg (by omega), isHighHalf_eq,
    if_pos hhigh, hafter, lowHalf?_eq hlow, if_pos hhalf, hlength, advance_add]
  rfl

theorem isSeparator_class (h : isSeparator ch = true) : ch = Char.ofNat 0x2028 ∨ ch = Char.ofNat 0x2029 := by
  simp only [isSeparator, Bool.or_eq_true, decide_eq_true_eq] at h
  exact h.imp eq_ofNat eq_ofNat

/-- Digits stand for themselves whatever follows them. -/
theorem isPortable_digits {n : Nat} (hq : ∀ d ∈ q, isHexDigit d = true) :
    isPortable (.inside n) (q ++ r) = isPortable (.inside (n + q.length)) r := by
  induction q generalizing n with
  | nil => rfl
  | cons d q ih =>
    obtain ⟨hd, hq⟩ := List.forall_mem_cons.mp hq
    have hseparator : isSeparator d = false := by
      rw [Bool.eq_false_iff]
      intro h
      rcases isSeparator_class h with rfl | rfl <;> exact absurd hd (by decide)
    have hbreak : d.toNat ≠ 0x85 := fun h => by
      rw [eq_ofNat h] at hd
      exact absurd hd (by decide)
    have hkept : isKept d (q ++ r) = true := by
      rw [isKept, hseparator, if_neg (by decide), if_neg (ne_of_class hd (by decide))]
      exact decide_eq_true hbreak
    rw [List.cons_append, isPortable_inside (ne_of_class hd (by decide))
      (ne_of_class hd (by decide)), hkept, Bool.true_and, ih hq, List.length_cons,
      Nat.add_comm q.length, ← Nat.add_assoc]

/-- Digits that are an escape for a character in front of a rest: they stand on one line, they do
not keep the rest from being portable, and YAML reads them. -/
structure IsEscape (q r : List Char) (ch : Char) : Prop where
  line : ∀ d ∈ q, d ≠ '\n' ∧ d ≠ '\r'
  portable : ∀ n, isPortable (.inside n) (q ++ r) = true →
    isPortable (.inside (n + q.length)) r = true
  read : ∀ c : Cursor, c.rest = q ++ r → numericEscape 4 c = .ok (ch, c.advance q.length)

theorem IsUnit.line (h : IsUnit q r unit) : ∀ d ∈ q, d ≠ '\n' ∧ d ≠ '\r' := fun d hd =>
  ⟨ne_of_class (h.digits d hd) (by decide), ne_of_class (h.digits d hd) (by decide)⟩

theorem isEscape_single (hunit : IsUnit q r unit)
    (hsingle : isHighHalf unit = true → lowHalf? r = none) : IsEscape q r (charOfUnit unit) where
  line := hunit.line
  portable _ hportable := isPortable_digits hunit.digits ▸ hportable
  read _ hrest := numericEscape_of_single hrest hunit hsingle

theorem isEscape_pair {q' : List Char} (hunit : IsUnit q ('\\' :: 'u' :: (q' ++ r)) unit)
    (hlow : IsUnit q' r low) (hhigh : isHighHalf unit = true) (hhalf : isLowHalf low = true) :
    IsEscape (q ++ '\\' :: 'u' :: q') r (joinHalves unit low) where
  line d hd := by
    simp only [List.mem_append, List.mem_cons] at hd
    rcases hd with hd | rfl | rfl | hd
    · exact hunit.line d hd
    · decide
    · decide
    · exact hlow.line d hd
  portable n hportable := by
    rw [List.append_assoc, List.cons_append, List.cons_append, isPortable_digits hunit.digits,
      isPortable_escape, isPortable_digits hlow.digits] at hportable
    rw [show n + (q ++ '\\' :: 'u' :: q').length = n + q.length + 2 + q'.length by
      simp only [List.length_append, List.length_cons]; omega]
    exact hportable
  read c hrest := numericEscape_of_pair (by simpa using hrest) hunit hlow hhigh hhalf

/-- An escape of JSON is one of YAML.  JSON takes two halves for a pair only when something follows
the second one. -/
theorem exists_escape (h : readUnicodeEscape s = .ok (ch, t))
    (hnext : ∀ u, t = '\\' :: 'u' :: u → (u.drop 4).isEmpty = false) :
    ∃ q, s = q ++ t ∧ IsEscape q t ch := by
  unfold readUnicodeEscape at h
  split at h
  · cases h
  cases hquad : hexQuad? s with
  | none => simp [hquad, fail] at h
  | some p =>
    obtain ⟨unit, rest⟩ := p
    simp only [hquad] at h
    obtain ⟨q, rfl, hunit⟩ := exists_unit hquad
    have hsingle (hlow : isHighHalf unit = true → lowHalf? rest = none)
        (h : (.ok (charOfUnit unit, rest) : Result Char) = .ok (ch, t)) :
        ∃ q', q ++ rest = q' ++ t ∧ IsEscape q' t ch := by
      obtain ⟨rfl, rfl⟩ := Prod.mk.inj (Except.ok.inj h)
      exact ⟨q, rfl, isEscape_single hunit hlow⟩
    split at h
    · rename_i t' _
      by_cases hpair : (isHighHalf unit && !(t'.drop 4).isEmpty) = true
      · rw [if_pos hpair] at h
        have hhigh : isHighHalf unit = true := (Bool.and_eq_true_iff.mp hpair).1
        cases hquad' : hexQuad? t' with
        | none => simp [hquad', fail] at h
        | some p =>
          obtain ⟨low, after⟩ := p
          simp only [hquad'] at h
          obtain ⟨q', rfl, hlow⟩ := exists_unit hquad'
          by_cases hhalf : isLowHalf low = true
          · rw [if_pos hhalf] at h
            obtain ⟨rfl, rfl⟩ := Prod.mk.inj (Except.ok.inj h)
            exact ⟨q ++ '\\' :: 'u' :: q', by simp, isEscape_pair hunit hlow hhigh hhalf⟩
          · rw [if_neg hhalf] at h
            exact hsingle (fun _ => by rw [lowHalf?_eq hlow, if_neg hhalf]) h
      · rw [if_neg hpair] at h
        refine hsingle (fun hhigh => ?_) h
        -- a first half is followed by more than the digits of an escape
        obtain ⟨-, rfl⟩ := Prod.mk.inj (Except.ok.inj h)
        simp [hhigh, hnext t' rfl] at hpair
    · rename_i hnot
      refine hsingle (fun _ => ?_) h
      unfold lowHalf?
      split
      · exact absurd rfl (hnot _)
      · rfl

/-! ## Quoted scalars by characters -/

/-- From a place between double quotation marks a quoted scalar goes on with a text, up to the place
after the closing mark. -/
def Quotes (c : Cursor) (body : List Char) (d : Cursor) : Prop :=
  ∀ fuel done, c.left < fuel → quotedChars true fuel done c = .ok (done.reverse ++ body, d)

variable {d e : Cursor} {body : List Char}

theorem peek_eq (h : c.rest = ch :: r) : c.peek = some ch := by
  rw [Cursor.peek, h]
  rfl

theorem step_left_lt (h : c.rest = ch :: r) : c.step.left < c.left :=
  left_advance_lt (s := [ch]) h (by simp)

theorem quotes_close (h : c.rest = '"' :: r) : Quotes c [] c.step := by
  intro fuel done hfuel
  cases fuel with
  | zero => omega
  | succ fuel =>
    rw [quotedChars, peek_eq h]
    simp [isPlainQuoted]

theorem quotedChars_plain {fuel : Nat} {done : List Char} (h : c.rest = ch :: r)
    (hplain : isPlainQuoted ch = true) :
    quotedChars true (fuel + 1) done c =
      quotedChars true fuel ((c.rest.takeWhile isPlainQuoted).reverse ++ done)
        (c.skipWhile isPlainQuoted) := by
  rw [quotedChars, peek_eq h]
  simp only [hplain, ↓reduceIte]
  rfl

theorem Quotes.plain (h : c.rest = ch :: r) (hplain : isPlainQuoted ch = true)
    (hnext : Quotes c.step body d) : Quotes c (ch :: body) d := by
  intro fuel done hfuel
  have hlt := step_left_lt h
  have hstep : c.step.rest = r := by rw [rest_step, h, List.tail_cons]
  cases fuel with
  | zero => omega
  | succ fuel =>
    rw [quotedChars_plain h hplain, skipWhile, h, List.takeWhile_cons_of_pos hplain]
    cases r with
    | nil => 
      have := hnext fuel (ch :: done) (by omega)
      simpa [Cursor.advance] using this
    | cons ch' r =>
      by_cases hplain' : isPlainQuoted ch' = true
      · have := hnext (fuel + 1) (ch :: done) (by omega)
        rw [quotedChars_plain hstep hplain', skipWhile, hstep] at this
        simpa [Cursor.advance] using this
      · rw [List.takeWhile_cons_of_neg hplain']
        have := hnext fuel (ch :: done) (by omega)
        simpa [Cursor.advance] using this

theorem Quotes.apostrophe (h : c.rest = Text.apostrophe :: r) (hnext : Quotes c.step body d) :
    Quotes c (Text.apostrophe :: body) d := by
  intro fuel done hfuel
  have hlt := step_left_lt h
  cases fuel with
  | zero => omega
  | succ fuel =>
    have := hnext fuel (Text.apostrophe :: done) (by omega)
    rw [quotedChars, peek_eq h]
    simpa [isPlainQuoted, Text.apostrophe] using this

theorem Quotes.escape (h : c.rest = '\\' :: r) (hread : quotedEscape c = .ok ([ch], e))
    (hlt : e.left < c.left) (hnext : Quotes e body d) : Quotes c (ch :: body) d := by
  intro fuel done hfuel
  cases fuel with
  | zero => omega
  | succ fuel =>
    have := hnext fuel (ch :: done) (by omega)
    rw [quotedChars, peek_eq h]
    simpa [isPlainQuoted, Text.apostrophe, hread] using this

/-- Blanks and tabs between quotation marks. -/
def isGapChar (ch : Char) : Bool := ch = ' ' || ch = '\t'

theorem quotedGap_eq (c : Cursor) : quotedGap c =
    match (c.skipWhile isGapChar).rest with
    | [] => Lexeme.fail .unexpectedEnd (c.skipWhile isGapChar)
    | _ :: _ =>
      match (c.skipWhile isGapChar).lineBreak? with
      | none => .ok (c.rest.takeWhile isGapChar, c.skipWhile isGapChar)
      | some (b, e) =>
        match quotedBreaks (e.left + 1) [] e with
        | .ok (more, e) => .ok (foldBreaks b more, e)
        | .error e => .error e := rfl

theorem quotedChars_gap {fuel : Nat} {done : List Char} (h : c.rest = ch :: r)
    (hgap : isGapChar ch = true ∨ isBreak ch = true) :
    quotedChars true (fuel + 1) done c =
      match quotedGap c with
      | .ok (text, d) => quotedChars true fuel (text.reverse ++ done) d
      | .error e => .error e := by
  have hplain : isPlainQuoted ch = false := by
    simp only [isPlainQuoted, isGapChar, Bool.or_eq_true, decide_eq_true_eq] at hgap ⊢
    rcases hgap with (rfl | rfl) | hbreak
    · rfl
    · rfl
    · simp [hbreak]
  have hne (q : Char) (hq : isGapChar q = false ∧ isBreak q = false) : ch ≠ q := by
    rintro rfl
    simp [hq] at hgap
  rw [quotedChars, peek_eq h]
  cases quotedGap c <;>
    simp [hplain, hne '"' (by decide), hne '\\' (by decide), hne Text.apostrophe (by decide)]

/-- Blanks stand for themselves unless a line break follows them. -/
theorem Quotes.gap (h : c.rest = ch :: r) (hgap : isGapChar ch = true)
    (hline : (c.skipWhile isGapChar).lineBreak? = none) (hnext : Quotes c.step body d) :
    Quotes c (ch :: body) d := by
  intro fuel done hfuel
  have hlt := step_left_lt h
  have hstep : c.step.rest = r := by rw [rest_step, h, List.tail_cons]
  have hskip : c.skipWhile isGapChar = c.step.skipWhile isGapChar := by
    rw [skipWhile, h, List.takeWhile_cons_of_pos hgap, skipWhile, hstep]
    rfl
  cases fuel with
  | zero => omega
  | succ fuel =>
    rw [quotedChars_gap h (.inl hgap), quotedGap_eq, hline, hskip, h,
      List.takeWhile_cons_of_pos hgap]
    cases r with
    | nil =>
      -- the text does not end between quotation marks
      have := hnext (fuel + 1) done (by omega)
      rw [quotedChars, Cursor.peek, hstep] at this
      cases this
    | cons ch' r =>
      by_cases hgap' : isGapChar ch' = true
      · have := hnext (fuel + 1) (ch :: done) (by omega)
        rw [quotedChars_gap hstep (.inl hgap'), quotedGap_eq, ← hskip, hline, hskip, hstep] at this
        cases hrest : (c.step.skipWhile isGapChar).rest with
        | nil =>
          rw [hrest] at this
          cases this
        | cons ch'' r' =>
          rw [hrest] at this
          simpa using this
      · have := hnext fuel (ch :: done) (by omega)
        have hself : c.step.skipWhile isGapChar = c.step := by
          rw [skipWhile, hstep, List.takeWhile_cons_of_neg hgap']
          rfl
        rw [hself, hstep, List.takeWhile_cons_of_neg hgap']
        simpa using this

theorem quotedBreaks_done (fuel : Nat) (done : List Char) (c : Cursor) :
    quotedBreaks fuel done c = (quotedBreaks fuel [] c).map fun p => (done.reverse ++ p.1, p.2) := by
  induction fuel generalizing done c with
  | zero => simp [quotedBreaks, Except.map]
  | succ fuel ih =>
    rw [quotedBreaks, quotedBreaks]
    split
    · rfl
    · dsimp only
      split
      · rename_i b e _
        rw [ih (b :: done), ih [b]]
        cases quotedBreaks fuel [] e with
        | error => rfl
        | ok p => simp [Except.map]
      · simp [Except.map]

theorem lineBreak?_of_separator (h : c.rest = ch :: r) (hch : isSeparator ch = true) :
    c.lineBreak? = some (ch, c.step) := by
  unfold Cursor.lineBreak?
  rw [h]
  rcases isSeparator_class hch with rfl | rfl <;> rfl

theorem skipWhile_gap_eq_self (h : ∀ ch ∈ c.rest.head?, isGapChar ch = false) :
    c.skipWhile isGapChar = c :=
  skipWhile_eq (s := []) rfl (by simp) h

/-- What a gap is that starts with a separator. -/
theorem quotedGap_of_separator (h : c.rest = ch :: r) (hch : isSeparator ch = true) :
    quotedGap c = (quotedBreaks (c.step.left + 1) [] c.step).map fun p => (ch :: p.1, p.2) := by
  have hself : c.skipWhile isGapChar = c := skipWhile_gap_eq_self (by
    rw [h]
    rintro _ ⟨⟩
    rcases isSeparator_class hch with rfl | rfl <;> rfl)
  have hfold (more : List Char) : foldBreaks ch more = ch :: more := by
    rw [foldBreaks, if_pos]
    rcases isSeparator_class hch with rfl | rfl <;> decide
  rw [quotedGap_eq, hself, lineBreak?_of_separator h hch, h]
  simp only [hfold]
  cases quotedBreaks (c.step.left + 1) [] c.step <;> rfl

/-- A separator stands for itself unless blanks or a mark between documents follow it. -/
theorem Quotes.separator (h : c.rest = ch :: r) (hch : isSeparator ch = true)
    (hword : c.step.atSeparator = false)
    (hr : ∀ ch' ∈ r.head?, isGapChar ch' = false ∧ (isBreak ch' = true → isSeparator ch' = true))
    (hnext : Quotes c.step body d) : Quotes c (ch :: body) d := by
  intro fuel done hfuel
  have hlt := step_left_lt h
  have hstep : c.step.rest = r := by rw [rest_step, h, List.tail_cons]
  have hbreak (ch : Char) (hch : isSeparator ch = true) : isBreak ch = true := by
    rcases isSeparator_class hch with rfl | rfl <;> rfl
  have hself : c.step.skipWhile isGapChar = c.step :=
    skipWhile_gap_eq_self (by rw [hstep]; exact fun ch' hch' => (hr ch' hch').1)
  cases fuel with
  | zero => omega
  | succ fuel =>
    rw [quotedChars_gap h (.inr (hbreak ch hch)), quotedGap_of_separator h hch, quotedBreaks,
      if_neg (by simp [hword]), show (c.step.skipWhile fun ch => decide (ch = ' ') ||
        decide (ch = '\t')) = c.step from hself]
    by_cases hmore : ∃ ch' r', r = ch' :: r' ∧ isSeparator ch' = true
    · -- separators next to each other are one gap
      obtain ⟨ch', r', rfl, hch'⟩ := hmore
      have := hnext (fuel + 1) (ch :: done) (by omega)
      rw [quotedChars_gap hstep (.inr (hbreak ch' hch')), quotedGap_of_separator hstep hch'] at this
      have hleft : c.step.left = c.step.step.left + 1 := by
        rw [c.step.left_eq, c.step.step.left_eq, rest_step c.step, hstep]
        rfl
      dsimp only
      rw [lineBreak?_of_separator hstep hch', hleft]
      dsimp only
      rw [quotedBreaks_done]
      cases hbreaks : quotedBreaks (c.step.step.left + 1) [] c.step.step with
      | error e =>
        rw [hbreaks] at this
        cases this
      | ok p =>
        rw [hbreaks] at this
        simpa [Except.map] using this
    · have hnone : c.step.lineBreak? = none := lineBreak?_of_not_isBreak (by
        rw [hstep]
        intro ch' hch'
        cases hbreak' : isBreak ch' with
        | false => rfl
        | true =>
          obtain ⟨r', rfl⟩ : ∃ r', r = ch' :: r' := List.head?_eq_some_iff.mp hch'
          exact absurd ⟨ch', r', rfl, (hr ch' hch').2 hbreak'⟩ hmore)
      have := hnext fuel (ch :: done) (by omega)
      dsimp only
      rw [hnone]
      simpa [Except.map] using this

/-! ## Strings -/

/-- A text has certain characters up to a closing quotation mark, and `r` after it. -/
inductive Characters : (s body r : List Char) → Prop where
  | close {r : List Char} : Characters ('"' :: r) [] r
  | unicode {ch : Char} {t u body r : List Char} : readUnicodeEscape t = .ok (ch, u) →
      Characters u body r → Characters ('\\' :: 'u' :: t) (ch :: body) r
  | escape {e ch : Char} {t body r : List Char} : escaped? e = some ch → Characters t body r →
      Characters ('\\' :: e :: t) (ch :: body) r
  | char {ch : Char} {t body r : List Char} : ch ≠ '"' → ch ≠ '\\' → 32 ≤ ch.toNat →
      Characters t body r → Characters (ch :: t) (ch :: body) r

theorem characters_of_readStringWithin {start : List Char} {fuel : Nat} {done : List Char}
    {text : String} (h : readStringWithin start fuel done s = .ok (text, r)) :
    ∃ body, text = String.ofList (done.reverse ++ body) ∧ Characters s body r := by
  induction fuel generalizing done s with
  | zero => cases h
  | succ fuel ih =>
    unfold readStringWithin at h
    split at h
    · cases h
    · obtain ⟨rfl, rfl⟩ := Prod.mk.inj (Except.ok.inj h)
      exact ⟨[], by simp, .close⟩
    · split at h
      · cases h
      · split at h
        · cases h
        · rename_i ch u hread
          obtain ⟨body, rfl, hbody⟩ := ih h
          exact ⟨ch :: body, by simp, .unicode hread hbody⟩
      · split at h
        · rename_i ch hread
          obtain ⟨body, rfl, hbody⟩ := ih h
          exact ⟨ch :: body, by simp, .escape hread hbody⟩
        · cases h
    · rename_i hquote hescape
      split at h
      · cases h
      · obtain ⟨body, rfl, hbody⟩ := ih h
        exact ⟨_, by simp, .char hquote hescape (by omega) hbody⟩

/-- The characters of an escape with a single letter are the same in both languages. -/
theorem escaped?_eq {e : Char} (h : escaped? e = some ch) :
    Lexeme.escaped? e = some ch ∧ e ≠ '\n' ∧ e ≠ '\r' ∧ e ≠ 'u' := by
  unfold escaped? at h
  split at h <;> first
    | (obtain rfl := Option.some.inj h; decide)
    | cases h

namespace Characters

variable {n : Nat}

/-- What a character that stands for itself in a string of JSON is kept by. -/
theorem portable_char {t : List Char} (hquote : ch ≠ '"') (hescape : ch ≠ '\\')
    (h : isPortable (.inside n) (ch :: t) = true) :
    isKept ch t = true ∧ isPortable (.inside (n + 1)) t = true := by
  rw [isPortable_inside hquote hescape] at h
  exact Bool.and_eq_true_iff.mp h

/-- No tab and no line break other than a separator stands in a string. -/
theorem head (h : Characters s body r) (hportable : isPortable (.inside n) s = true) :
    ∀ ch ∈ s.head?, ch ≠ '\t' ∧ (isBreak ch = true → isSeparator ch = true) := by
  cases h with
  | close => simp [isBreak]
  | unicode | escape => simp [isBreak]
  | @char ch t body r hquote hescape hcontrol h =>
    obtain ⟨hkept, -⟩ := portable_char hquote hescape hportable
    rintro _ ⟨⟩
    refine ⟨by rintro rfl; simp at hcontrol, fun hbreak => ?_⟩
    rcases isBreak_cases hbreak with rfl | rfl | rfl | rfl | rfl
    · simp at hcontrol
    · simp at hcontrol
    · simp [isKept, isSeparator] at hkept
    · rfl
    · rfl

/-- After blanks in a string no line break follows. -/
theorem head_after_blanks (h : Characters s body r) (hportable : isPortable (.inside n) s = true)
    (hblank : s.head? = some ' ') :
    ∀ ch ∈ (s.dropWhile isGapChar).head?, isBreak ch = false := by
  -- blanks are passed over one by one
  induction h generalizing n with
  | close | unicode | escape => simp at hblank
  | @char ch t body r hquote hescape hcontrol h ih =>
    obtain rfl : ch = ' ' := by simpa using hblank
    obtain ⟨hkept, hportable⟩ := portable_char hquote hescape hportable
    rw [List.dropWhile_cons_of_pos (by rfl)]
    have hhead := h.head hportable
    cases t with
    | nil => simp
    | cons ch' t =>
      obtain ⟨htab, hbreak⟩ := hhead ch' rfl
      by_cases hblank' : ch' = ' '
      · exact ih hportable (by rw [hblank']; rfl)
      · rw [List.dropWhile_cons_of_neg (by simp [isGapChar, htab, hblank'])]
        rintro _ ⟨⟩
        have hseparator : isSeparator ch' = false := by simpa [isKept, isSeparator] using hkept
        cases hbreak' : isBreak ch' with
        | false => rfl
        | true =>
          rw [hbreak hbreak'] at hseparator
          cases hseparator

/-- An escape with digits that comes next is not cut off. -/
theorem next_unicode (h : Characters s body r) :
    ∀ u, s = '\\' :: 'u' :: u → (u.drop 4).isEmpty = false := by
  rintro u rfl
  cases h with
  | @unicode ch t u body r hread h =>
    unfold readUnicodeEscape at hread
    split at hread
    · cases hread
    · rename_i hlong
      simpa using hlong
  | escape hread => cases hread
  | char _ hescape => exact absurd rfl hescape

theorem quotedEscape_unicode (hrest : c.rest = '\\' :: 'u' :: t)
    (hread : numericEscape 4 (c.advance 2) = .ok (ch, e)) : quotedEscape c = .ok ([ch], e) := by
  have hstep : c.step.rest = 'u' :: t := by rw [rest_step, hrest, List.tail_cons]
  have hread' : numericEscape 4 c.step.step = .ok (ch, e) := hread
  unfold quotedEscape
  simp only [peek_eq hstep, show Lexeme.escaped? 'u' = none by decide,
    show escapeWidth? 'u' = some 4 by decide, hread']

theorem quotedEscape_letter {l : Char} (hrest : c.rest = '\\' :: l :: t)
    (hread : Lexeme.escaped? l = some ch) : quotedEscape c = .ok ([ch], c.advance 2) := by
  have hstep : c.step.rest = l :: t := by rw [rest_step, hrest, List.tail_cons]
  unfold quotedEscape
  simp only [peek_eq hstep, hread]
  rfl

/-- A character of a string that stands for itself does so in YAML too. -/
theorem quotes_char (h : Characters t body r) (hquote : ch ≠ '"') (hescape : ch ≠ '\\')
    (hcontrol : 32 ≤ ch.toNat) (hportable : isPortable (.inside n) (ch :: t) = true)
    (hrest : c.rest = ch :: t) (hnext : Quotes c.step body d) : Quotes c (ch :: body) d := by
  have hstep : c.step.rest = t := by rw [rest_step, hrest, List.tail_cons]
  have hall : Characters (ch :: t) (ch :: body) r := .char hquote hescape hcontrol h
  obtain ⟨hkept, hportable'⟩ := portable_char hquote hescape hportable
  -- only a blank, a separator and an apostrophe end a run of plain characters
  by_cases hblank : ch = ' '
  · subst hblank
    refine .gap hrest rfl (lineBreak?_of_not_isBreak ?_) hnext
    rw [rest_skipWhile, hrest]
    exact hall.head_after_blanks hportable rfl
  by_cases hseparator : isSeparator ch = true
  · rw [isKept, if_pos hseparator, Bool.and_eq_true, decide_eq_true_eq] at hkept
    obtain ⟨hblank', hword⟩ := hkept
    refine .separator hrest hseparator ?_ (fun ch' hch' => ?_) hnext
    · have : c.step.atSeparator = (Cursor.start t).atSeparator := by
        unfold Cursor.atSeparator Cursor.atTriple Cursor.peekAt
        rw [hstep]
        rfl
      rw [this]
      simpa using hword
    · obtain ⟨htab, hbreak⟩ := h.head hportable' ch' hch'
      have hblank'' : ch' ≠ ' ' := by
        rintro rfl
        exact hblank' hch'
      exact ⟨by simp [isGapChar, htab, hblank''], hbreak⟩
  by_cases hmark : ch = Text.apostrophe
  · subst hmark
    exact .apostrophe hrest hnext
  · have hhead := hall.head hportable ch rfl
    refine .plain hrest ?_ hnext
    have hbreak : isBreak ch = false := by
      rw [Bool.eq_false_iff]
      exact fun hbreak => hseparator (hhead.2 hbreak)
    simp [isPlainQuoted, hblank, hhead.1, hquote, hmark, hescape, hbreak]

/-- A portable string is read as the same characters in YAML. -/
theorem quotes (h : Characters s body r) (hportable : isPortable (.inside n) s = true) :
    ∃ raw, s = raw ++ r ∧ (∀ ch ∈ raw, ch ≠ '\n' ∧ ch ≠ '\r') ∧
      isPortable (.outside (some (n + raw.length))) r = true ∧
      ∀ c : Cursor, c.rest = s → Quotes c body (c.advance raw.length) := by
  -- the length goes along, because a string that is a key must not be too long
  induction h generalizing n with
  | @close r =>
    exact ⟨['"'], rfl, by simp, by simpa using hportable, fun c hc => quotes_close hc⟩
  | @unicode ch t u body r hread h ih =>
    rw [isPortable_escape] at hportable
    obtain ⟨q, rfl, hescape⟩ := exists_escape hread h.next_unicode
    obtain ⟨raw, rfl, hline, hportable', hquotes⟩ := ih (hescape.portable _ hportable)
    refine ⟨'\\' :: 'u' :: q ++ raw, by simp, ?_, ?_, fun c hc => ?_⟩
    · simp only [List.cons_append, List.mem_cons, List.mem_append]
      rintro d (rfl | rfl | hd | hd)
      · decide
      · decide
      · exact hescape.line d hd
      · exact hline d hd
    · rw [show n + ('\\' :: 'u' :: q ++ raw).length = n + 2 + q.length + raw.length by
        simp only [List.length_append, List.length_cons]; omega]
      exact hportable'
    · have hc' : c.rest = '\\' :: 'u' :: q ++ (raw ++ r) := by simpa using hc
      have hlength : ('\\' :: 'u' :: q).length = 2 + q.length := by
        simp only [List.length_cons]
        omega
      have hnumber := hescape.read (c.advance 2) (rest_advance_append (s := ['\\', 'u']) hc')
      have hnext := hquotes (c.advance (2 + q.length)) (hlength ▸ rest_advance_append hc')
      rw [← advance_add] at hnumber hnext
      rw [List.length_append, hlength]
      exact .escape hc' (quotedEscape_unicode hc' hnumber)
        (hlength ▸ left_advance_lt hc' (by simp)) hnext
  | @escape l ch t body r hread h ih =>
    rw [isPortable_escape] at hportable
    obtain ⟨hyaml, hn, hr, -⟩ := escaped?_eq hread
    obtain ⟨raw, rfl, hline, hportable', hquotes⟩ := ih hportable
    refine ⟨'\\' :: l :: raw, rfl, ?_, ?_, fun c hc => ?_⟩
    · simpa [hn, hr] using hline
    · rw [show n + ('\\' :: l :: raw).length = n + 2 + raw.length by
        simp only [List.length_cons]; omega]
      exact hportable'
    · exact .escape hc (quotedEscape_letter hc hyaml)
        (left_advance_lt (s := ['\\', l]) hc (by simp))
        (hquotes (c.advance 2) (rest_advance_append (s := ['\\', l]) hc))
  | @char ch t body r hquote hescape hcontrol h ih =>
    obtain ⟨raw, rfl, hline, hportable', hquotes⟩ :=
      ih (portable_char hquote hescape hportable).2
    refine ⟨ch :: raw, rfl, ?_, ?_, fun c hc => ?_⟩
    · refine List.forall_mem_cons.mpr ⟨⟨?_, ?_⟩, hline⟩
      · rintro rfl
        simp at hcontrol
      · rintro rfl
        simp at hcontrol
    · rw [show n + (ch :: raw).length = n + 1 + raw.length by simp only [List.length_cons]; omega]
      exact hportable'
    · exact quotes_char h hquote hescape hcontrol hportable hc
        (hquotes c.step (by rw [rest_step, hc, List.tail_cons]))

end Characters

/-- A portable string that JSON reads is a quoted scalar with the same text. -/
theorem isQuoted_of_readString {fuel : Nat} {text : String} {since : Option Nat}
    (h : readString fuel s = .ok (text, r))
    (hportable : isPortable (.outside since) ('"' :: s) = true) :
    ∃ raw, '"' :: s = raw ++ r ∧ IsQuoted raw r text ∧
      isPortable (.outside (some raw.length)) r = true := by
  obtain ⟨body, rfl, hbody⟩ := characters_of_readStringWithin h
  rw [isPortable_quote] at hportable
  obtain ⟨raw, rfl, hline, hportable', hquotes⟩ := hbody.quotes hportable
  refine ⟨'"' :: raw, rfl, ⟨rfl, ?_, fun c hc => ?_⟩, ?_⟩
  · exact List.forall_mem_cons.mpr ⟨by decide, hline⟩
  · have hstep : c.step.rest = raw ++ r := by rw [rest_step, hc]; rfl
    have hleft : c.step.left < c.left := step_left_lt hc
    have hread := hquotes c.step hstep (c.left + 1) [] (by omega)
    unfold quotedScalar
    rw [hread]
    rfl
  · rw [List.length_cons, Nat.add_comm]
    exact hportable'

end DesignTokens.Json
