import DesignTokens.Json.Reader
import DesignTokens.Proofs.Number.Binary64
import DesignTokens.Proofs.Yaml.Plain
import DesignTokens.Yaml.Meaning

/-!
# Numbers of JSON as plain scalars

A number of JSON has a sign, digits, perhaps a part after the point and an exponent.  By these parts
both versions of YAML take it for the same number (`readScalar_of_readNumber`).
-/

namespace DesignTokens.Json

open Yaml

/-! ## Digits -/

theorem mem_of_isDigit {c : Char} (h : c.isDigit = true) : c ∈ "0123456789".toList := by
  have hall : ∀ n < 58, 48 ≤ n → Char.ofNat n ∈ "0123456789".toList := by decide
  obtain ⟨hlow, hhigh⟩ := Char.isDigit_iff_toNat.mp h
  rw [← Char.ofNat_toNat c]
  exact hall c.toNat (Nat.lt_succ_of_le hhigh) hlow

/-- A class that has all digits. -/
theorem of_isDigit {p : Char → Bool} (hp : "0123456789".toList.all p = true) {c : Char}
    (h : c.isDigit = true) : p c = true :=
  List.all_eq_true.mp hp c (mem_of_isDigit h)

/-- A run of digits. -/
structure IsDigits (s : List Char) : Prop where
  nonempty : s ≠ []
  digits : ∀ c ∈ s, c.isDigit = true

/-! ## Parts of numbers -/

/-- The parts of a number: the sign, the digits before the point, the point with the digits after
it, and the exponent. -/
structure IsNumber (sign whole part power : List Char) : Prop where
  signed : sign = [] ∨ sign = ['-']
  digits : IsDigits whole
  noLeadingZero : whole.head? = some '0' → whole = ['0']
  fraction : part = [] ∨ ∃ ds, part = '.' :: ds ∧ IsDigits ds
  exponent : power = [] ∨ ∃ e sg ds, power = e :: (sg ++ ds) ∧ (e = 'e' ∨ e = 'E') ∧
    (sg = [] ∨ sg = ['+'] ∨ sg = ['-']) ∧ IsDigits ds

variable {s r : List Char}

theorem spanDigits_spec {ds t : List Char} (h : spanDigits s = (ds, t)) :
    s = ds ++ t ∧ ∀ c ∈ ds, c.isDigit = true := by
  obtain ⟨rfl, rfl⟩ := Prod.mk.inj h
  exact ⟨List.takeWhile_append_dropWhile.symm, fun c hc => List.all_eq_true.mp List.all_takeWhile c hc⟩

theorem spanPart_spec {part t : List Char} (h : spanPart s = (part, t)) :
    s = part ++ t ∧ (part = [] ∨ ∃ ds, part = '.' :: ds ∧ IsDigits ds) := by
  unfold spanPart at h
  split at h
  · split at h
    · obtain ⟨rfl, rfl⟩ := Prod.mk.inj h
      exact ⟨rfl, .inl rfl⟩
    · rename_i hne hspan
      obtain ⟨rfl, rfl⟩ := Prod.mk.inj h
      obtain ⟨rfl, hdigits⟩ := spanDigits_spec hspan
      exact ⟨rfl, .inr ⟨_, rfl, hne, hdigits⟩⟩
  · obtain ⟨rfl, rfl⟩ := Prod.mk.inj h
    exact ⟨rfl, .inl rfl⟩

/-- The sign in front of the digits of an exponent. -/
theorem spanSign_spec (s : List Char) : ∃ sg u, s = sg ++ u ∧
    (sg = [] ∨ sg = ['+'] ∨ sg = ['-']) ∧ spanSign s = (sg, u) := by
  unfold spanSign
  split
  · exact ⟨_, _, rfl, .inr (.inl rfl), rfl⟩
  · exact ⟨_, _, rfl, .inr (.inr rfl), rfl⟩
  · exact ⟨_, _, rfl, .inl rfl, rfl⟩

theorem spanExponent_spec {power t : List Char} (h : spanExponent s = (power, t)) :
    s = power ++ t ∧ (power = [] ∨ ∃ e sg ds, power = e :: (sg ++ ds) ∧ (e = 'e' ∨ e = 'E') ∧
      (sg = [] ∨ sg = ['+'] ∨ sg = ['-']) ∧ IsDigits ds) := by
  unfold spanExponent at h
  split at h
  · obtain ⟨rfl, rfl⟩ := Prod.mk.inj h
    exact ⟨rfl, .inl rfl⟩
  · rename_i e r
    by_cases he : e = 'e' ∨ e = 'E'
    · obtain ⟨sg, u, rfl, hsg, hmatch⟩ := spanSign_spec r
      rw [if_pos he, hmatch] at h
      dsimp only at h
      split at h
      · obtain ⟨rfl, rfl⟩ := Prod.mk.inj h
        exact ⟨rfl, .inl rfl⟩
      · rename_i hne hspan
        obtain ⟨rfl, rfl⟩ := Prod.mk.inj h
        obtain ⟨rfl, hdigits⟩ := spanDigits_spec hspan
        exact ⟨by simp, .inr ⟨_, sg, _, rfl, he, hsg, hne, hdigits⟩⟩
    · rw [if_neg he] at h
      obtain ⟨rfl, rfl⟩ := Prod.mk.inj h
      exact ⟨rfl, .inl rfl⟩

/-- The sign in front of a number. -/
theorem spanMinus_spec (s : List Char) : ∃ sign u, s = sign ++ u ∧
    (sign = [] ∨ sign = ['-']) ∧ spanMinus s = (sign, u) := by
  unfold spanMinus
  split
  · exact ⟨_, _, rfl, .inr rfl, rfl⟩
  · exact ⟨_, _, rfl, .inl rfl, rfl⟩

/-- The digits in front of a point: a zero, or all digits up to it. -/
theorem spanWhole_spec (s : List Char) : ∃ whole u, s = whole ++ u ∧
    (∀ c ∈ whole, c.isDigit = true) ∧ (whole.head? = some '0' → whole = ['0']) ∧
    spanWhole s = (whole, u) := by
  unfold spanWhole
  split
  · exact ⟨_, _, rfl, by simp, fun _ => rfl, rfl⟩
  · rename_i hnot
    obtain ⟨hs, hdigits⟩ := spanDigits_spec (s := s) rfl
    refine ⟨_, _, hs, hdigits, fun hhead => ?_, rfl⟩
    obtain ⟨t, ht⟩ := List.head?_eq_some_iff.mp hhead
    rw [ht] at hs
    exact absurd hs (hnot _)

/-- What is read as a number. -/
theorem isNumber_of_readNumber {d : Data} (h : readNumber s = .ok (d, r)) :
    ∃ sign whole part power, IsNumber sign whole part power ∧
      s = sign ++ (whole ++ (part ++ (power ++ r))) ∧
      ((part = [] ∧ power = [] ∧ ∃ i, Numeral.int? 10 (sign ++ whole) = some i ∧ d = .int i) ∨
        (part ++ power ≠ [] ∧
          ∃ x, Numeral.float? (sign ++ whole ++ part ++ power) = some x ∧ d = .float x)) := by
  obtain ⟨sign, u, rfl, hsign, hminus⟩ := spanMinus_spec s
  obtain ⟨whole, v, rfl, hwhole, hzero, hspan⟩ := spanWhole_spec u
  obtain ⟨part, v', hpart⟩ : ∃ part v', spanPart v = (part, v') := ⟨_, _, rfl⟩
  obtain ⟨power, t, hpower⟩ : ∃ power t, spanExponent v' = (power, t) := ⟨_, _, rfl⟩
  obtain ⟨rfl, hfraction⟩ := spanPart_spec hpart
  obtain ⟨rfl, hexponent⟩ := spanExponent_spec hpower
  simp only [readNumber, hminus, hspan, hpart, hpower] at h
  split at h
  · cases h
  rename_i hne
  have hnumber : IsNumber sign whole part power :=
    ⟨hsign, ⟨by simpa using hne, hwhole⟩, hzero, hfraction, hexponent⟩
  split at h
  · rename_i hempty
    simp only [Bool.and_eq_true, List.isEmpty_iff] at hempty
    obtain ⟨rfl, rfl⟩ := hempty
    cases hint : Numeral.int? 10 (sign ++ whole) with
    | none =>
      rw [hint] at h
      cases h
    | some i =>
      rw [hint] at h
      obtain ⟨rfl, rfl⟩ := Prod.mk.inj (Except.ok.inj h)
      exact ⟨sign, whole, [], [], hnumber, rfl, .inl ⟨rfl, rfl, i, hint, rfl⟩⟩
  · rename_i hsome
    cases hfloat : Numeral.float? (sign ++ whole ++ part ++ power) with
    | none =>
      rw [hfloat] at h
      cases h
    | some x =>
      rw [hfloat] at h
      obtain ⟨rfl, rfl⟩ := Prod.mk.inj (Except.ok.inj h)
      refine ⟨sign, whole, part, power, hnumber, rfl, .inr ⟨?_, x, hfloat, rfl⟩⟩
      simpa [List.isEmpty_iff] using hsome

/-! ## Shapes of numbers -/

variable {sign whole part power u : List Char} {version : Version}

theorem IsDigits.eq_cons (h : IsDigits s) : ∃ c t, s = c :: t ∧ c.isDigit = true := by
  obtain ⟨c, t, rfl⟩ := List.exists_cons_of_ne_nil h.nonempty
  exact ⟨c, t, rfl, h.digits c List.mem_cons_self⟩

theorem isLooseDigit_of_isDigit {c : Char} (h : c.isDigit = true) : isLooseDigit c = true := by
  simp [isLooseDigit, h]

/-- The sign of a number and what follows it. -/
theorem splitSign_eq (hsign : sign = [] ∨ sign = ['-']) (hwhole : IsDigits whole) :
    Numeral.splitSign (sign ++ (whole ++ u)) = (decide (sign = ['-']), whole ++ u) := by
  obtain ⟨c, t, rfl, hc⟩ := hwhole.eq_cons
  rcases hsign with rfl | rfl
  · have hplus : c ≠ '+' := ne_of_class hc (by decide)
    have hminus : c ≠ '-' := ne_of_class hc (by decide)
    simp only [List.nil_append, List.cons_append, Numeral.splitSign]
    split
    · rename_i heq
      exact absurd (List.cons.inj heq).1 hminus
    · rename_i heq
      exact absurd (List.cons.inj heq).1 hplus
    · rfl
  · rfl

/-- Both readers take the same signs away. -/
theorem dropSign_eq_splitSign (s : List Char) : dropSign s = (Numeral.splitSign s).2 := by
  unfold dropSign Numeral.splitSign
  split
  · rfl
  · rfl
  · rename_i hplus hminus
    split
    · exact absurd rfl (hminus _)
    · exact absurd rfl (hplus _)
    · rfl

theorem dropSign_eq (hsign : sign = [] ∨ sign = ['-']) (hwhole : IsDigits whole) :
    dropSign (sign ++ (whole ++ u)) = whole ++ u := by
  rw [dropSign_eq_splitSign, splitSign_eq hsign hwhole]

theorem afterDigits?_eq (hwhole : IsDigits whole) (hu : ∀ c ∈ u.head?, isLooseDigit c = false) :
    afterDigits? (whole ++ u) = some u := by
  obtain ⟨c, t, rfl, hc⟩ := hwhole.eq_cons
  rw [List.cons_append, afterDigits?, if_pos hc, ← List.cons_append,
    dropWhile_append_eq (fun c hc => isLooseDigit_of_isDigit (hwhole.digits c hc)) hu]

/-- A character that a number starts with. -/
def StartsNumber (c : Char) : Prop := c = '-' ∨ c.isDigit = true

theorem StartsNumber.of_parts (hsign : sign = [] ∨ sign = ['-']) (hwhole : IsDigits whole) :
    ∃ c t, sign ++ (whole ++ u) = c :: t ∧ StartsNumber c := by
  obtain ⟨c, t, rfl, hc⟩ := hwhole.eq_cons
  rcases hsign with rfl | rfl
  · exact ⟨c, t ++ u, rfl, .inr hc⟩
  · exact ⟨'-', c :: (t ++ u), rfl, .inl rfl⟩

theorem StartsNumber.ne {c d : Char} (h : StartsNumber c) (hd : d ≠ '-' ∧ d.isDigit = false) :
    c ≠ d := by
  rintro rfl
  rcases h with h | h
  · exact hd.1 h
  · rw [hd.2] at h
    cases h

/-- No word for a truth value looks like a number. -/
theorem not_boolWord {c : Char} {t : List Char} (hc : StartsNumber c) :
    (boolWords version).any (fun w => decide (w.toList = c :: t)) = false := by
  have hall : (boolWords .v11).all (fun w =>
      w.toList.head?.all fun d => d ≠ '-' && !d.isDigit) = true := by decide
  have hsub : ∀ w ∈ boolWords version, w ∈ boolWords .v11 := by cases version <;> decide
  rw [List.any_eq_false]
  intro w hw heq
  have heq : w.toList = c :: t := by simpa using heq
  have hfirst := List.all_eq_true.mp hall w (hsub w hw)
  simp only [heq, List.head?_cons, Option.all_some, Bool.and_eq_true, decide_eq_true_eq,
    Bool.not_eq_true'] at hfirst
  exact hc.ne hfirst rfl

/-- No word for a number without digits looks like a number with digits. -/
theorem not_isWordFloat (hsign : sign = [] ∨ sign = ['-']) (hwhole : IsDigits whole) :
    isWordFloat (sign ++ (whole ++ u)) = false := by
  obtain ⟨c, t, hstart, hc⟩ := StartsNumber.of_parts (u := u) hsign hwhole
  obtain ⟨d, v, rfl, hd⟩ := hwhole.eq_cons
  have hd' : d ≠ '.' := ne_of_class hd (by decide)
  have hc' : c ≠ '.' := hc.ne (by decide)
  rw [isWordFloat, dropSign_eq hsign hwhole, hstart]
  simp [hd'.symm, hc'.symm]

/-! ## Characters of numbers -/

namespace IsNumber

/-- A number has digits, signs, points and letters of exponents only. -/
theorem mem_characters (h : IsNumber sign whole part power) :
    ∀ c ∈ sign ++ (whole ++ (part ++ power)), c ∈ "0123456789-+.eE".toList := by
  have hdigit {c : Char} (hc : c.isDigit = true) : c ∈ "0123456789-+.eE".toList :=
    List.mem_append_left "-+.eE".toList (mem_of_isDigit hc)
  intro c hc
  simp only [List.mem_append] at hc
  rcases hc with hc | hc | hc | hc
  · rcases h.signed with rfl | rfl
    · cases hc
    · obtain rfl := List.mem_singleton.mp hc
      decide
  · exact hdigit (h.digits.digits c hc)
  · rcases h.fraction with rfl | ⟨ds, rfl, hds⟩
    · cases hc
    · rcases List.mem_cons.mp hc with rfl | hc
      · decide
      · exact hdigit (hds.digits c hc)
  · rcases h.exponent with rfl | ⟨e, sg, ds, rfl, he, hsg, hds⟩
    · cases hc
    · simp only [List.mem_cons, List.mem_append] at hc
      rcases hc with rfl | hc | hc
      · rcases he with rfl | rfl <;> decide
      · rcases hsg with rfl | rfl | rfl
        · cases hc
        · obtain rfl := List.mem_singleton.mp hc
          decide
        · obtain rfl := List.mem_singleton.mp hc
          decide
      · exact hdigit (hds.digits c hc)

theorem isBareChar_of_mem (h : IsNumber sign whole part power) :
    ∀ c ∈ sign ++ (whole ++ (part ++ power)), isBareChar c = true :=
  fun c hc => forall_mem_of_all (p := fun c => isBareChar c = true) (by decide) c
    (h.mem_characters c hc)

/-- A number is a bare word. -/
theorem isBare (h : IsNumber sign whole part power) :
    IsBare (sign ++ (whole ++ (part ++ power))) := by
  refine ⟨h.isBareChar_of_mem, ?_⟩
  obtain ⟨c, t, rfl, hc⟩ := h.digits.eq_cons
  have halnum : c.isAlphanum = true := by simp [Char.isAlphanum, hc]
  rcases h.signed with rfl | rfl
  · exact ⟨c, _, rfl, .inl halnum⟩
  · exact ⟨'-', _, rfl, .inr ⟨rfl, c, _, rfl, halnum⟩⟩

/-- What follows the digits before the point starts with none. -/
theorem head_fraction (h : IsNumber sign whole part power) :
    ∀ c ∈ (part ++ power).head?, isLooseDigit c = false := by
  rcases h.fraction with rfl | ⟨ds, rfl, -⟩
  · rcases h.exponent with rfl | ⟨e, sg, ds, rfl, rfl | rfl, -⟩ <;> simp [isLooseDigit]
  · simp [isLooseDigit]

theorem head_exponent (h : IsNumber sign whole part power) :
    ∀ c ∈ power.head?, isLooseDigit c = false := by
  rcases h.exponent with rfl | ⟨e, sg, ds, rfl, rfl | rfl, -⟩ <;> simp [isLooseDigit]

/-! ## Tags of numbers -/

/-- The tag of a number is that of a fraction when it looks like one. -/
theorem impliedTag_eq (h : IsNumber sign whole part power)
    (hshape : looksFloat version (sign ++ (whole ++ (part ++ power))) = true ∨
      looksInt version (sign ++ (whole ++ (part ++ power))) = true) :
    impliedTag version (sign ++ (whole ++ (part ++ power))) =
      if looksFloat version (sign ++ (whole ++ (part ++ power))) then .float else .int := by
  obtain ⟨c, t, hstart, hc⟩ := StartsNumber.of_parts (u := part ++ power) h.signed h.digits
  have hlast : (sign ++ (whole ++ (part ++ power))).getLast? ≠ some '\n' := fun hlast =>
    ne_of_class (h.isBareChar_of_mem _ (List.mem_of_getLast? hlast)) (d := '\n') (by decide) rfl
  have hstarts : "-+0123456789.".toList.contains c = true ∧
      "-+0123456789".toList.contains c = true := by
    rcases hc with rfl | hc
    · decide
    · exact ⟨of_isDigit (by decide) hc, of_isDigit (by decide) hc⟩
  rw [hstart] at hlast hshape ⊢
  unfold impliedTag
  simp only [hlast, decide_false, Bool.false_and, Bool.false_eq_true, ↓reduceIte,
    not_boolWord hc, hstarts, Bool.true_and]
  split
  · rfl
  · rename_i hfloat
    rw [if_pos (hshape.resolve_left hfloat)]

theorem dropSign_int (h : IsNumber sign whole [] []) : dropSign (sign ++ whole) = whole := by
  simpa using dropSign_eq (u := []) h.signed h.digits

/-- Digits alone make no fraction. -/
theorem looksFloat_eq_false (h : IsNumber sign whole [] []) :
    looksFloat version (sign ++ whole) = false := by
  obtain ⟨c, t, hstart, hc⟩ := StartsNumber.of_parts (u := []) h.signed h.digits
  have hword := not_isWordFloat (u := []) h.signed h.digits
  have hafter : afterDigits? (whole ++ []) = some [] := afterDigits?_eq h.digits (by simp)
  rw [List.append_nil] at hstart hword hafter
  obtain ⟨d, v, hwhole, hd⟩ := h.digits.eq_cons
  -- both forms of a fraction have a point in them
  have hpoint : ∀ c ∈ sign ++ whole, decide (c ≠ '.') = true := by
    intro c hc
    rw [decide_eq_true_eq]
    rcases List.mem_append.mp hc with hc | hc
    · rcases h.signed with rfl | rfl
      · cases hc
      · obtain rfl := List.mem_singleton.mp hc
        decide
    · exact ne_of_class (h.digits.digits c hc) (by decide)
  have hdecimal : isDecimalFraction version (sign ++ whole) = false := by
    unfold isDecimalFraction
    simp only [h.dropSign_int, hafter]
    rw [isPower, Bool.false_or]
    split
    · rename_i heq
      have hmem : '.' ∈ sign ++ whole := by
        split at heq
        · simp [heq]
        · simp [heq]
      simpa using hpoint '.' hmem
    · rfl
  have hsixty : isSexagesimalFraction (sign ++ whole) = false := by
    have hdrop : (sign ++ whole).dropWhile (fun c => decide (c ≠ '.')) = [] := by
      simpa using dropWhile_append_eq (u := []) hpoint (by simp)
    unfold isSexagesimalFraction
    rw [hdrop]
  simp [looksFloat, hword, hdecimal, hsixty]

/-- An exponent is one with or without a sign. -/
theorem isPower_exponent (h : IsNumber sign whole part power) (hne : power ≠ []) :
    isPower false power = true := by
  have hrun (s : List Char) (hs : IsDigits s) : isRun Char.isDigit s = true := by
    simp only [isRun, Bool.and_eq_true, Bool.not_eq_true', List.isEmpty_eq_false_iff,
      List.all_eq_true]
    exact ⟨hs.nonempty, hs.digits⟩
  obtain ⟨e, sg, ds, rfl, he, hsg, hds⟩ := h.exponent.resolve_left hne
  have hletter : (decide (e = 'e') || decide (e = 'E')) = true := by simpa using he
  rcases hsg with rfl | rfl | rfl
  · obtain ⟨c, t, rfl, hc⟩ := hds.eq_cons
    have hplus : c ≠ '+' := ne_of_class hc (by decide)
    have hminus : c ≠ '-' := ne_of_class hc (by decide)
    simp only [List.nil_append, isPower, hletter, Bool.true_and]
    split
    · rename_i heq
      exact absurd (List.cons.inj heq).1 hplus
    · rename_i heq
      exact absurd (List.cons.inj heq).1 hminus
    · simpa using hrun _ hds
  · simpa [isPower, hletter] using hrun ds hds
  · simpa [isPower, hletter] using hrun ds hds

/-- A point or an exponent makes a fraction. -/
theorem looksFloat_eq_true (h : IsNumber sign whole part power) (hne : part ++ power ≠ []) :
    looksFloat version (sign ++ (whole ++ (part ++ power))) = true := by
  have hafter := afterDigits?_eq h.digits h.head_fraction
  have hdecimal : isDecimalFraction version (sign ++ (whole ++ (part ++ power))) = true := by
    unfold isDecimalFraction
    simp only [dropSign_eq h.signed h.digits, hafter]
    rw [Bool.or_eq_true]
    refine .inl ?_
    rcases h.fraction with rfl | ⟨ds, rfl, hds⟩
    · have hpower := h.isPower_exponent (by simpa using hne)
      obtain ⟨e, sg, ds, rfl, rfl | rfl, -⟩ := h.exponent.resolve_left (by simpa using hne)
      · exact hpower
      · exact hpower
    · have hdrop : (ds ++ power).dropWhile isLooseDigit = power :=
        dropWhile_append_eq (fun c hc => isLooseDigit_of_isDigit (hds.digits c hc)) h.head_exponent
      show (((ds ++ power).dropWhile isLooseDigit).isEmpty ||
        isPower false ((ds ++ power).dropWhile isLooseDigit)) = true
      rw [hdrop]
      by_cases hpower : power = []
      · simp [hpower]
      · simp [h.isPower_exponent hpower]
  simp [looksFloat, hdecimal]

/-- Digits are an integer. -/
theorem looksInt_eq_true (h : IsNumber sign whole [] []) :
    looksInt version (sign ++ whole) = true := by
  obtain ⟨d, v, rfl, hd⟩ := h.digits.eq_cons
  have hall : (d :: v).all isLooseDigit = true :=
    List.all_eq_true.mpr fun c hc => isLooseDigit_of_isDigit (h.digits.digits c hc)
  unfold looksInt
  simp only [h.dropSign_int]
  rw [Bool.or_eq_true]
  refine .inr ?_
  split
  · by_cases hzero : d = '0'
    · obtain rfl : v = [] := (List.cons.inj (h.noLeadingZero (by rw [hzero]; rfl))).2
      rw [hzero]
      rfl
    · have hrest : v.all isLooseDigit = true := (Bool.and_eq_true_iff.mp hall).2
      simp [hd, hzero, hrest]
  · simpa [isRun] using hall

theorem impliedTag_int (h : IsNumber sign whole [] []) :
    impliedTag version (sign ++ whole) = .int := by
  have hint : looksInt version (sign ++ whole) = true := h.looksInt_eq_true
  have htag := h.impliedTag_eq (.inr (by simpa using hint))
  simp only [List.append_nil] at htag
  rw [htag, h.looksFloat_eq_false, if_neg (by decide)]

theorem impliedTag_float (h : IsNumber sign whole part power) (hne : part ++ power ≠ []) :
    impliedTag version (sign ++ (whole ++ (part ++ power))) = .float := by
  have hfloat : looksFloat version (sign ++ (whole ++ (part ++ power))) = true :=
    h.looksFloat_eq_true hne
  rw [h.impliedTag_eq (.inl hfloat), if_pos hfloat]

/-! ## Values of numbers -/

theorem toNat_lt_of_isBareChar {c : Char} (h : isBareChar c = true) : c.toNat < 128 := by
  simp only [isBareChar, Bool.or_eq_true, decide_eq_true_eq] at h
  rcases h with ((h | rfl) | rfl) | rfl
  · exact toNat_lt_of_isAlphanum h
  · decide
  · decide
  · decide

/-- Nothing around a number counts as blank. -/
theorem bare_eq (hs : ∀ c ∈ s, isBareChar c = true) : Numeral.bare s = s := by
  have hclass : ∀ n < 128, isBareChar (Char.ofNat n) = true →
      Numeral.isOuterBlank (Char.ofNat n) = false := by decide
  have hdrop (t : List Char) (ht : ∀ c ∈ t, isBareChar c = true) :
      t.dropWhile Numeral.isOuterBlank = t := by
    cases t with
    | nil => rfl
    | cons c t =>
      have hc := ht c List.mem_cons_self
      have hblank : Numeral.isOuterBlank c = false :=
        of_toNat_lt (fun c => isBareChar c = true → Numeral.isOuterBlank c = false) hclass
          (toNat_lt_of_isBareChar hc) hc
      exact List.dropWhile_cons_of_neg (by simp [hblank])
  unfold Numeral.bare
  rw [hdrop s hs, hdrop s.reverse (by simpa using hs), List.reverse_reverse]

/-- A minus sign turns an integer to its opposite. -/
theorem int?_sign (h : IsNumber sign whole [] []) :
    Numeral.int? 10 (sign ++ whole) =
      (Numeral.int? 10 whole).map fun i => if sign = ['-'] then -i else i := by
  have hbare : ∀ c ∈ sign ++ whole, isBareChar c = true := by simpa using h.isBareChar_of_mem
  have hsplit (sign : List Char) (hsign : sign = [] ∨ sign = ['-']) :
      Numeral.splitSign (sign ++ whole) = (decide (sign = ['-']), whole) := by
    simpa using splitSign_eq (u := []) hsign h.digits
  have hwhole := hsplit [] (.inl rfl)
  rw [List.nil_append] at hwhole
  unfold Numeral.int?
  rw [bare_eq hbare, bare_eq fun c hc => hbare c (List.mem_append_right _ hc),
    hsplit sign h.signed, hwhole]
  dsimp only
  split
  · rfl
  · cases Numeral.digits? 10 0 false (Numeral.dropBaseMark 10 whole) <;> simp

theorem readInt_eq (h : IsNumber sign whole [] []) {i : Int}
    (hi : Numeral.int? 10 (sign ++ whole) = some i) : readInt version (sign ++ whole) = .ok i := by
  have hbare : ∀ c ∈ sign ++ whole, isBareChar c = true := by simpa using h.isBareChar_of_mem
  have hfilter : (sign ++ whole).filter (· ≠ '_') = sign ++ whole :=
    List.filter_eq_self.mpr fun c hc => by simpa using ne_of_class (hbare c hc) (d := '_') (by decide)
  obtain ⟨d, v, rfl, hd⟩ := h.digits.eq_cons
  rw [h.int?_sign] at hi
  obtain ⟨j, hj, rfl⟩ := Option.map_eq_some_iff.mp hi
  have hempty : (sign ++ d :: v).isEmpty = false := by simp
  have hhead : (sign ++ d :: v).head? = some '-' ↔ sign = ['-'] := by
    rcases h.signed with rfl | rfl
    · simpa using ne_of_class hd (d := '-') (by decide)
    · simp
  have hcolon : (d :: v).contains ':' = false := by
    rw [Bool.eq_false_iff, ne_eq, List.contains_iff_mem]
    exact fun hmem => ne_of_class (h.digits.digits _ hmem) (d := ':') (by decide) rfl
  unfold readInt
  simp only [hfilter, h.dropSign_int, hempty, hhead, Bool.false_eq_true, ↓reduceIte]
  -- a zero in front is the whole number, so no octal or other base is read
  by_cases hzero : d = '0'
  · obtain rfl : v = [] := (List.cons.inj (h.noLeadingZero (by rw [hzero]; rfl))).2
    subst hzero
    obtain rfl : j = 0 := Option.some.inj (hj.symm.trans (by decide))
    rfl
  · rw [if_neg (fun heq => hzero (List.cons.inj heq).1)]
    split
    · rename_i heq
      exact absurd (List.cons.inj heq).1 hzero
    · rename_i heq
      exact absurd (List.cons.inj heq).1 hzero
    · rename_i heq
      exact absurd (List.cons.inj heq).1 hzero
    · rw [hcolon, hj]
      simp only [List.isEmpty_cons, Bool.and_false, Bool.false_eq_true, ↓reduceIte,
        List.head?_cons, Option.some.injEq, hzero, decide_false]
      rfl

/-! ## Double precision numbers -/

/-- The number that digits stand for. -/
def digitsValue (ds : List Char) : Nat :=
  ds.foldl (fun n c => n * 10 + (Text.digitValue? c).getD 0) 0

theorem leadingDigits_eq {ds : List Char} (hds : ∀ c ∈ ds, c.isDigit = true)
    (hu : ∀ c ∈ u.head?, Text.isDecimal c = false) :
    Numeral.leadingDigits (ds ++ u) = (digitsValue ds, ds.length, u) := by
  have hdecimal : ∀ c ∈ ds, Text.isDecimal c = true := fun c hc =>
    of_isDigit (by decide) (hds c hc)
  have htake : (ds ++ u).takeWhile Text.isDecimal = ds := by
    rw [List.takeWhile_append_of_pos hdecimal]
    cases u with
    | nil => simp
    | cons c u => rw [List.takeWhile_cons_of_neg (by simp [hu c rfl]), List.append_nil]
  unfold Numeral.leadingDigits
  rw [htake, dropWhile_append_eq hdecimal hu]
  rfl

theorem word?_eq_none (hwhole : IsDigits whole) (negative : Bool) :
    Numeral.word? negative (whole ++ u) = none := by
  obtain ⟨c, t, rfl, hc⟩ := hwhole.eq_cons
  have hlower : c.toLower.isDigit = true :=
    of_isDigit (p := fun c => c.toLower.isDigit) (by decide) hc
  have hne (w : String) (hw : w.toList.head?.all (!·.isDigit) = true) :
      String.ofList ((c :: t ++ u).map Char.toLower) ≠ w := by
    rintro rfl
    rw [String.toList_ofList, List.cons_append, List.map_cons] at hw
    simp [hlower] at hw
  unfold Numeral.word?
  dsimp only
  rw [if_neg (not_or.mpr ⟨hne "inf" (by decide), hne "infinity" (by decide)⟩),
    if_neg (hne "nan" (by decide))]

theorem head_power (h : IsNumber sign whole part power) :
    ∀ c ∈ power.head?, Text.isDecimal c = false := by
  rcases h.exponent with rfl | ⟨e, sg, ds, rfl, rfl | rfl, -⟩
  · simp
  · rintro _ ⟨⟩; decide
  · rintro _ ⟨⟩; decide

theorem fractionDigits_eq (h : IsNumber sign whole part power) :
    Numeral.fractionDigits (part ++ power) =
      (digitsValue part.tail, part.tail.length, power) := by
  rcases h.fraction with rfl | ⟨ds, rfl, hds⟩
  · rcases h.exponent with rfl | ⟨e, sg, ds, rfl, rfl | rfl, -⟩
    · rfl
    · simp [Numeral.fractionDigits, digitsValue]
    · simp [Numeral.fractionDigits, digitsValue]
  · rw [List.cons_append, Numeral.fractionDigits, leadingDigits_eq hds.digits h.head_power,
      List.tail_cons]

/-- The double precision number of the parts of a number. -/
theorem float?_eq (h : IsNumber sign whole part power) :
    Numeral.float? (sign ++ (whole ++ (part ++ power))) =
      (Numeral.exponent? power).map fun e =>
        .ofDecimal (decide (sign = ['-']))
          (digitsValue whole * Nat.pow 10 part.tail.length + digitsValue part.tail)
          (e - part.tail.length) := by
  have hrest : ∀ c ∈ (part ++ power).head?, Text.isDecimal c = false := by
    rcases h.fraction with rfl | ⟨ds, rfl, -⟩
    · exact h.head_power
    · rintro _ ⟨⟩; decide
  obtain ⟨n, hn⟩ : ∃ n, whole.length = n + 1 := by
    obtain ⟨c, t, rfl, -⟩ := h.digits.eq_cons
    exact ⟨t.length, rfl⟩
  unfold Numeral.float?
  rw [bare_eq h.isBareChar_of_mem, splitSign_eq h.signed h.digits]
  dsimp only
  rw [word?_eq_none h.digits]
  dsimp only
  rw [leadingDigits_eq h.digits.digits hrest]
  dsimp only
  rw [h.fractionDigits_eq]
  dsimp only
  rw [if_neg (by omega)]

/-- Small letters of ASCII are found character by character. -/
theorem lowerAfter_eq_map (hs : ∀ c ∈ s, c.toNat < 128) (before : List Char) :
    Text.lowerAfter before s = s.map (Text.counterpart Text.lowerRuns) := by
  induction s generalizing before with
  | nil => rfl
  | cons c s ih =>
    obtain ⟨hc, hs⟩ := List.forall_mem_cons.mp hs
    rw [Text.lowerAfter, ih hs, if_neg (by omega), if_neg (by omega)]
    rfl

/-- Digits, signs and points are no capitals. -/
theorem map_counterpart_eq (hs : ∀ c ∈ s, c.isDigit = true ∨ c = '-' ∨ c = '+' ∨ c = '.') :
    s.map (Text.counterpart Text.lowerRuns) = s := by
  have hall : ∀ c ∈ "0123456789-+.".toList, Text.counterpart Text.lowerRuns c = c :=
    forall_mem_of_all (by decide)
  refine (List.map_congr_left fun c hc => hall c ?_).trans (List.map_id _)
  rcases hs c hc with hc | rfl | rfl | rfl
  · exact List.mem_append_left "-+.".toList (mem_of_isDigit hc)
  all_goals decide

/-- The small letters of a number: only an exponent may have a capital. -/
theorem lower_eq (h : IsNumber sign whole part power) :
    ∃ power', IsNumber sign whole part power' ∧
      Text.lower (sign ++ (whole ++ (part ++ power))) = sign ++ (whole ++ (part ++ power')) ∧
      Numeral.exponent? power' = Numeral.exponent? power := by
  have hdigits {ds : List Char} (hds : IsDigits ds) :
      ds.map (Text.counterpart Text.lowerRuns) = ds :=
    map_counterpart_eq fun c hc => .inl (hds.digits c hc)
  have hsign : sign.map (Text.counterpart Text.lowerRuns) = sign := by
    rcases h.signed with rfl | rfl
    · rfl
    · exact map_counterpart_eq (by simp)
  have hpart : part.map (Text.counterpart Text.lowerRuns) = part := by
    rcases h.fraction with rfl | ⟨ds, rfl, hds⟩
    · rfl
    · exact map_counterpart_eq (List.forall_mem_cons.mpr
        ⟨by simp, fun c hc => .inl (hds.digits c hc)⟩)
  have hall := lowerAfter_eq_map (fun c hc => toNat_lt_of_isBareChar (h.isBareChar_of_mem c hc)) []
  rw [List.map_append, List.map_append, List.map_append, hsign, hdigits h.digits, hpart] at hall
  -- the mark of an exponent may change, its sign and its digits do not
  obtain ⟨hexponent, hvalue⟩ : (power.map (Text.counterpart Text.lowerRuns) = [] ∨
      ∃ e sg ds, power.map (Text.counterpart Text.lowerRuns) = e :: (sg ++ ds) ∧
        (e = 'e' ∨ e = 'E') ∧ (sg = [] ∨ sg = ['+'] ∨ sg = ['-']) ∧ IsDigits ds) ∧
      Numeral.exponent? (power.map (Text.counterpart Text.lowerRuns)) =
        Numeral.exponent? power := by
    rcases h.exponent with rfl | ⟨e, sg, ds, rfl, he, hsg, hds⟩
    · exact ⟨.inl rfl, rfl⟩
    · have hmark : Text.counterpart Text.lowerRuns e = 'e' := by rcases he with rfl | rfl <;> rfl
      have hsg' : sg.map (Text.counterpart Text.lowerRuns) = sg := by
        rcases hsg with rfl | rfl | rfl <;> exact map_counterpart_eq (by simp)
      rw [List.map_cons, List.map_append, hmark, hsg', hdigits hds]
      refine ⟨.inr ⟨'e', sg, ds, rfl, .inl rfl, hsg, hds⟩, ?_⟩
      rcases he with rfl | rfl <;> rfl
  exact ⟨_, ⟨h.signed, h.digits, h.noLeadingZero, h.fraction, hexponent⟩, hall, hvalue⟩

theorem readFloat_eq (h : IsNumber sign whole part power) {x : Binary64}
    (hx : Numeral.float? (sign ++ (whole ++ (part ++ power))) = some x) :
    readFloat version (sign ++ (whole ++ (part ++ power))) = .ok x := by
  obtain ⟨power', h', hlower, hpower⟩ := h.lower_eq
  have hbare := h.isBareChar_of_mem
  have hfilter : (sign ++ (whole ++ (part ++ power))).filter (· ≠ '_') =
      sign ++ (whole ++ (part ++ power)) :=
    List.filter_eq_self.mpr fun c hc => by simpa using ne_of_class (hbare c hc) (d := '_') (by decide)
  have hunsigned : IsNumber [] whole part power' :=
    ⟨.inl rfl, h'.digits, h'.noLeadingZero, h'.fraction, h'.exponent⟩
  rw [h.float?_eq, ← hpower] at hx
  obtain ⟨e, he, rfl⟩ := Option.map_eq_some_iff.mp hx
  have hvalue := hunsigned.float?_eq
  rw [he, List.nil_append] at hvalue
  obtain ⟨d, v, hwhole, hd⟩ := h.digits.eq_cons
  have hhead : (sign ++ (whole ++ (part ++ power'))).head? = some '-' ↔ sign = ['-'] := by
    rcases h.signed with rfl | rfl
    · simpa [hwhole] using ne_of_class hd (d := '-') (by decide)
    · simp
  -- the words for infinity and for no number start with a point
  have hword (w : List Char) (hw : w.head? = some '.') : whole ++ (part ++ power') ≠ w := by
    rintro rfl
    rw [hwhole] at hw
    exact ne_of_class hd (d := '.') (by decide) (Option.some.inj hw)
  have hcolon : (whole ++ (part ++ power')).contains ':' = false := by
    rw [Bool.eq_false_iff, ne_eq, List.contains_iff_mem]
    exact fun hmem => ne_of_class (hunsigned.isBareChar_of_mem _ hmem) (d := ':') (by decide) rfl
  have hempty : (sign ++ (whole ++ (part ++ power'))).isEmpty = false := by simp [hwhole]
  unfold readFloat
  simp only [hfilter, hlower, hempty, dropSign_eq h.signed h.digits, hhead, hcolon,
    hword ".inf".toList rfl, hword ".nan".toList rfl, Bool.false_eq_true, ↓reduceIte, Bool.and_false,
    hvalue]
  rcases h.signed with rfl | rfl
  · rfl
  · exact congrArg Except.ok (Binary64.neg_ofDecimal _ _)

end IsNumber

/-- A number that JSON reads is a bare word, and both versions of YAML read it as the same number. -/
theorem readScalar_of_readNumber {d : Data} (h : readNumber s = .ok (d, r)) :
    ∃ raw, s = raw ++ r ∧ IsBare raw ∧ ∀ version,
      readScalar version (impliedTag version raw) (String.ofList raw) = .ok d := by
  obtain ⟨sign, whole, part, power, hnumber, rfl, hvalue⟩ := isNumber_of_readNumber h
  refine ⟨sign ++ (whole ++ (part ++ power)), by simp, hnumber.isBare,
    fun version => ?_⟩
  rcases hvalue with ⟨rfl, rfl, i, hi, rfl⟩ | ⟨hne, x, hx, rfl⟩
  · simp only [List.append_nil]
    rw [hnumber.impliedTag_int]
    simp only [readScalar, String.toList_ofList, hnumber.readInt_eq hi]
    rfl
  · simp only [List.append_assoc] at hx
    rw [hnumber.impliedTag_float hne]
    simp only [readScalar, String.toList_ofList, hnumber.readFloat_eq hx]
    rfl

end DesignTokens.Json
