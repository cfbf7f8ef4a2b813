import DesignTokens.Json.Printer
import DesignTokens.Proofs.Json.Numeral
import DesignTokens.Proofs.Number.Shortest

/-!
# Texts of numbers

The text of a number is a number of JSON, and it is read as the number that it is the text of
(`isNumberText_float`, `isNumberText_int`).  Wherever the point of a decimal is placed, and whether
zeros are filled in or an exponent is written, the parts of the text stand for the same decimal
(`isFraction_render`).
-/

namespace DesignTokens.Json

open Binary64 Decimal IsNumber Yaml

/-! ## Digits -/

variable {ds es : List Char}

theorem digitsValue_eq (hds : ∀ c ∈ ds, c.isDigit = true) :
    digitsValue ds = Nat.ofDigitChars 10 ds 0 := by
  have hvalue {c : Char} (hc : c.isDigit = true) : Text.digitValue? c = some (c.toNat - 48) := by
    simpa using of_isDigit (p := fun c => Text.digitValue? c = some (c.toNat - 48)) (by decide) hc
  have hfold (init : Nat) :
      ds.foldl (fun n c => n * 10 + (Text.digitValue? c).getD 0) init =
        ds.foldl (fun n c => 10 * n + (c.toNat - 48)) init := by
    induction ds generalizing init with
    | nil => rfl
    | cons c ds ih =>
      obtain ⟨hc, hds⟩ := List.forall_mem_cons.mp hds
      rw [List.foldl_cons, List.foldl_cons, hvalue hc, ih hds, Nat.mul_comm]
      rfl
  rw [digitsValue, hfold, Nat.ofDigitChars_eq_foldl]
  rfl

theorem digitsValue_append (hds : ∀ c ∈ ds, c.isDigit = true) (hes : ∀ c ∈ es, c.isDigit = true) :
    digitsValue (ds ++ es) = digitsValue ds * 10 ^ es.length + digitsValue es := by
  rw [digitsValue_eq hds, digitsValue_eq hes,
    digitsValue_eq fun c hc => (List.mem_append.mp hc).elim (hds c) (hes c),
    Nat.ofDigitChars_append, Nat.ofDigitChars_eq_ofDigitChars_zero, Nat.mul_comm]

theorem isDigit_replicate {n : Nat} : ∀ c ∈ List.replicate n '0', c.isDigit = true := by
  intro c hc
  rw [List.eq_of_mem_replicate hc]
  rfl

theorem digitsValue_replicate (n : Nat) : digitsValue (List.replicate n '0') = 0 := by
  rw [digitsValue_eq isDigit_replicate, Nat.ofDigitChars_replicate_zero, Nat.mul_zero]

theorem digitsValue_zero : digitsValue ['0'] = 0 := digitsValue_replicate 1

theorem isDigits_digitText (n : Nat) : IsDigits (digitText n) :=
  ⟨Nat.toDigits_ne_nil, fun _ hc => Nat.isDigit_of_mem_toDigits (by decide) (by decide) hc⟩

theorem digitsValue_digitText (n : Nat) : digitsValue (digitText n) = n := by
  rw [digitsValue_eq (isDigits_digitText n).digits, digitText, Nat.ofDigitChars_ten_toDigits]

/-- The digits of a number other than zero do not start with a zero. -/
theorem head?_digitText {n : Nat} (hn : n ≠ 0) : (digitText n).head? ≠ some '0' := by
  induction n using Nat.strongRecOn with
  | ind n ih =>
    rw [digitText, Nat.toDigits_eq_if (by decide)]
    split
    · rename_i hlt
      have hall : ∀ n < 10, n ≠ 0 → Nat.digitChar n ≠ '0' := by decide
      simpa using hall n hlt hn
    · have hne : Nat.toDigits 10 (n / 10) ≠ [] := Nat.toDigits_ne_nil
      rw [List.head?_append_of_ne_nil _ hne]
      exact ih (n / 10) (by omega) (by omega)

/-! ## Numbers with a point or an exponent -/

/-- A text of a number with a point or an exponent, and what its parts stand for: the digits, and
the power of ten of the last one. -/
structure IsFraction (text : List Char) (n : Nat) (k : Int) : Prop where
  parts : ∃ whole part power e, text = whole ++ (part ++ power) ∧ IsNumber [] whole part power ∧
    part ++ power ≠ [] ∧ Numeral.exponent? power = some e ∧
    n = digitsValue whole * 10 ^ part.tail.length + digitsValue part.tail ∧
    k = e - part.tail.length

/-- An exponent has a sign and digits. -/
theorem exists_exponentText (e : Int) : ∃ ds, exponentText e = (if e < 0 then '-' else '+') :: ds ∧
    IsDigits ds ∧ digitsValue ds = e.natAbs := by
  have hdigits := isDigits_digitText e.natAbs
  refine ⟨_, rfl, ?_⟩
  split
  · have hzero : ∀ c ∈ ['0'], c.isDigit = true := by simp
    refine ⟨⟨by simp, List.forall_mem_cons.mpr ⟨rfl, hdigits.digits⟩⟩, ?_⟩
    rw [← List.singleton_append, digitsValue_append hzero hdigits.digits, digitsValue_digitText,
      digitsValue_zero, Nat.zero_mul, Nat.zero_add]
  · exact ⟨hdigits, digitsValue_digitText _⟩

/-- An exponent is read as the number that it is the text of. -/
theorem exponent?_exponentText (e : Int) : Numeral.exponent? ('e' :: exponentText e) = some e := by
  obtain ⟨ds, htext, hds, hvalue⟩ := exists_exponentText e
  have hleading := leadingDigits_eq (u := []) hds.digits (by simp)
  rw [List.append_nil] at hleading
  have hlength : ds.length ≠ 0 := by simpa using hds.nonempty
  rw [htext, Numeral.exponent?, if_pos (.inl rfl)]
  by_cases he : e < 0
  · rw [if_pos he]
    simp only [Numeral.splitSign, hleading, hlength, hvalue]
    simp only [ne_eq, not_true_eq_false, or_self, ↓reduceIte, Option.some.injEq]
    omega
  · rw [if_neg he]
    simp only [Numeral.splitSign, hleading, hlength, hvalue]
    simp only [ne_eq, not_true_eq_false, or_self, ↓reduceIte, Option.some.injEq, Bool.false_eq_true]
    omega

/-- Digits with a point among them stand for all the digits, and the last one for a power of ten that
the digits behind the point tell. -/
theorem isFraction_point (hds : IsDigits ds) (hes : IsDigits es)
    (hlead : ds.head? = some '0' → ds = ['0']) :
    IsFraction (ds ++ '.' :: es) (digitsValue (ds ++ es)) (-es.length) where
  parts := ⟨ds, '.' :: es, [], 0, by simp,
    ⟨.inl rfl, hds, hlead, .inr ⟨es, rfl, hes⟩, .inl rfl⟩, by simp, rfl,
    digitsValue_append hds.digits hes.digits, by simp⟩

/-- Digits with a point among them or zeros around them stand for the digits, with the power of ten
that the place of the point tells. -/
theorem isFraction_placePoint (hds : IsDigits ds) (hlead : ds.head? ≠ some '0') (point : Int) :
    ∃ n k, IsFraction (placePoint true ds point) n k ∧
      (n * 10 ^ k : ℚ) = digitsValue ds * 10 ^ (point - ds.length) := by
  rw [placePoint]
  split
  · -- all digits are behind the point
    rename_i hpoint
    have hpart : IsDigits (List.replicate (-point).toNat '0' ++ ds) :=
      ⟨by simp [hds.nonempty], fun c hc =>
        (List.mem_append.mp hc).elim (isDigit_replicate c) (hds.digits c)⟩
    refine ⟨_, _, isFraction_point ⟨by simp, by simp⟩ hpart fun _ => rfl, ?_⟩
    have hzeros : ['0'] ++ (List.replicate (-point).toNat '0' ++ ds) =
        List.replicate ((-point).toNat + 1) '0' ++ ds := rfl
    rw [hzeros, digitsValue_append isDigit_replicate hds.digits, digitsValue_replicate,
      Nat.zero_mul, Nat.zero_add]
    congr 2
    rw [List.length_append, List.length_replicate]
    omega
  · rename_i hpoint
    obtain ⟨n, rfl⟩ := Int.eq_ofNat_of_zero_le (by omega : 0 ≤ point)
    dsimp only
    rw [Int.toNat_natCast]
    by_cases hn : ds.length ≤ n
    · -- zeros are filled in before the point
      rw [List.drop_of_length_le hn, List.take_of_length_le hn]
      have hwhole : IsDigits (ds ++ List.replicate (n - ds.length) '0') :=
        ⟨by simp [hds.nonempty], fun c hc =>
          (List.mem_append.mp hc).elim (hds.digits c) (isDigit_replicate c)⟩
      refine ⟨_, _, isFraction_point hwhole ⟨by simp, by simp⟩ fun hhead => ?_, ?_⟩
      · rw [List.head?_append_of_ne_nil _ hds.nonempty] at hhead
        exact absurd hhead hlead
      · rw [digitsValue_append hwhole.digits (by simp), digitsValue_zero,
          digitsValue_append hds.digits isDigit_replicate, digitsValue_replicate,
          List.length_replicate, ← Nat.cast_sub hn, zpow_natCast]
        simp
    · -- the point stands among the digits
      have hzeros : n - ds.length = 0 := by omega
      rw [hzeros, List.replicate_zero, List.append_nil]
      obtain ⟨c, rest, hrest⟩ := List.exists_cons_of_ne_nil (l := ds.drop n) (by simpa using hn)
      rw [hrest]
      dsimp only
      have hparts : ds.take n ++ c :: rest = ds := hrest ▸ List.take_append_drop n ds
      obtain ⟨m, rfl⟩ : ∃ m, n = m + 1 := ⟨n - 1, by omega⟩
      have htake : IsDigits (ds.take (m + 1)) :=
        ⟨by simp [hds.nonempty], fun c hc => hds.digits c (List.mem_of_mem_take hc)⟩
      have hdrop : IsDigits (c :: rest) :=
        ⟨by simp, fun d hd => hds.digits d (List.mem_of_mem_drop (hrest ▸ hd))⟩
      refine ⟨_, _, isFraction_point htake hdrop fun hhead => ?_, ?_⟩
      · rw [List.head?_take, if_neg (by omega)] at hhead
        exact absurd hhead hlead
      · rw [hparts, ← hrest, List.length_drop]
        congr 2
        omega

/-- The text of a decimal stands for the decimal. -/
theorem isFraction_render {d : Decimal} (hd : d.digits ≠ 0) :
    ∃ n k, IsFraction (render plainLayout d) n k ∧ (n * 10 ^ k : ℚ) = d.value := by
  have hdigits := isDigits_digitText d.digits
  rw [render]
  split
  · obtain ⟨n, k, h, hvalue⟩ := isFraction_placePoint hdigits (head?_digitText hd)
      (d.exponent + (digitText d.digits).length - 1 + 1)
    refine ⟨n, k, h, hvalue.trans ?_⟩
    rw [digitsValue_digitText, Decimal.value]
    congr 2
    omega
  · -- one digit stands before the point, and an exponent behind the digits
    generalize hfirst : d.exponent + (digitText d.digits).length - 1 = first
    obtain ⟨ds, hexponent, hds, -⟩ := exists_exponentText first
    have hpower := exponent?_exponentText first
    have hvalue := digitsValue_digitText d.digits
    obtain ⟨c, rest, hc⟩ := List.exists_cons_of_ne_nil hdigits.nonempty
    rw [hc] at hdigits hfirst hvalue ⊢
    obtain ⟨hdigit, hrest⟩ := List.forall_mem_cons.mp hdigits.digits
    have hwhole : ∀ d ∈ [c], d.isDigit = true := by simpa using hdigit
    have hpowered : 'e' :: exponentText first = [] ∨ ∃ e sg ds, 'e' :: exponentText first =
        e :: (sg ++ ds) ∧ (e = 'e' ∨ e = 'E') ∧ (sg = [] ∨ sg = ['+'] ∨ sg = ['-']) ∧
        IsDigits ds := by
      refine .inr ⟨'e', [if first < 0 then '-' else '+'], ds, by rw [hexponent]; rfl, .inl rfl, ?_,
        hds⟩
      split <;> simp
    have hsplit := digitsValue_append hwhole hrest
    rw [List.singleton_append, hvalue] at hsplit
    cases rest with
    | nil =>
      refine ⟨_, _, ⟨[c], [], 'e' :: exponentText first, first, by simp, ⟨.inl rfl, ⟨by simp, hwhole⟩,
        by simp, .inl rfl, hpowered⟩, by simp, hpower, rfl, rfl⟩, ?_⟩
      rw [List.tail_nil, ← hsplit, Decimal.value]
      congr 2
      rw [List.length_singleton] at hfirst
      rw [List.length_nil]
      omega
    | cons d' rest =>
      refine ⟨_, _, ⟨[c], '.' :: d' :: rest, 'e' :: exponentText first, first, by simp, ⟨.inl rfl,
        ⟨by simp, hwhole⟩, by simp, .inr ⟨_, rfl, by simp, hrest⟩, hpowered⟩, by simp, hpower, rfl,
        rfl⟩, ?_⟩
      rw [List.tail_cons, ← hsplit, Decimal.value]
      congr 2
      rw [List.length_cons] at hfirst
      omega

/-! ## Double precision numbers -/

/-- The text of zero. -/
theorem isFraction_zero : IsFraction (render plainLayout ⟨0, 0⟩) 0 (-1) :=
  ⟨['0'], ['.', '0'], [], 0, by decide, ⟨.inl rfl, ⟨by simp, by simp⟩, fun _ => rfl,
    .inr ⟨_, rfl, by simp, by simp⟩, .inl rfl⟩, by simp, rfl, by decide, rfl⟩

/-- The text of a finite number stands for a decimal that is read as the number. -/
theorem isFraction_text {x : Binary64} {negative : Bool} {m : Nat} {e : Int}
    (hx : x.shape = .finite negative m e) : ∃ n k,
      IsFraction (render plainLayout (shortest m e)) n k ∧ x = ofDecimal negative n k := by
  obtain ⟨hcanonical, hof⟩ := canonical_of_shape hx
  by_cases hm : m = 0
  · subst hm
    exact ⟨0, -1, isFraction_zero, hof⟩
  · have hrounds := roundsTo_shortest hcanonical hm
    have hdigits : (shortest m e).digits ≠ 0 := fun hzero => by
      have hpos := hrounds.pos hm
      rw [Decimal.value, hzero, Nat.cast_zero, zero_mul] at hpos
      exact lt_irrefl _ hpos
    obtain ⟨n, k, htext, hvalue⟩ := isFraction_render hdigits
    refine ⟨n, k, htext, ?_⟩
    rw [hof, ofDecimal_of_roundsTo hcanonical hm (hvalue ▸ hrounds)]

/-! ## Reading numbers -/

variable {sign whole part power r u : List Char}

/-- What does not go on with a number. -/
def EndsNumber (r : List Char) : Prop :=
  ∀ c ∈ r.head?, c.isDigit = false ∧ c ≠ '.' ∧ c ≠ 'e' ∧ c ≠ 'E'

theorem spanDigits_append (hds : ∀ c ∈ ds, c.isDigit = true)
    (hu : ∀ c ∈ u.head?, c.isDigit = false) : spanDigits (ds ++ u) = (ds, u) := by
  have hdrop := dropWhile_append_eq hds hu
  have htake : (ds ++ u).takeWhile Char.isDigit = ds := by
    have hsplit := List.takeWhile_append_dropWhile (p := Char.isDigit) (l := ds ++ u)
    rw [hdrop] at hsplit
    exact List.append_cancel_right hsplit
  rw [spanDigits, htake, hdrop]

theorem spanMinus_append (hsign : sign = [] ∨ sign = ['-']) (hwhole : IsDigits whole) :
    spanMinus (sign ++ (whole ++ u)) = (sign, whole ++ u) := by
  rcases hsign with rfl | rfl
  · obtain ⟨c, t, rfl, hc⟩ := hwhole.eq_cons
    have hminus : c ≠ '-' := ne_of_class hc (by decide)
    simp [spanMinus, hminus]
  · rfl

theorem spanWhole_append (hwhole : IsDigits whole) (hzero : whole.head? = some '0' → whole = ['0'])
    (hu : ∀ c ∈ u.head?, c.isDigit = false) : spanWhole (whole ++ u) = (whole, u) := by
  by_cases hhead : whole.head? = some '0'
  · rw [hzero hhead]
    rfl
  · rw [← spanDigits_append hwhole.digits hu]
    obtain ⟨c, t, rfl, -⟩ := hwhole.eq_cons
    have hne : c ≠ '0' := by simpa using hhead
    simp [spanWhole, hne]

theorem spanPart_append (hpart : part = [] ∨ ∃ ds, part = '.' :: ds ∧ IsDigits ds)
    (hu : ∀ c ∈ u.head?, c.isDigit = false ∧ c ≠ '.') : spanPart (part ++ u) = (part, u) := by
  rcases hpart with rfl | ⟨ds, rfl, hds⟩
  · cases u with
    | nil => rfl
    | cons c u =>
      have hpoint : c ≠ '.' := (hu c rfl).2
      simp [spanPart, hpoint]
  · obtain ⟨c, t, rfl, -⟩ := hds.eq_cons
    have hspan := spanDigits_append hds.digits fun c hc => (hu c hc).1
    rw [List.cons_append, spanPart, hspan]

theorem spanExponent_append (hpower : power = [] ∨ ∃ e sg ds, power = e :: (sg ++ ds) ∧
      (e = 'e' ∨ e = 'E') ∧ (sg = [] ∨ sg = ['+'] ∨ sg = ['-']) ∧ IsDigits ds)
    (hr : EndsNumber r) : spanExponent (power ++ r) = (power, r) := by
  rcases hpower with rfl | ⟨e, sg, ds, rfl, he, hsg, hds⟩
  · cases r with
    | nil => rfl
    | cons c r =>
      have hc := hr c rfl
      simp [spanExponent, hc.2.2.1, hc.2.2.2]
  · obtain ⟨c, t, rfl, hc⟩ := hds.eq_cons
    have hspan := spanDigits_append hds.digits fun c hc => (hr c hc).1
    have hsign : spanSign (sg ++ (c :: t ++ r)) = (sg, c :: t ++ r) := by
      rcases hsg with rfl | rfl | rfl
      · have hplus : c ≠ '+' := ne_of_class hc (by decide)
        have hminus : c ≠ '-' := ne_of_class hc (by decide)
        simp [spanSign, hplus, hminus]
      · rfl
      · rfl
    rw [List.cons_append, List.append_assoc, spanExponent, if_pos he, hsign]
    dsimp only
    rw [hspan]
    rfl

/-- A number is read up to what does not go on with it: digits alone as an integer, any other number
as a double precision number. -/
theorem IsNumber.readNumber_eq (h : IsNumber sign whole part power) (hr : EndsNumber r) :
    (part ++ power = [] → ∀ i, Numeral.int? 10 (sign ++ whole) = some i →
      readNumber (sign ++ (whole ++ (part ++ (power ++ r)))) = .ok (.int i, r)) ∧
    (part ++ power ≠ [] → ∀ x, Numeral.float? (sign ++ (whole ++ (part ++ power))) = some x →
      readNumber (sign ++ (whole ++ (part ++ (power ++ r)))) = .ok (.float x, r)) := by
  -- what follows a part does not go on with it
  have hpower : ∀ c ∈ (power ++ r).head?, c.isDigit = false ∧ c ≠ '.' := by
    rcases h.exponent with rfl | ⟨e, sg, ds, rfl, he, -⟩
    · exact fun c hc => ⟨(hr c hc).1, (hr c hc).2.1⟩
    · rcases he with rfl | rfl <;> simp
  have hpart : ∀ c ∈ (part ++ (power ++ r)).head?, c.isDigit = false := by
    rcases h.fraction with rfl | ⟨ds, rfl, -⟩
    · exact fun c hc => (hpower c hc).1
    · simp
  unfold readNumber
  rw [spanMinus_append h.signed h.digits]
  dsimp only
  rw [spanWhole_append h.digits h.noLeadingZero hpart]
  dsimp only
  rw [if_neg (by simpa using h.digits.nonempty), spanPart_append h.fraction hpower]
  dsimp only
  rw [spanExponent_append h.exponent hr]
  have hempty : (part.isEmpty && power.isEmpty) = true ↔ part ++ power = [] := by simp
  refine ⟨fun hnone i hi => ?_, fun hsome x hx => ?_⟩
  · rw [if_pos (hempty.mpr hnone), hi]
  · rw [if_neg (hempty.not.mpr hsome), List.append_assoc, List.append_assoc, hx]

/-! ## Reading what is written -/

theorem signed_eq_append (negative : Bool) (text : List Char) :
    Binary64.signed negative text = Binary64.signed negative [] ++ text := by
  cases negative <;> rfl

/-- A text that is a number, and is read as that. -/
structure IsNumberText (text : List Char) (d : Data) : Prop where
  number : ∃ sign whole part power, text = sign ++ (whole ++ (part ++ power)) ∧
    IsNumber sign whole part power
  read_eq : ∀ {r}, EndsNumber r → readNumber (text ++ r) = .ok (d, r)

/-- The text of a finite number is read as the number. -/
theorem isNumberText_float {x : Binary64} {negative : Bool} {m : Nat} {e : Int}
    (hx : x.shape = .finite negative m e) : IsNumberText (floatText x).toList (.float x) := by
  obtain ⟨n, k, ⟨whole, part, power, e', htext, hnumber, hne, hpower, rfl, rfl⟩, hof⟩ :=
    isFraction_text hx
  have hsigned : IsNumber (Binary64.signed negative []) whole part power :=
    ⟨by cases negative <;> simp [Binary64.signed], hnumber.digits, hnumber.noLeadingZero,
      hnumber.fraction, hnumber.exponent⟩
  have hminus : decide (Binary64.signed negative [] = ['-']) = negative := by
    cases negative <;> rfl
  have hfloat := hsigned.float?_eq
  rw [hpower, Option.map_some, hminus, Nat.pow_eq, ← hof] at hfloat
  have hfloatText : (floatText x).toList =
      Binary64.signed negative [] ++ (whole ++ (part ++ power)) := by
    rw [floatText, hx, Binary64.text, hx, String.toList_ofList, ← htext]
    exact signed_eq_append negative _
  refine ⟨⟨_, _, _, _, hfloatText, hsigned⟩, fun hr => ?_⟩
  rw [hfloatText]
  simpa using (hsigned.readNumber_eq hr).2 hne x hfloat

theorem toList_toString (i : Int) :
    (toString i).toList = Binary64.signed (i < 0) (digitText i.natAbs) := by
  cases i with
  | ofNat n =>
    have hnat : ¬ (Int.ofNat n < 0) := by simp
    rw [decide_eq_false hnat]
    show (toString n).toList = digitText n
    rw [Nat.toString_eq_ofList_toDigits, String.toList_ofList, digitText]
  | negSucc n =>
    rw [decide_eq_true (Int.negSucc_lt_zero n)]
    show ("-" ++ toString (n + 1)).toList = '-' :: digitText (n + 1)
    rw [Nat.toString_eq_ofList_toDigits, String.toList_append, String.toList_ofList, digitText,
      String.toList_ofList]
    rfl

/-- Digits are read as their number. -/
theorem digits?_eq {value : Nat} {afterDigit : Bool} (hds : ∀ c ∈ ds, c.isDigit = true)
    (hne : afterDigit = true ∨ ds ≠ []) :
    Numeral.digits? 10 value afterDigit ds = some (Nat.ofDigitChars 10 ds value) := by
  induction ds generalizing value afterDigit with
  | nil =>
    have hafter : afterDigit = true := hne.resolve_right (by simp)
    rw [Numeral.digits?, if_pos hafter, Nat.ofDigitChars_nil]
  | cons c ds ih =>
    obtain ⟨hc, hds⟩ := List.forall_mem_cons.mp hds
    have hmark : c ≠ '_' := ne_of_class hc (by decide)
    have hdigit : Numeral.digitIn? 10 c = some (c.toNat - '0'.toNat) := by
      simpa using of_isDigit
        (p := fun c => Numeral.digitIn? 10 c = some (c.toNat - '0'.toNat)) (by decide) hc
    rw [Numeral.digits?, if_neg hmark, hdigit, Nat.ofDigitChars_cons, Nat.mul_comm]
    exact ih hds (.inl rfl)

theorem int?_digitText {n : Nat} (hn : decimalLength n ≤ Numeral.maxDigits) :
    Numeral.int? 10 (digitText n) = some (n : Int) := by
  have hdigits := isDigits_digitText n
  have hbare : ∀ c ∈ digitText n, isBareChar c = true := fun c hc =>
    of_isDigit (by decide) (hdigits.digits c hc)
  have hsplit := splitSign_eq (u := []) (.inl rfl) hdigits
  rw [List.append_nil, List.nil_append] at hsplit
  have hmark : Numeral.dropBaseMark 10 (digitText n) = digitText n := by
    unfold Numeral.dropBaseMark
    split <;> rfl
  have hfilter : (digitText n).filter (· ≠ '_') = digitText n :=
    List.filter_eq_self.mpr fun c hc => by
      simpa using ne_of_class (hdigits.digits c hc) (d := '_') (by decide)
  unfold Numeral.int?
  rw [bare_eq hbare, hsplit]
  dsimp only
  have hfew : ¬ Numeral.maxDigits < (digitText n).length := Nat.not_lt.mpr hn
  rw [hmark, hfilter, if_neg (by simpa using hfew), digits?_eq hdigits.digits (.inr hdigits.nonempty),
    digitText, Nat.ofDigitChars_ten_toDigits]
  rfl

/-- The text of an integer is read as the integer, unless it has too many digits. -/
theorem isNumberText_int {i : Int} (hi : decimalLength i.natAbs ≤ Numeral.maxDigits) :
    IsNumberText (toString i).toList (.int i) := by
  have hdigits := isDigits_digitText i.natAbs
  have hnumber : IsNumber (Binary64.signed (i < 0) []) (digitText i.natAbs) [] [] := by
    refine ⟨?_, hdigits, fun hhead => ?_, .inl rfl, .inl rfl⟩
    · by_cases hneg : i < 0 <;> simp [hneg, Binary64.signed]
    · by_contra hne
      refine head?_digitText (fun hzero => hne ?_) hhead
      rw [hzero]
      rfl
  have hint := hnumber.int?_sign
  rw [int?_digitText hi] at hint
  dsimp only [Option.map_some] at hint
  have hvalue : (if Binary64.signed (i < 0) [] = ['-'] then -(i.natAbs : Int) else i.natAbs) = i := by
    by_cases hneg : i < 0
    · rw [decide_eq_true hneg, if_pos (by simp [Binary64.signed])]
      omega
    · rw [decide_eq_false hneg, if_neg (by simp [Binary64.signed])]
      omega
  rw [hvalue] at hint
  refine ⟨⟨_, _, [], [], by rw [toList_toString, signed_eq_append]; simp, hnumber⟩, fun hr => ?_⟩
  rw [toList_toString, signed_eq_append]
  simpa using (hnumber.readNumber_eq hr).1 rfl i hint

end DesignTokens.Json
