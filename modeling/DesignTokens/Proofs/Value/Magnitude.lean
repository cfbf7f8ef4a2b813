import DesignTokens.Proofs.Text
import DesignTokens.Proofs.Value.Rereading

/-!
# Magnitudes and their units

A length or a time is written as a magnitude with a unit behind it.  What is read as the unit is
what follows the longest magnitude at the start of the text (`unit?_spec`), and no magnitude can
reach into letters, so it is the unit for every way to divide the text (`unit?_append`).
-/

namespace DesignTokens

namespace Magnitude

open Text

/-! ## Magnitudes -/

/-- One or more digits of a class. -/
structure Digits (digit : Char → Bool) (s : List Char) : Prop where
  nonempty : s ≠ []
  all : ∀ c ∈ s, digit c = true

/-- Digits, perhaps with a point and further digits, or a point and digits. -/
inductive IsMantissa (digit : Char → Bool) : List Char → Prop where
  | whole {ds : List Char} : Digits digit ds → IsMantissa digit ds
  | point {ds fs : List Char} : Digits digit ds → (∀ c ∈ fs, digit c = true) →
      IsMantissa digit (ds ++ '.' :: fs)
  | fraction {fs : List Char} : Digits digit fs → IsMantissa digit ('.' :: fs)

/-- Nothing, or an `e` and digits, perhaps with a sign in between. -/
inductive IsExponent (digit : Char → Bool) : List Char → Prop where
  | none : IsExponent digit []
  | power {e : Char} {sign ds : List Char} : e = 'e' ∨ e = 'E' →
      sign = [] ∨ sign = ['+'] ∨ sign = ['-'] → Digits digit ds →
      IsExponent digit (e :: (sign ++ ds))

/-- A magnitude is a mantissa and an exponent, perhaps with a minus in front of them. -/
def IsMagnitude (digit : Char → Bool) (s : List Char) : Prop :=
  ∃ sign mantissa exponent, s = sign ++ (mantissa ++ exponent) ∧ (sign = [] ∨ sign = ['-']) ∧
    IsMantissa digit mantissa ∧ IsExponent digit exponent

variable {s u r : List Char}

/-! ## What is read is a magnitude -/

theorem afterDigits?_spec (h : afterDigits? s = some r) :
    ∃ ds, Digits isDecimal ds ∧ s = ds ++ r := by
  cases s with
  | nil => simp [afterDigits?] at h
  | cons c t =>
    rw [afterDigits?] at h
    split at h
    · rename_i hc
      obtain rfl := Option.some.inj h
      refine ⟨c :: t.takeWhile isDecimal, ⟨by simp, ?_⟩, ?_⟩
      · exact List.forall_mem_cons.mpr ⟨hc, fun d => List.mem_takeWhile_imp⟩
      · rw [List.cons_append, List.takeWhile_append_dropWhile]
    · simp at h

/-- The text after a sign, if there is one. -/
def withoutSign : List Char → List Char
  | '+' :: t => t
  | '-' :: t => t
  | t => t

theorem withoutSign_spec (s : List Char) :
    ∃ sign, (sign = [] ∨ sign = ['+'] ∨ sign = ['-']) ∧ s = sign ++ withoutSign s := by
  unfold withoutSign
  split
  · exact ⟨['+'], by simp, rfl⟩
  · exact ⟨['-'], by simp, rfl⟩
  · exact ⟨[], by simp, rfl⟩

theorem afterExponent_cons (c : Char) (t : List Char) :
    afterExponent (c :: t) = if c = 'e' ∨ c = 'E' then
      (afterDigits? (withoutSign t)).getD (c :: t) else c :: t := by
  have hletter : (decide (c = 'e') || decide (c = 'E')) = true ↔ c = 'e' ∨ c = 'E' := by simp
  rw [← if_congr hletter rfl rfl]
  rfl

theorem afterExponent_spec (s : List Char) :
    ∃ e, IsExponent isDecimal e ∧ s = e ++ afterExponent s := by
  cases s with
  | nil => exact ⟨[], .none, rfl⟩
  | cons c t =>
    rw [afterExponent_cons]
    split
    · rename_i hc
      obtain ⟨sign, hsign, ht⟩ := withoutSign_spec t
      cases hdigits : afterDigits? (withoutSign t) with
      | none => exact ⟨[], .none, rfl⟩
      | some r =>
        obtain ⟨ds, hds, hdigits⟩ := afterDigits?_spec hdigits
        rw [hdigits] at ht
        exact ⟨_, .power hc hsign hds, by simp [ht]⟩
    · exact ⟨[], .none, rfl⟩

/-- The text after a mantissa. -/
def afterMantissa? (s : List Char) : Option (List Char) :=
  match afterDigits? s with
  | some ('.' :: r) => some (r.dropWhile isDecimal)
  | some r => some r
  | none =>
    match s with
    | '.' :: r => afterDigits? r
    | _ => none

theorem afterUnsigned?_eq (s : List Char) :
    afterUnsigned? s = (afterMantissa? s).map afterExponent := rfl

theorem afterMantissa?_spec (h : afterMantissa? s = some r) :
    ∃ mantissa, IsMantissa isDecimal mantissa ∧ s = mantissa ++ r := by
  unfold afterMantissa? at h
  split at h
  · rename_i t hdigits
    obtain ⟨ds, hds, rfl⟩ := afterDigits?_spec hdigits
    obtain rfl := Option.some.inj h
    have hfs : ∀ c ∈ t.takeWhile isDecimal, isDecimal c = true := fun c => List.mem_takeWhile_imp
    exact ⟨_, .point hds hfs, by simp⟩
  · rename_i hdigits
    obtain ⟨ds, hds, rfl⟩ := afterDigits?_spec hdigits
    obtain rfl := Option.some.inj h
    exact ⟨ds, .whole hds, rfl⟩
  · split at h
    · obtain ⟨ds, hds, rfl⟩ := afterDigits?_spec h
      exact ⟨'.' :: ds, .fraction hds, rfl⟩
    · simp at h

/-- The unit that is read follows a magnitude. -/
theorem unit?_spec (h : unit? s = some u) :
    ∃ m, IsMagnitude isDecimal m ∧ s = m ++ u := by
  obtain ⟨sign, t, rfl, hsign, hunsigned⟩ : ∃ sign t, s = sign ++ t ∧
      (sign = [] ∨ sign = ['-']) ∧ afterUnsigned? t = some u := by
    unfold unit? at h
    split at h
    · exact ⟨['-'], _, rfl, .inr rfl, h⟩
    · exact ⟨[], _, rfl, .inl rfl, h⟩
  rw [afterUnsigned?_eq, Option.map_eq_some_iff] at hunsigned
  obtain ⟨r, hr, rfl⟩ := hunsigned
  obtain ⟨mantissa, hmantissa, rfl⟩ := afterMantissa?_spec hr
  obtain ⟨e, he, hrest⟩ := afterExponent_spec r
  refine ⟨_, ⟨sign, mantissa, e, rfl, hsign, hmantissa, he⟩, ?_⟩
  rw [List.append_assoc, List.append_assoc, ← hrest]

/-! ## Magnitudes are read as a whole -/

/-- A character that stands in no magnitude, unless it starts the exponent. -/
def Stops (c : Char) : Prop := isDecimal c = false ∧ c ≠ '.' ∧ c ≠ '+' ∧ c ≠ '-'

theorem afterDigits?_append {ds : List Char} (hds : Digits isDecimal ds)
    (hu : ∀ c ∈ u.head?, isDecimal c = false) : afterDigits? (ds ++ u) = some u := by
  obtain ⟨hne, hall⟩ := hds
  obtain ⟨c, t, rfl⟩ := List.exists_cons_of_ne_nil hne
  obtain ⟨hc, ht⟩ := List.forall_mem_cons.mp hall
  rw [List.cons_append, afterDigits?, if_pos hc, dropWhile_append_eq ht hu]

theorem afterDigits?_eq_none (hs : ∀ c ∈ s.head?, isDecimal c = false) :
    afterDigits? s = none := by
  cases s with
  | nil => rfl
  | cons c t => simp [afterDigits?, hs c rfl]

theorem withoutSign_eq_self (hs : ∀ c ∈ s.head?, c ≠ '+' ∧ c ≠ '-') : withoutSign s = s := by
  unfold withoutSign
  split
  · exact absurd rfl (hs _ rfl).1
  · exact absurd rfl (hs _ rfl).2
  · rfl

theorem Digits.head {ds : List Char} (hds : Digits isDecimal ds) (u : List Char) :
    ∀ c ∈ (ds ++ u).head?, isDecimal c = true := by
  obtain ⟨c, t, rfl⟩ := List.exists_cons_of_ne_nil hds.nonempty
  intro d hd
  obtain rfl := Option.some.inj hd
  exact hds.all c List.mem_cons_self

theorem withoutSign_append {sign ds : List Char}
    (hsign : sign = [] ∨ sign = ['+'] ∨ sign = ['-']) (hds : Digits isDecimal ds) :
    withoutSign (sign ++ (ds ++ u)) = ds ++ u := by
  obtain rfl | rfl | rfl := hsign
  · refine withoutSign_eq_self fun c hc => ?_
    have hdecimal := hds.head u c hc
    exact ⟨ne_of_class hdecimal (by decide), ne_of_class hdecimal (by decide)⟩
  · rfl
  · rfl

/-- An exponent ends where characters follow that stand in no magnitude. -/
theorem afterExponent_append {e : List Char} (he : IsExponent isDecimal e)
    (hu : ∀ c ∈ u, Stops c) : afterExponent (e ++ u) = u := by
  cases he with
  | none =>
    cases u with
    | nil => rfl
    | cons c t =>
      -- a letter alone is no exponent
      have ht : ∀ d ∈ t.head?, Stops d := fun d hd =>
        hu d (List.mem_cons_of_mem _ (List.mem_of_mem_head? hd))
      rw [List.nil_append, afterExponent_cons, withoutSign_eq_self fun d hd => (ht d hd).2.2,
        afterDigits?_eq_none fun d hd => (ht d hd).1, Option.getD_none, ite_self]
  | power hletter hsign hds =>
    have hhead : ∀ c ∈ u.head?, isDecimal c = false := fun c hc =>
      (hu c (List.mem_of_mem_head? hc)).1
    rw [List.cons_append, List.append_assoc, afterExponent_cons, if_pos hletter,
      withoutSign_append hsign hds, afterDigits?_append hds hhead, Option.getD_some]

/-- A mantissa ends where something else follows than a digit or a point. -/
theorem afterMantissa?_append {m : List Char} (hm : IsMantissa isDecimal m)
    (hr : ∀ c ∈ r.head?, isDecimal c = false ∧ c ≠ '.') : afterMantissa? (m ++ r) = some r := by
  have hhead : ∀ c ∈ r.head?, isDecimal c = false := fun c hc => (hr c hc).1
  have hpoint : isDecimal '.' = false := by decide
  unfold afterMantissa?
  cases hm with
  | whole hds =>
    rw [afterDigits?_append hds hhead]
    split
    · rename_i heq
      obtain rfl := Option.some.inj heq
      exact absurd rfl (hr _ rfl).2
    · rename_i heq
      exact heq.symm
    · rename_i heq
      cases heq
  | @point ds fs hds hfs =>
    rw [List.append_assoc, List.cons_append, afterDigits?_append hds (by simpa using hpoint)]
    simp [dropWhile_append_eq hfs hhead]
  | fraction hfs =>
    rw [List.cons_append, afterDigits?_eq_none (by simpa using hpoint)]
    exact afterDigits?_append hfs hhead

theorem IsMantissa.head {m : List Char} (hm : IsMantissa isDecimal m) (u : List Char) :
    ∀ c ∈ (m ++ u).head?, c ≠ '-' := by
  have hminus : isDecimal '-' = false := by decide
  intro c hc
  cases hm with
  | whole hds => exact ne_of_class (hds.head u c hc) hminus
  | point hds _ =>
    rw [List.append_assoc] at hc
    exact ne_of_class (hds.head _ c hc) hminus
  | fraction _ =>
    obtain rfl := Option.some.inj hc
    decide

theorem unit?_of_head (hs : ∀ c ∈ s.head?, c ≠ '-') : unit? s = afterUnsigned? s := by
  unfold unit?
  split
  · exact absurd rfl (hs _ rfl)
  · rfl

/-- What follows a magnitude is read as the unit, where it cannot go on with it. -/
theorem unit?_append {m : List Char} (hm : IsMagnitude isDecimal m) (hu : ∀ c ∈ u, Stops c) :
    unit? (m ++ u) = some u := by
  obtain ⟨sign, mantissa, e, rfl, hsign, hmantissa, he⟩ := hm
  have hnext : ∀ c ∈ (e ++ u).head?, isDecimal c = false ∧ c ≠ '.' := by
    cases he with
    | none =>
      exact fun c hc => ⟨(hu c (List.mem_of_mem_head? hc)).1, (hu c (List.mem_of_mem_head? hc)).2.1⟩
    | power hletter _ _ =>
      intro c hc
      obtain rfl := Option.some.inj hc
      obtain rfl | rfl := hletter <;> decide
  have hunsigned : afterUnsigned? (mantissa ++ (e ++ u)) = some u := by
    rw [afterUnsigned?_eq, afterMantissa?_append hmantissa hnext, Option.map_some,
      afterExponent_append he hu]
  rw [List.append_assoc, List.append_assoc]
  obtain rfl | rfl := hsign
  · rw [List.nil_append, unit?_of_head fun c hc => hmantissa.head _ c hc, hunsigned]
  · exact hunsigned

/-! ## Letters and digits of ASCII -/

theorem stops_of_isUnitChar {c : Char} (h : isUnitChar c = true) : Stops c := by
  have hlt : c.toNat < 128 := by
    simp only [isUnitChar, Bool.or_eq_true, decide_eq_true_eq] at h
    obtain h | rfl := h
    · exact toNat_lt_of_isAlphanum (by simp [Char.isAlphanum, h])
    · decide
  have hall : ∀ n < 128, isUnitChar (Char.ofNat n) = true →
      isDecimal (Char.ofNat n) = false ∧ Char.ofNat n ≠ '.' ∧ Char.ofNat n ≠ '+' ∧
        Char.ofNat n ≠ '-' := by
    decide +kernel
  exact of_toNat_lt (fun c => isUnitChar c = true → Stops c) hall hlt h

theorem Digits.imp {p q : Char → Bool} (h : Digits p s) (hpq : ∀ c ∈ s, p c = true → q c = true) :
    Digits q s := ⟨h.nonempty, fun c hc => hpq c hc (h.all c hc)⟩

theorem IsMagnitude.imp {p q : Char → Bool} (h : IsMagnitude p s)
    (hpq : ∀ c ∈ s, p c = true → q c = true) : IsMagnitude q s := by
  obtain ⟨sign, mantissa, e, rfl, hsign, hmantissa, he⟩ := h
  refine ⟨sign, mantissa, e, rfl, hsign, ?_, ?_⟩
  · have hpq : ∀ c ∈ mantissa, p c = true → q c = true := fun c hc => hpq c (by simp [hc])
    cases hmantissa with
    | whole hds => exact .whole (hds.imp hpq)
    | point hds hfs =>
      exact .point (hds.imp fun c hc => hpq c (by simp [hc]))
        fun c hc => hpq c (by simp [hc]) (hfs c hc)
    | fraction hfs => exact .fraction (hfs.imp fun c hc => hpq c (by simp [hc]))
  · have hpq : ∀ c ∈ e, p c = true → q c = true := fun c hc => hpq c (by simp [hc])
    cases he with
    | none => exact .none
    | power hletter hesign hds =>
      exact .power hletter hesign (hds.imp fun c hc => hpq c (by simp [hc]))

theorem Digits.exists_digit {p : Char → Bool} (h : Digits p s) : ∃ c ∈ s, p c = true := by
  obtain ⟨c, t, rfl⟩ := List.exists_cons_of_ne_nil h.nonempty
  exact ⟨c, List.mem_cons_self, h.all c List.mem_cons_self⟩

/-- There is a digit in every magnitude. -/
theorem IsMagnitude.exists_digit {p : Char → Bool} (h : IsMagnitude p s) :
    ∃ c ∈ s, p c = true := by
  obtain ⟨sign, mantissa, e, rfl, -, hmantissa, -⟩ := h
  have hsome : ∃ c ∈ mantissa, p c = true := by
    cases hmantissa with
    | whole hds => exact hds.exists_digit
    | point hds _ => exact hds.exists_digit.imp fun c hc => ⟨by simp [hc.1], hc.2⟩
    | fraction hfs => exact hfs.exists_digit.imp fun c hc => ⟨by simp [hc.1], hc.2⟩
  exact hsome.imp fun c hc => ⟨by simp [hc.1], hc.2⟩

/-- Where the only digits are those of ASCII, a text has a unit that stands in no magnitude exactly
when it is a magnitude and the unit. -/
theorem unit?_eq_some_iff (hs : ∀ c ∈ s, isDecimal c = true → c.isDigit = true)
    (hu : ∀ c ∈ u, Stops c) :
    unit? s = some u ↔ ∃ m, s = m ++ u ∧ IsMagnitude Char.isDigit m := by
  constructor
  · intro h
    obtain ⟨m, hm, rfl⟩ := unit?_spec h
    exact ⟨m, rfl, hm.imp fun c hc => hs c (List.mem_append_left _ hc)⟩
  · rintro ⟨m, rfl, hm⟩
    exact unit?_append (hm.imp fun c _ => isDecimal_of_isDigit) hu

/-! ## Units -/

theorem isUnitChar_iff {c : Char} : isUnitChar c = true ↔ c.isAlpha = true ∨ c = '%' := by
  simp [isUnitChar]

theorem isUnit_iff (hu : u.getLast? ≠ some '\n') :
    isUnit u = true ↔ u ≠ [] ∧ ∀ c ∈ u, isUnitChar c = true := by
  simp [isUnit, hu]

theorem contains_timeUnits_iff :
    timeUnits.contains (String.ofList u) = true ↔ u = ['m', 's'] ∨ u = ['s'] := by
  have hms : String.ofList u = "ms" ↔ u = ['m', 's'] := by
    rw [← String.toList_inj, String.toList_ofList]
    rfl
  have hs : String.ofList u = "s" ↔ u = ['s'] := by
    rw [← String.toList_inj, String.toList_ofList]
    rfl
  simp [timeUnits, hms, hs]

end Magnitude

namespace Grammar

open Magnitude

/-! ## Lengths and times -/

variable {s : String} {span : Span} {t : Template}

theorem closed_of_scalar (hclosed : Closed s) :
    ∀ s', (Tree.scalar (.text s) span).text? = some s' → Closed s' :=
  fun _ hs' => Option.some.inj hs' ▸ hclosed

/-- A text that opens like no reference is read by the grammar of the type. -/
theorem value_text (hclosed : Closed s) (type : TokenType) :
    value type (.scalar (.text s) span) = literal type (.scalar (.text s) span) := by
  rw [value, orHole, hole?_of_closed (closed_of_scalar hclosed)]
  rfl

theorem value_dimension_iff (hclosed : Closed s) :
    value .dimension (.scalar (.text s) span) = .ok t ↔ t = .text s ∧ IsLength s := by
  rw [value_text hclosed, literal]
  constructor
  · intro h
    obtain ⟨hzero, -⟩ | ⟨s', hs', rfl, hlength⟩ := dimension_spec (closed_of_scalar hclosed) h
    · simp [isZero_text] at hzero
    · obtain rfl := Option.some.inj hs'
      exact ⟨rfl, hlength⟩
  · rintro ⟨rfl, hlength⟩
    exact dimension_length hlength

theorem value_duration_iff (hclosed : Closed s) :
    value .duration (.scalar (.text s) span) = .ok t ↔ t = .text s ∧ IsTime s := by
  rw [value_text hclosed, literal]
  constructor
  · intro h
    obtain ⟨hzero, -⟩ | ⟨s', hs', rfl, htime⟩ := duration_spec (closed_of_scalar hclosed) h
    · simp [isZero_text] at hzero
    · obtain rfl := Option.some.inj hs'
      exact ⟨rfl, htime⟩
  · rintro ⟨rfl, htime⟩
    exact duration_time htime

theorem filled_of_unit {m u : List Char} (hs : s.toList = m ++ u) (hne : u ≠ []) : s ≠ "" := by
  rintro rfl
  exact hne (List.append_eq_nil_iff.mp hs.symm).2

/-- With digits of ASCII only, and without a line break at the end, the text of a length is a
magnitude with letters and percent signs behind it. -/
theorem isLength_iff (hclosed : Closed s)
    (hdigits : ∀ c ∈ s.toList, Text.isDecimal c = true → c.isDigit = true)
    (hbreak : s.toList.getLast? ≠ some '\n') :
    IsLength s ↔ ∃ m u, s.toList = m ++ u ∧ IsMagnitude Char.isDigit m ∧ u ≠ [] ∧
      ∀ c ∈ u, c.isAlpha = true ∨ c = '%' := by
  simp only [← isUnitChar_iff]
  constructor
  · rintro ⟨-, -, u, hunit, hne, hu⟩
    obtain ⟨m, -, hs⟩ := unit?_spec hunit
    rw [hs, List.getLast?_append_of_ne_nil _ hne] at hbreak
    obtain ⟨-, hletters⟩ := (isUnit_iff hbreak).mp hu
    obtain ⟨m, hs, hm⟩ :=
      (unit?_eq_some_iff hdigits fun c hc => stops_of_isUnitChar (hletters c hc)).mp hunit
    exact ⟨m, u, hs, hm, hne, hletters⟩
  · rintro ⟨m, u, hs, hm, hne, hletters⟩
    have hunit :=
      (unit?_eq_some_iff hdigits fun c hc => stops_of_isUnitChar (hletters c hc)).mpr ⟨m, hs, hm⟩
    rw [hs, List.getLast?_append_of_ne_nil _ hne] at hbreak
    exact ⟨hclosed, filled_of_unit hs hne, u, hunit, hne, (isUnit_iff hbreak).mpr ⟨hne, hletters⟩⟩

theorem isTime_iff (hclosed : Closed s)
    (hdigits : ∀ c ∈ s.toList, Text.isDecimal c = true → c.isDigit = true) :
    IsTime s ↔ ∃ m u, s.toList = m ++ u ∧ IsMagnitude Char.isDigit m ∧
      (u = ['m', 's'] ∨ u = ['s']) := by
  have hstops : ∀ u : List Char, u = ['m', 's'] ∨ u = ['s'] → ∀ c ∈ u, Stops c := by
    have hletters : ∀ c ∈ ['m', 's'], isUnitChar c = true := by simp [isUnitChar]
    rintro u (rfl | rfl) c hc
    · exact stops_of_isUnitChar (hletters c hc)
    · exact stops_of_isUnitChar (hletters c (List.mem_cons_of_mem _ hc))
  constructor
  · rintro ⟨-, -, u, hunit, -, hu⟩
    have hu := contains_timeUnits_iff.mp hu
    obtain ⟨m, hs, hm⟩ := (unit?_eq_some_iff hdigits (hstops u hu)).mp hunit
    exact ⟨m, u, hs, hm, hu⟩
  · rintro ⟨m, u, hs, hm, hu⟩
    have hunit := (unit?_eq_some_iff hdigits (hstops u hu)).mpr ⟨m, hs, hm⟩
    have hne : u ≠ [] := by
      rintro rfl
      simp at hu
    exact ⟨hclosed, filled_of_unit hs hne, u, hunit, hne, contains_timeUnits_iff.mpr hu⟩

/-- Among the texts that open like no reference, whose only digits are those of ASCII, the lengths
are the magnitudes with letters and percent signs behind them, where no line break stands at the
end, and the times are the magnitudes with one of the two units of time behind them.  They stay as
they are. -/
theorem measures_exact (hopen : Reference.isOpenedBy s = false)
    (hdigits : ∀ c ∈ s.toList, Text.isDecimal c = true → c.isDigit = true) :
    (s.toList.getLast? ≠ some '\n' → ∀ t, value .dimension (.scalar (.text s) span) = .ok t ↔
      t = .text s ∧ ∃ m u, s.toList = m ++ u ∧ IsMagnitude Char.isDigit m ∧ u ≠ [] ∧
        ∀ c ∈ u, c.isAlpha = true ∨ c = '%') ∧
    ∀ t, value .duration (.scalar (.text s) span) = .ok t ↔
      t = .text s ∧ ∃ m u, s.toList = m ++ u ∧ IsMagnitude Char.isDigit m ∧
        (u = ['m', 's'] ∨ u = ['s']) := by
  refine ⟨fun hbreak t => ?_, fun t => ?_⟩
  · rw [value_dimension_iff hopen, isLength_iff hopen hdigits hbreak]
  · rw [value_duration_iff hopen, isTime_iff hopen hdigits]

/-- For instance, a text with a point in front and an exponent is a length and a time. -/
theorem measures_exact_half : Reference.isOpenedBy "-.5e3ms" = false ∧
    (∀ c ∈ "-.5e3ms".toList, Text.isDecimal c = true → c.isDigit = true) ∧
    "-.5e3ms".toList.getLast? ≠ some '\n' ∧
    value .dimension (.scalar (.text "-.5e3ms") .origin) = .ok (.text "-.5e3ms") ∧
    value .duration (.scalar (.text "-.5e3ms") .origin) = .ok (.text "-.5e3ms") := by
  have hopen : Reference.isOpenedBy "-.5e3ms" = false := by decide +kernel
  have hdigits : ∀ c ∈ "-.5e3ms".toList, Text.isDecimal c = true → c.isDigit = true :=
    forall_mem_of_all (by decide +kernel)
  have hbreak : "-.5e3ms".toList.getLast? ≠ some '\n' := by decide +kernel
  have hmagnitude : IsMagnitude Char.isDigit ['-', '.', '5', 'e', '3'] :=
    ⟨['-'], ['.', '5'], ['e', '3'], rfl, .inr rfl, .fraction ⟨by simp, by simp⟩,
      .power (.inl rfl) (.inl rfl) ⟨by simp, by simp⟩⟩
  refine ⟨hopen, hdigits, hbreak, ((measures_exact hopen hdigits).1 hbreak _).mpr ⟨rfl, ?_⟩,
    ((measures_exact hopen hdigits).2 _).mpr ⟨rfl, ?_⟩⟩
  · exact ⟨_, ['m', 's'], rfl, hmagnitude, by simp, by simp⟩
  · exact ⟨_, ['m', 's'], rfl, hmagnitude, .inl rfl⟩

/-- A length with a line break behind it is taken for a length, and a time in fullwidth digits for a
time. -/
theorem measures_not_exact :
    (value .dimension (.scalar (.text "1px\n") .origin) = .ok (.text "1px\n") ∧
      ¬ ∃ m u, "1px\n".toList = m ++ u ∧ IsMagnitude Char.isDigit m ∧ u ≠ [] ∧
        ∀ c ∈ u, c.isAlpha = true ∨ c = '%') ∧
    value .duration (.scalar (.text "\uff11s") .origin) = .ok (.text "\uff11s") ∧
      ¬ ∃ m u, "\uff11s".toList = m ++ u ∧ IsMagnitude Char.isDigit m ∧
        (u = ['m', 's'] ∨ u = ['s']) := by
  refine ⟨⟨rfl, ?_⟩, rfl, ?_⟩
  · -- the line break would be a letter of the unit
    rintro ⟨m, u, hs, -, hne, hu⟩
    have hlast : '\n' ∈ u := by
      refine List.mem_of_getLast? ?_
      rw [← List.getLast?_append_of_ne_nil m hne, ← hs]
      rfl
    exact absurd (hu _ hlast) (by decide)
  · rintro ⟨m, u, hs, hm, -⟩
    obtain ⟨c, hc, hdigit⟩ := hm.exists_digit
    have hnone : ∀ c ∈ "\uff11s".toList, c.isDigit = false :=
      forall_mem_of_all (by decide +kernel)
    rw [hs] at hnone
    exact absurd hdigit (by simp [hnone c (List.mem_append_left _ hc)])

end Grammar

end DesignTokens
