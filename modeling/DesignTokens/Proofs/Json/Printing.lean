import DesignTokens.Proofs.Json.NumberText
import DesignTokens.Proofs.Json.StringText

/-!
# Data that is written as JSON

Data on indented lines is read as the data (`readText_indented`), and the text is portable when the
texts, the names and the numbers of the data are (`portable_indented`).  Both are shown part by
part: `Prints` says of a text that it is read as a value wherever it stands and that it is portable.
-/

namespace DesignTokens

/-! ## Portable data -/

namespace Json

open Yaml

/-- A name whose string is a key in YAML too. -/
def isPortableName (name : String) : Bool :=
  isPortableText name && (escaped name.toList).length + 2 ≤ maxKeyLength

/-- A scalar with a text that is read as the scalar in both languages: numbers have digits, and not
too many of them. -/
def isPortableScalar : Scalar → Bool
  | .bool _ => true
  | .int i => Binary64.decimalLength i.natAbs ≤ Numeral.maxDigits
  | .float x =>
    match x.shape with
    | .finite .. => true
    | _ => false
  | .text s => isPortableText s

end Json

namespace Data

mutual

/-- Data whose scalars and names are portable. -/
def isPortable : Data → Bool
  | .null => true
  | .scalar s => Json.isPortableScalar s
  | .list ds => arePortable ds
  | .object ms => havePortable ms

/-- Whether all items are portable. -/
def arePortable : List Data → Bool
  | [] => true
  | d :: ds => d.isPortable && arePortable ds

/-- Whether all members are portable, with their names. -/
def havePortable : List (String × Data) → Bool
  | [] => true
  | (name, d) :: ms => Json.isPortableName name && d.isPortable && havePortable ms

end

end Data

namespace Json

open Yaml

/-! ## White space -/

/-- White space as it stands between the parts of data: blanks and line breaks. -/
def IsLayout (w : List Char) : Prop := ∀ ch ∈ w, ch = '\n' ∨ ch = ' '

/-- A text that is portable wherever it stands outside of strings. -/
def PortableAnywhere (r : List Char) : Prop := ∀ since, isPortable (.outside since) r = true

/-- What may follow a value. -/
def EndsValue (r : List Char) : Prop := ∀ c ∈ r.head?, c ∈ ",]\x7d\n ".toList

/-- The characters that values start with. -/
def starts : List Char := "\"[\x7bntf-0123456789".toList

variable {w r : List Char} {c : Char}

theorem skipSpace_layout (hw : IsLayout w) (hc : isSpace c = false) :
    skipSpace (w ++ c :: r) = c :: r := by
  refine dropWhile_append_eq (fun ch hch => ?_) (by simpa using hc)
  rcases hw ch hch with rfl | rfl <;> rfl

theorem skipSpace_cons (hc : isSpace c = false) : skipSpace (c :: r) = c :: r :=
  skipSpace_layout (w := []) (by simp [IsLayout]) hc

theorem isSpace_of_starts (hc : c ∈ starts) : isSpace c = false := by
  have hall : ∀ c ∈ starts, isSpace c = false := forall_mem_of_all (by decide)
  exact hall c hc

theorem EndsValue.endsNumber (hr : EndsValue r) : EndsNumber r := by
  have hall : ∀ c ∈ ",]\x7d\n ".toList, c.isDigit = false ∧ c ≠ '.' ∧ c ≠ 'e' ∧ c ≠ 'E' :=
    forall_mem_of_all (by decide)
  exact fun c hc => hall c (hr c hc)

theorem endsValue_cons (hc : c ∈ ",]\x7d\n ".toList) : EndsValue (c :: r) := by
  intro d hd
  obtain rfl := Option.some.inj hd
  exact hc

theorem endsValue_layout (hw : IsLayout w) (hc : c ∈ ",]\x7d\n ".toList) :
    EndsValue (w ++ c :: r) := by
  cases w with
  | nil => exact endsValue_cons hc
  | cons ch w =>
    refine endsValue_cons ?_
    rcases hw ch List.mem_cons_self with rfl | rfl <;> decide

/-! ## Clear texts -/

/-- Characters that mean something to the scan of a text outside of strings. -/
def signals : List Char := "\":\tNI".toList

theorem PortableAnywhere.cons (hr : PortableAnywhere r) (hc : c ∉ signals) :
    PortableAnywhere (c :: r) := by
  have hne (d : Char) (hd : d ∈ signals) : c ≠ d := fun heq => hc (heq ▸ hd)
  have hletters : ¬ (c = 'N' ∨ c = 'I') :=
    not_or.mpr ⟨hne 'N' (by decide), hne 'I' (by decide)⟩
  intro since
  rw [isPortable, if_neg (hne '"' (by decide)), if_neg (hne ':' (by decide))]
  split
  · rename_i hblank
    have hspace : c = ' ' := by simpa [hne '\t' (by decide)] using hblank
    simp [hspace, hr _]
  · rw [decide_eq_false (not_or.mp hletters).1, decide_eq_false (not_or.mp hletters).2, hr none]
    rfl

/-- A text that is portable wherever it stands, as long as what follows is. -/
structure IsClear (text : List Char) : Prop where
  portable : ∀ {r : List Char}, PortableAnywhere r → PortableAnywhere (text ++ r)
  acceptable : ∀ c ∈ text, isAcceptable c = true

/-- A character that can stand anywhere. -/
def isClearChar (c : Char) : Bool := c ∉ signals && isAcceptable c

namespace IsClear

variable {text text' : List Char} {name s : String}

theorem append (h : IsClear text) (h' : IsClear text') : IsClear (text ++ text') where
  portable hr := by
    rw [List.append_assoc]
    exact h.portable (h'.portable hr)
  acceptable c hc := (List.mem_append.mp hc).elim (h.acceptable c) (h'.acceptable c)

theorem of_chars (h : text.all isClearChar = true) : IsClear text where
  portable hr := by
    induction text with
    | nil => exact hr
    | cons c text ih =>
      rw [List.all_cons, Bool.and_eq_true, isClearChar, Bool.and_eq_true, decide_eq_true_eq] at h
      exact (ih h.2).cons h.1.1
  acceptable c hc := (Bool.and_eq_true_iff.mp (List.all_eq_true.mp h c hc)).2

theorem cons (hc : isClearChar c = true) (h : IsClear text) : IsClear (c :: text) := by
  have hchar : IsClear [c] := of_chars (by simpa using hc)
  exact hchar.append h

theorem layout (hw : IsLayout w) : IsClear w :=
  of_chars (List.all_eq_true.mpr fun c hc => by rcases hw c hc with rfl | rfl <;> decide)

theorem acceptable_string (hs : isPortableText s = true) (h : IsClear text) :
    ∀ c ∈ '"' :: (escaped s.toList ++ '"' :: text), isAcceptable c = true := by
  intro c hc
  simp only [List.mem_cons, List.mem_append] at hc
  rcases hc with rfl | hc | rfl | hc
  · decide
  · exact List.all_eq_true.mp (Bool.and_eq_true_iff.mp hs).1 c hc
  · decide
  · exact h.acceptable c hc

theorem string (hs : isPortableText s = true) : IsClear ('"' :: (escaped s.toList ++ ['"'])) where
  portable {r} hr since := by
    rw [List.cons_append, List.append_assoc, isPortable_quote]
    exact isPortable_escaped (Bool.and_eq_true_iff.mp hs).2 (hr _)
  acceptable := acceptable_string hs (of_chars (by simp))

/-- A name and what stands behind its colon. -/
theorem member (hname : isPortableName name = true) (h : IsClear text) :
    IsClear ('"' :: (escaped name.toList ++ '"' :: ':' :: text)) := by
  obtain ⟨hs, hlength⟩ := Bool.and_eq_true_iff.mp hname
  rw [decide_eq_true_eq] at hlength
  refine ⟨fun {r} hr since => ?_, ?_⟩
  · rw [List.cons_append, List.append_assoc, isPortable_quote]
    refine isPortable_escaped (Bool.and_eq_true_iff.mp hs).2 ?_
    show isPortable _ (':' :: (text ++ r)) = true
    rw [isPortable_colon, h.portable hr none, Bool.and_true, Option.any_some, decide_eq_true_eq]
    omega
  · have hacceptable := acceptable_string hs h
    simp only [List.mem_cons, List.mem_append] at hacceptable ⊢
    rintro c (rfl | hc | rfl | rfl | hc)
    · decide
    · exact hacceptable c (.inr (.inl hc))
    · decide
    · decide
    · exact h.acceptable c hc

end IsClear

/-! ## Texts of values -/

variable {text rest v : List Char} {d : Data} {ds : List Data} {name : String}
  {ms : List (String × Data)}

/-- A text that is read as a value, whatever ends the value, and that is portable. -/
structure Prints (text : List Char) (d : Data) : Prop extends IsClear text where
  start : ∃ c t, text = c :: t ∧ c ∈ starts
  read : ∀ {fuel : Nat} {r : List Char}, 2 * text.length < fuel → EndsValue r →
    readValue id fuel (text ++ r) = .ok (d, r)

/-- What is read as a value that is neither a string nor between brackets. -/
theorem readValue_bare {fuel : Nat} (hc : c ≠ '"' ∧ c ≠ '\x7b' ∧ c ≠ '[') :
    readValue id (fuel + 1) (c :: r) =
      ((readWord? (c :: r)).map Except.ok).getD (readNumber (c :: r)) := by
  rw [readValue]
  · cases readWord? (c :: r) <;> rfl
  · simp [hc.1]
  · simp [hc.2.1]
  · simp [hc.2.2]

theorem readWord?_number {sign whole u : List Char} (hsign : sign = [] ∨ sign = ['-'])
    (hwhole : IsDigits whole) : readWord? (sign ++ (whole ++ u)) = none := by
  obtain ⟨d, t, rfl, hd⟩ := hwhole.eq_cons
  have hne (e : Char) (he : e.isDigit = false) : e ≠ d := (ne_of_class hd he).symm
  rcases hsign with rfl | rfl <;>
    simp [readWord?, words, List.isPrefixOf, hne 'n' rfl, hne 't' rfl, hne 'f' rfl, hne 'N' rfl,
      hne 'I' rfl, hne '-' rfl]

/-- A number is read as what it stands for. -/
theorem Prints.of_number (h : IsNumberText text d) : Prints text d := by
  obtain ⟨⟨sign, whole, part, power, htext, hnumber⟩, hread⟩ := h
  obtain ⟨c, t, hstart, hc⟩ := StartsNumber.of_parts (u := part ++ power) hnumber.signed
    hnumber.digits
  have hall : "0123456789-+.eE".toList.all isClearChar = true := by decide
  have hclear : text.all isClearChar = true := List.all_eq_true.mpr fun c hc =>
    List.all_eq_true.mp hall c (hnumber.mem_characters c (htext ▸ hc))
  refine ⟨.of_chars hclear, ⟨c, t, htext.trans hstart, ?_⟩, fun {fuel r} hfuel hr => ?_⟩
  · rcases hc with rfl | hc
    · decide
    · simpa using of_isDigit (p := fun c => c ∈ starts) (by decide) hc
  · obtain ⟨fuel, rfl⟩ : ∃ n, fuel = n + 1 := ⟨fuel - 1, by omega⟩
    have hread' := hread hr.endsNumber
    have hword : readWord? (text ++ r) = none := by
      rw [htext, List.append_assoc, List.append_assoc]
      exact readWord?_number hnumber.signed hnumber.digits
    rw [htext, hstart, List.cons_append] at hword hread' ⊢
    rw [readValue_bare ⟨hc.ne (by decide), hc.ne (by decide), hc.ne (by decide)⟩, hword]
    exact hread'

/-- A word is read as what it stands for. -/
theorem Prints.of_word (hstart : ∃ c t, text = c :: t ∧ c ∈ "ntf".toList)
    (hchars : text.all isClearChar = true) (hword : ∀ r, readWord? (text ++ r) = some (d, r)) :
    Prints text d := by
  obtain ⟨c, t, rfl, hstart⟩ := hstart
  have hall : ∀ c ∈ "ntf".toList, c ∈ starts ∧ c ≠ '"' ∧ c ≠ '\x7b' ∧ c ≠ '[' :=
    forall_mem_of_all (by decide)
  obtain ⟨hstarts, hc⟩ := hall c hstart
  refine ⟨.of_chars hchars, ⟨c, t, rfl, hstarts⟩, fun {fuel r} hfuel _ => ?_⟩
  obtain ⟨fuel, rfl⟩ : ∃ n, fuel = n + 1 := ⟨fuel - 1, by omega⟩
  rw [List.cons_append, readValue_bare hc, ← List.cons_append, hword]
  rfl

/-- A text in quotation marks is read as the text. -/
theorem Prints.of_string {s : String} (hs : isPortableText s = true) :
    Prints ('"' :: (escaped s.toList ++ ['"'])) (.text s) := by
  refine ⟨.string hs, ⟨_, _, rfl, by decide⟩, fun {fuel r} hfuel _ => ?_⟩
  obtain ⟨fuel, rfl⟩ : ∃ n, fuel = n + 1 := ⟨fuel - 1, by omega⟩
  have hlength := length_le_escaped s.toList
  simp only [List.length_cons, List.length_append, List.length_nil] at hfuel
  rw [List.cons_append, List.append_assoc, List.singleton_append, readValue,
    readString_escaped (by omega), String.ofList_toList]

/-! ## Items -/

/-- A text that is read as the items of a list, up to the bracket that closes it. -/
structure PrintsItems (text : List Char) (ds : List Data) : Prop extends IsClear text where
  start : ∃ c t, text = c :: t ∧ c ∈ starts
  read : ∀ {fuel : Nat} {done : List Data} {w r : List Char}, IsLayout w →
    2 * text.length + 1 < fuel →
    readItems id fuel done (text ++ (w ++ ']' :: r)) = .ok (.list (done.reverse ++ ds), r)

theorem Prints.lastItem (h : Prints text d) : PrintsItems text [d] := by
  refine ⟨h.toIsClear, h.start, fun {fuel done w r} hw hfuel => ?_⟩
  obtain ⟨fuel, rfl⟩ : ∃ n, fuel = n + 1 := ⟨fuel - 1, by omega⟩
  rw [readItems, h.read (by omega) (endsValue_layout hw (by decide))]
  dsimp only
  rw [skipSpace_layout hw (by decide)]
  simp

theorem Prints.item (h : Prints text d) (hw : IsLayout w) (hrest : PrintsItems rest ds) :
    PrintsItems (text ++ ',' :: (w ++ rest)) (d :: ds) := by
  obtain ⟨c, t, htext, hc⟩ := h.start
  obtain ⟨c', t', hrest', hc'⟩ := hrest.start
  refine ⟨h.toIsClear.append (.cons (by decide) (.append (.layout hw) hrest.toIsClear)),
    ⟨c, t ++ ',' :: (w ++ rest), by rw [htext]; rfl, hc⟩, fun {fuel done v r} hv hfuel => ?_⟩
  obtain ⟨fuel, rfl⟩ : ∃ n, fuel = n + 1 := ⟨fuel - 1, by omega⟩
  simp only [List.length_append, List.length_cons] at hfuel
  have hafter : readItems id fuel (d :: done) (rest ++ (v ++ ']' :: r)) =
      .ok (.list ((d :: done).reverse ++ ds), r) := hrest.read hv (by omega)
  have hskip : skipSpace (w ++ (rest ++ (v ++ ']' :: r))) = rest ++ (v ++ ']' :: r) := by
    rw [hrest', List.cons_append]
    exact skipSpace_layout hw (isSpace_of_starts hc')
  rw [List.append_assoc, List.cons_append, List.append_assoc, readItems,
    h.read (by omega) (endsValue_cons (by decide))]
  dsimp only
  rw [skipSpace_cons (by decide)]
  show readItems id fuel (d :: done) (skipSpace (w ++ (rest ++ (v ++ ']' :: r)))) = _
  rw [hskip, hafter, List.reverse_cons, List.append_assoc, List.singleton_append]

theorem PrintsItems.list (h : PrintsItems text ds) (hw : IsLayout w) (hv : IsLayout v) :
    Prints ('[' :: (w ++ (text ++ (v ++ [']'])))) (.list ds) := by
  obtain ⟨c, t, htext, hc⟩ := h.start
  have hclose : c ≠ ']' := by
    rintro rfl
    exact absurd hc (by decide)
  refine ⟨.cons (by decide) (.append (.layout hw) (h.toIsClear.append
    (.append (.layout hv) (.of_chars (by decide))))), ⟨_, _, rfl, by decide⟩,
    fun {fuel r} hfuel _ => ?_⟩
  obtain ⟨fuel, rfl⟩ : ∃ n, fuel = n + 1 := ⟨fuel - 1, by omega⟩
  simp only [List.length_append, List.length_cons] at hfuel
  have hskip : skipSpace (w ++ (text ++ (v ++ ']' :: r))) = text ++ (v ++ ']' :: r) := by
    rw [htext, List.cons_append]
    exact skipSpace_layout hw (isSpace_of_starts hc)
  rw [List.cons_append, List.append_assoc, List.append_assoc, List.append_assoc,
    List.singleton_append, readValue, hskip]
  split
  · rename_i heq
    rw [htext, List.cons_append] at heq
    exact absurd (List.cons.inj heq).1 hclose
  · exact h.read hv (by omega)

/-! ## Members -/

/-- A text that is read as the members of an object, up to the bracket that closes it. -/
structure PrintsMembers (text : List Char) (ms : List (String × Data)) : Prop
    extends IsClear text where
  start : ∃ t, text = '"' :: t
  read : ∀ {fuel : Nat} {done : List (String × Data)} {w r : List Char}, IsLayout w →
    2 * text.length + 1 < fuel →
    readMembers id fuel done (text ++ (w ++ '\x7d' :: r)) = .ok (.object (done.reverse ++ ms), r)

/-- A name and the text of its value. -/
def memberText (name : String) (text : List Char) : List Char :=
  '"' :: (escaped name.toList ++ '"' :: ':' :: ' ' :: text)

/-- A member is read before what follows its value is looked at. -/
theorem Prints.readMembers_eq (h : Prints text d) {fuel : Nat} {done : List (String × Data)}
    (hfuel : 2 * (memberText name text).length < fuel) (hr : EndsValue r) :
    (∀ u, skipSpace r = '\x7d' :: u → readMembers id (fuel + 1) done (memberText name text ++ r) =
      .ok (.object ((name, d) :: done).reverse, u)) ∧
    (∀ u, skipSpace r = ',' :: u → readMembers id (fuel + 1) done (memberText name text ++ r) =
      readMembers id fuel ((name, d) :: done) (skipSpace u)) := by
  obtain ⟨c, t, htext, hc⟩ := h.start
  have hlength := length_le_escaped name.toList
  simp only [memberText, List.length_cons, List.length_append] at hfuel
  have hsplit : memberText name text ++ r =
      '"' :: (escaped name.toList ++ '"' :: (':' :: ' ' :: (text ++ r))) := by
    rw [memberText, List.cons_append, List.append_assoc]
    rfl
  have hskip : skipSpace (' ' :: (text ++ r)) = text ++ r := by
    rw [htext, List.cons_append]
    exact skipSpace_layout (w := [' ']) (by simp [IsLayout]) (isSpace_of_starts hc)
  have hvalue : readValue id fuel (text ++ r) = .ok (d, r) := h.read (by omega) hr
  rw [hsplit]
  constructor <;> intro u hu <;>
    rw [readMembers, readString_escaped (by omega), String.ofList_toList] <;>
    simp only [skipSpace_cons (c := ':') (by decide), hskip, hvalue, hu, id]

theorem Prints.lastMember (hname : isPortableName name = true) (h : Prints text d) :
    PrintsMembers (memberText name text) [(name, d)] := by
  refine ⟨.member hname (.cons (by decide) h.toIsClear), ⟨_, rfl⟩,
    fun {fuel done w r} hw hfuel => ?_⟩
  obtain ⟨fuel, rfl⟩ : ∃ n, fuel = n + 1 := ⟨fuel - 1, by omega⟩
  rw [(h.readMembers_eq (by omega) (endsValue_layout hw (by decide))).1 r
    (skipSpace_layout hw (by decide)), List.reverse_cons]

theorem Prints.member (hname : isPortableName name = true) (h : Prints text d) (hw : IsLayout w)
    (hrest : PrintsMembers rest ms) :
    PrintsMembers (memberText name text ++ ',' :: (w ++ rest)) ((name, d) :: ms) := by
  obtain ⟨t, htext⟩ := hrest.start
  refine ⟨.append (.member hname (.cons (by decide) h.toIsClear))
    (.cons (by decide) (.append (.layout hw) hrest.toIsClear)), ⟨_, rfl⟩,
    fun {fuel done v r} hv hfuel => ?_⟩
  obtain ⟨fuel, rfl⟩ : ∃ n, fuel = n + 1 := ⟨fuel - 1, by omega⟩
  simp only [List.length_append, List.length_cons] at hfuel
  have hskip : skipSpace (w ++ (rest ++ (v ++ '\x7d' :: r))) = rest ++ (v ++ '\x7d' :: r) := by
    rw [htext, List.cons_append]
    exact skipSpace_layout hw (by decide)
  rw [List.append_assoc, List.cons_append, List.append_assoc,
    (h.readMembers_eq (by omega) (endsValue_cons (by decide))).2 _ (skipSpace_cons (by decide)),
    hskip, hrest.read hv (by omega), List.reverse_cons, List.append_assoc, List.singleton_append]

theorem PrintsMembers.object (h : PrintsMembers text ms) (hw : IsLayout w) (hv : IsLayout v) :
    Prints ('\x7b' :: (w ++ (text ++ (v ++ ['\x7d'])))) (.object ms) := by
  obtain ⟨t, htext⟩ := h.start
  refine ⟨.cons (by decide) (.append (.layout hw) (h.toIsClear.append
    (.append (.layout hv) (.of_chars (by decide))))), ⟨_, _, rfl, by decide⟩,
    fun {fuel r} hfuel _ => ?_⟩
  obtain ⟨fuel, rfl⟩ : ∃ n, fuel = n + 1 := ⟨fuel - 1, by omega⟩
  simp only [List.length_append, List.length_cons] at hfuel
  have hskip : skipSpace (w ++ (text ++ (v ++ '\x7d' :: r))) = text ++ (v ++ '\x7d' :: r) := by
    rw [htext, List.cons_append]
    exact skipSpace_layout hw (by decide)
  rw [List.cons_append, List.append_assoc, List.append_assoc, List.append_assoc,
    List.singleton_append, readValue, hskip]
  split
  · rename_i heq
    rw [htext, List.cons_append] at heq
    exact absurd (List.cons.inj heq).1 (by decide)
  · exact h.read hv (by omega)

/-! ## Data on lines -/

theorem isLayout_newline (depth : Nat) : IsLayout (newline depth).toList := by
  rw [newline, String.toList_ofList]
  refine List.forall_mem_cons.mpr ⟨.inl rfl, fun ch hch => .inr (List.eq_of_mem_replicate hch)⟩

theorem prints_null : Prints "null".toList .null :=
  .of_word ⟨'n', "ull".toList, rfl, by decide⟩ (by decide) fun _ => rfl

theorem prints_emptyList : Prints ['[', ']'] (.list []) := by
  refine ⟨.of_chars (by decide), ⟨_, _, rfl, by decide⟩, fun {fuel r} hfuel _ => ?_⟩
  obtain ⟨fuel, rfl⟩ : ∃ n, fuel = n + 1 := ⟨fuel - 1, by omega⟩
  rw [List.cons_append, List.singleton_append, readValue, skipSpace_cons (by decide)]
  rfl

theorem prints_emptyObject : Prints ['\x7b', '\x7d'] (.object []) := by
  refine ⟨.of_chars (by decide), ⟨_, _, rfl, by decide⟩, fun {fuel r} hfuel _ => ?_⟩
  obtain ⟨fuel, rfl⟩ : ∃ n, fuel = n + 1 := ⟨fuel - 1, by omega⟩
  rw [List.cons_append, List.singleton_append, readValue, skipSpace_cons (by decide)]
  rfl

theorem prints_scalar {s : Scalar} (hs : isPortableScalar s = true) :
    Prints (scalarText false s).toList (.scalar s) := by
  cases s with
  | bool b =>
    cases b
    · exact .of_word ⟨'f', "alse".toList, rfl, by decide⟩ (by decide) fun _ => rfl
    · exact .of_word ⟨'t', "rue".toList, rfl, by decide⟩ (by decide) fun _ => rfl
  | int i => exact .of_number (isNumberText_int (by simpa [isPortableScalar] using hs))
  | float x =>
    cases hx : x.shape with
    | finite negative m e => exact .of_number (isNumberText_float hx)
    | nan => simp [isPortableScalar, hx] at hs
    | infinite negative => simp [isPortableScalar, hx] at hs
  | text s =>
    rw [scalarText, toList_stringText]
    exact .of_string hs

mutual

/-- Portable data on lines is read as the data. -/
theorem prints_linesAt (depth : Nat) : (d : Data) → d.isPortable = true →
    Prints (linesAt depth d).toList d
  | .null, _ => by
    rw [linesAt]
    exact prints_null
  | .scalar s, h => by
    rw [linesAt]
    exact prints_scalar h
  | .list [], _ => by
    rw [linesAt]
    exact prints_emptyList
  -- items and members stand one level deeper than their brackets
  | .list (d :: ds), h => by
    obtain ⟨hd, hds⟩ := Bool.and_eq_true_iff.mp h
    have hitems := printsItems_itemLines (depth + 1) ds hds (prints_linesAt (depth + 1) d hd)
    have hlist := hitems.list (isLayout_newline (depth + 1)) (isLayout_newline depth)
    rw [linesAt]
    simpa using hlist
  | .object [], _ => by
    rw [linesAt]
    exact prints_emptyObject
  | .object ((name, d) :: ms), h => by
    obtain ⟨hmember, hms⟩ := Bool.and_eq_true_iff.mp h
    obtain ⟨hname, hd⟩ := Bool.and_eq_true_iff.mp hmember
    have hmembers := printsMembers_memberLines (depth + 1) ms hms hname
      (prints_linesAt (depth + 1) d hd)
    have hobject := hmembers.object (isLayout_newline (depth + 1)) (isLayout_newline depth)
    rw [linesAt]
    simpa [toList_stringText, memberText] using hobject

theorem printsItems_itemLines (depth : Nat) : (ds : List Data) → Data.arePortable ds = true →
    ∀ {text d}, Prints text d → PrintsItems (text ++ (itemLines depth ds).toList) (d :: ds)
  | [], _, _, _, hd => by
    rw [itemLines, String.toList_empty, List.append_nil]
    exact hd.lastItem
  | d :: ds, h, _, _, hd => by
    obtain ⟨hd', hds⟩ := Bool.and_eq_true_iff.mp h
    have hrest := printsItems_itemLines depth ds hds (prints_linesAt depth d hd')
    rw [itemLines]
    simpa using hd.item (isLayout_newline depth) hrest

theorem printsMembers_memberLines (depth : Nat) : (ms : List (String × Data)) →
    Data.havePortable ms = true → ∀ {text name d}, isPortableName name = true → Prints text d →
    PrintsMembers (memberText name text ++ (memberLines depth ms).toList) ((name, d) :: ms)
  | [], _, _, _, _, hname, hd => by
    rw [memberLines, String.toList_empty, List.append_nil]
    exact hd.lastMember hname
  | (name, d) :: ms, h, _, _, _, hname', hd' => by
    obtain ⟨hmember, hms⟩ := Bool.and_eq_true_iff.mp h
    obtain ⟨hname, hd⟩ := Bool.and_eq_true_iff.mp hmember
    have hrest := printsMembers_memberLines depth ms hms hname (prints_linesAt depth d hd)
    rw [memberLines]
    simpa [toList_stringText, memberText] using hd'.member hname' (isLayout_newline depth) hrest

end

/-! ## Whole texts -/

variable {d : Data}

/-- Portable data that is written is read as the data. -/
theorem readText_indented (h : d.isPortable = true) :
    readText id (indented d).toList = .ok d := by
  have hprints : Prints (indented d).toList d := prints_linesAt 0 d h
  obtain ⟨c, t, htext, hc⟩ := hprints.start
  have hread : readValue id (2 * (indented d).toList.length + 1) ((indented d).toList ++ []) =
      .ok (d, []) := hprints.read (by omega) (by simp [EndsValue])
  have hmarks : ∀ c ∈ starts, c.toNat ≠ 0xFEFF := forall_mem_of_all (by decide)
  have hmark := hmarks c hc
  rw [htext] at hread ⊢
  rw [readText, if_neg hmark, readText.go, skipSpace_cons (isSpace_of_starts hc)]
  rw [List.append_nil] at hread
  rw [hread]
  rfl

/-- Portable data is written as a portable text. -/
theorem portable_indented (h : d.isPortable = true) : Portable (indented d).toList := by
  have hprints : Prints (indented d).toList d := prints_linesAt 0 d h
  obtain ⟨c, t, htext, hc⟩ := hprints.start
  refine ⟨List.all_eq_true.mpr hprints.acceptable, ?_, ?_⟩
  · rw [htext, List.takeWhile_cons_of_neg (by simp [isSpace_of_starts hc])]
    exact List.not_mem_nil
  · have hplaces := hprints.portable (r := []) (fun _ => rfl) none
    rwa [List.append_nil] at hplaces

end Json

end DesignTokens
