import DesignTokens.Json.Printer
import DesignTokens.Proofs.Json.Quoted

/-!
# Texts as strings

A text in quotation marks, with an escape for what cannot stand there, is read as the text
(`readString_escaped`).  Whether the string is portable depends on the text alone, not on what
follows the string (`isPortable_escaped`).
-/

namespace DesignTokens.Json

open Yaml Yaml.Lexeme

/-- A text between quotation marks. -/
def escaped (cs : List Char) : List Char := cs.flatMap (stringChar false)

@[simp] theorem escaped_nil : escaped [] = [] := rfl

@[simp] theorem escaped_cons (c : Char) (cs : List Char) :
    escaped (c :: cs) = stringChar false c ++ escaped cs := rfl

theorem toList_stringText (s : String) :
    (stringText false s).toList = '"' :: (escaped s.toList ++ ['"']) := by
  rw [stringText, String.toList_ofList]
  rfl

/-! ## Characters -/

theorem hexValue?_hexDigit : ∀ d < 16, hexValue? (Text.hexDigit d) = some d := by decide

theorem hexQuad?_hexDigits {n : Nat} (hn : n < 65536) (t : List Char) :
    hexQuad? (Text.hexDigits 4 n ++ t) = some (n, t) := by
  have hdigit (m : Nat) : hexValue? (Text.hexDigit (m % 16)) = some (m % 16) :=
    hexValue?_hexDigit _ (Nat.mod_lt m (by decide))
  simp only [Text.hexDigits, List.nil_append, List.cons_append, hexQuad?, hdigit]
  simp only [Option.bind_eq_bind, Option.bind_some, Option.some.injEq, Prod.mk.injEq, and_true]
  omega

theorem isHexDigit_hexDigits (n : Nat) : ∀ d ∈ Text.hexDigits 4 n, isHexDigit d = true := by
  have hall : ∀ d < 16, isHexDigit (Text.hexDigit d) = true := by decide
  have hdigit (m : Nat) := hall (m % 16) (Nat.mod_lt m (by decide))
  simp [Text.hexDigits, hdigit]

/-- How a character stands in a string: after a backslash, by its number, or as it is. -/
inductive Stands : Char → List Char → Prop where
  /-- An escape of one letter. -/
  | letter {e c : Char} : e ≠ 'u' → escaped? e = some c → Stands c ['\\', e]
  /-- A control character. -/
  | number {c : Char} : c.toNat < 32 → Stands c (unicodeEscape c.toNat)
  /-- Any other character. -/
  | plain {c : Char} : c ≠ '"' → c ≠ '\\' → 32 ≤ c.toNat → Stands c [c]

theorem stands_stringChar (c : Char) : Stands c (stringChar false c) := by
  unfold stringChar
  split
  · rename_i h
    rcases h with rfl | rfl <;> exact .letter (by decide) rfl
  rename_i hspecial
  obtain ⟨hquote, hescape⟩ := not_or.mp hspecial
  split
  · rename_i h
    exact h ▸ .letter (by decide) rfl
  split
  · rename_i h
    exact h ▸ .letter (by decide) rfl
  split
  · rename_i h
    exact h ▸ .letter (by decide) rfl
  split
  · rename_i h
    exact eq_ofNat h ▸ .letter (by decide) rfl
  split
  · rename_i h
    exact eq_ofNat h ▸ .letter (by decide) rfl
  split
  · exact .number ‹_›
  · exact .plain hquote hescape (by omega)

variable {c : Char} {w t : List Char}

theorem readUnicodeEscape_of_lt {n : Nat} (hn : n < 32) (ht : t ≠ []) :
    readUnicodeEscape (Text.hexDigits 4 n ++ t) = .ok (Char.ofNat n, t) := by
  have hhigh : isHighHalf n = false := by
    rw [isHighHalf, decide_eq_false (by omega), Bool.false_and]
  have hlow : isLowHalf n = false := by
    rw [isLowHalf, decide_eq_false (by omega), Bool.false_and]
  have hchar : charOfUnit n = Char.ofNat n := by simp [charOfUnit, hhigh, hlow]
  have hdrop : (Text.hexDigits 4 n ++ t).drop 4 = t := rfl
  unfold readUnicodeEscape
  rw [hdrop, if_neg (by simpa using ht), hexQuad?_hexDigits (by omega)]
  dsimp only
  split
  · rw [hhigh, Bool.false_and, if_neg (by decide), hchar]
  · rw [hchar]

theorem Stands.ne_nil (h : Stands c w) : w ≠ [] := by
  cases h <;> simp [unicodeEscape]

/-- A character of a string is read from how it stands there. -/
theorem Stands.read (h : Stands c w) (ht : t ≠ []) (start done : List Char) (fuel : Nat) :
    readStringWithin start (fuel + 1) done (w ++ t) = readStringWithin start fuel (c :: done) t := by
  cases h with
  | @letter e c hne hescaped =>
    simp only [List.cons_append, List.nil_append, readStringWithin]
    rw [hescaped]
  | number hlt =>
    rw [unicodeEscape, List.cons_append, List.cons_append]
    simp only [readStringWithin]
    rw [readUnicodeEscape_of_lt hlt ht, Char.ofNat_toNat]
  | plain hquote hescape hlow =>
    simp only [List.cons_append, List.nil_append]
    rw [readStringWithin, if_neg (by omega)]
    · exact hquote
    · exact hescape

/-! ## Strings -/

/-- A string is read as its text. -/
theorem readString_escaped {fuel : Nat} {cs r : List Char} (hfuel : cs.length < fuel) :
    readString fuel (escaped cs ++ '"' :: r) = .ok (String.ofList cs, r) := by
  -- the characters that are read already come first
  have key (start done : List Char) : readStringWithin start fuel done (escaped cs ++ '"' :: r) =
      .ok (String.ofList (done.reverse ++ cs), r) := by
    induction cs generalizing fuel done with
    | nil =>
      obtain ⟨fuel, rfl⟩ := Nat.exists_eq_add_of_lt hfuel
      simp [readStringWithin]
    | cons c cs ih =>
      obtain ⟨fuel, rfl⟩ : ∃ n, fuel = n + 1 := ⟨fuel - 1, by omega⟩
      rw [List.length_cons] at hfuel
      rw [escaped_cons, List.append_assoc, (stands_stringChar c).read (by simp), ih (by omega)]
      simp
  rw [readString, key]
  rfl

theorem length_le_escaped (cs : List Char) : cs.length ≤ (escaped cs).length := by
  induction cs with
  | nil => exact Nat.le_refl _
  | cons c cs ih =>
    have hpos := List.length_pos_iff.mpr (stands_stringChar c).ne_nil
    rw [escaped_cons, List.length_append, List.length_cons]
    omega

/-! ## Portable strings -/

/-- A text whose string means the same in YAML. -/
def isPortableText (s : String) : Bool :=
  (escaped s.toList).all isAcceptable && isPortable (.inside 1) (escaped s.toList ++ ['"'])

/-- Whether a character stands for itself does not depend on what follows the string. -/
theorem isKept_close (ch : Char) (w r : List Char) :
    isKept ch (w ++ '"' :: r) = isKept ch (w ++ ['"']) := by
  have hhead : (w ++ '"' :: r).head? = (w ++ ['"']).head? := by cases w <;> rfl
  have htriple (d : Char) (hd : d ≠ '"') : (Cursor.start (w ++ '"' :: r)).atTriple d =
      (Cursor.start (w ++ ['"'])).atTriple d := by
    -- a mark of three characters and the end of its word are at most four characters
    rcases w with _ | ⟨x, _ | ⟨y, _ | ⟨z, w⟩⟩⟩
    · simp [Cursor.atTriple, Cursor.start, hd.symm]
    · simp [Cursor.atTriple, Cursor.start, hd.symm]
    · simp [Cursor.atTriple, Cursor.start, hd.symm]
    · cases w <;> simp [Cursor.atTriple, Cursor.start, Cursor.peekAt]
  rw [isKept, isKept, hhead, Cursor.atSeparator, Cursor.atSeparator, htriple '-' (by decide),
    htriple '.' (by decide)]

/-- A string is portable when its text is, and what follows it is portable. -/
theorem isPortable_escaped {cs r : List Char} {m n : Nat}
    (hcs : isPortable (.inside m) (escaped cs ++ ['"']) = true)
    (hr : isPortable (.outside (some (n + (escaped cs).length + 1))) r = true) :
    isPortable (.inside n) (escaped cs ++ '"' :: r) = true := by
  induction cs generalizing m n with
  | nil => simpa using hr
  | cons c cs ih =>
    rw [escaped_cons, List.append_assoc] at hcs ⊢
    rw [escaped_cons, List.length_append, ← Nat.add_assoc] at hr
    have hstands := stands_stringChar c
    generalize stringChar false c = w at hcs hr hstands ⊢
    cases hstands with
    | letter =>
      simp only [List.cons_append, List.nil_append, isPortable_escape] at hcs ⊢
      exact ih hcs hr
    | number hlt =>
      have hhex := isHexDigit_hexDigits c.toNat
      simp only [unicodeEscape, List.cons_append, isPortable_escape, isPortable_digits hhex]
        at hcs ⊢
      exact ih hcs hr
    | plain hquote hescape =>
      rw [List.singleton_append, isPortable_inside hquote hescape, Bool.and_eq_true] at hcs ⊢
      exact ⟨(isKept_close ..).trans hcs.1, ih hcs.2 hr⟩

end DesignTokens.Json
