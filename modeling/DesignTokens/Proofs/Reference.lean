import DesignTokens.Proofs.Text
import DesignTokens.Reference

/-!
# Writing references

A reference that was read has a path without marks, and a mode without marks if it has one.  So it
can be written, and the written form is read back as the same reference.
-/

namespace DesignTokens.Reference

/-- The names of a reference have no marks in them, and there are names. -/
structure WellFormed (r : Reference) : Prop where
  path : isPath false r.target.toList = true
  target : ∀ c ∈ r.target.toList, isMark c = false
  mode : ∀ m, r.writtenMode = some m → m ≠ "" ∧ ∀ c ∈ m.toList, isMark c = false

theorem isMark_of_mem_takeWhile {s : List Char} {c : Char}
    (h : c ∈ s.takeWhile fun c => !isMark c) : isMark c = false := by
  simpa using List.mem_takeWhile_imp h

/-- What stands before a closing brace is the whole written form, but a line break may follow. -/
theorem eq_text_of_closed {s : String} {r : Reference} {u tail : List Char}
    (hs : s.toList = u ++ tail) (htail : tail = ['\x7d'] ∨ tail = ['\x7d', '\n'])
    (htext : r.text.toList = u ++ ['\x7d']) : s = r.text ∨ s = r.text ++ "\n" := by
  have hbreak : (r.text ++ "\n").toList = u ++ ['\x7d', '\n'] := by
    simp [String.toList_append, htext]
  refine htail.imp (fun h => ?_) fun h => ?_
  · rw [← String.toList_inj, hs, htext, h]
  · rw [← String.toList_inj, hs, hbreak, h]

/-- A reference that was read is well formed, and it was read from its written form, perhaps with a
line break behind it. -/
theorem spec_of_parse? {s : String} {r : Reference} (h : parse? s = some r) :
    r.WellFormed ∧ (s = r.text ∨ s = r.text ++ "\n") := by
  rw [parse?, parseChars?.eq_def] at h
  split at h
  · rename_i rest hopen
    dsimp only at h
    split at h
    · simp at h
    · rename_i hpath
      -- the path stops at the first mark
      have hname : ∀ c ∈ rest.takeWhile (fun c => !isMark c), isMark c = false :=
        fun c => isMark_of_mem_takeWhile
      have hrest := takeWhile_append_drop (fun c => !isMark c) rest
      generalize rest.takeWhile (fun c => !isMark c) = name at h hpath hname hrest
      split at h
      · -- a mode is written, and it stops at the next mark
        rename_i t hdrop
        have hmode : ∀ c ∈ t.takeWhile (fun c => !isMark c), isMark c = false :=
          fun c => isMark_of_mem_takeWhile
        have ht := List.takeWhile_append_dropWhile (p := fun c => !isMark c) (l := t)
        generalize t.takeWhile (fun c => !isMark c) = mode at h hmode ht
        rw [hdrop, ← ht] at hrest
        simp only [Option.some.injEq, Option.map_some] at h
        split at h
        · simp at h
        · rename_i hempty
          have hne : String.ofList mode ≠ "" := fun heq =>
            hempty (by simpa using congrArg String.toList heq)
          split at h
          · rename_i hclose
            obtain rfl := Option.some.inj h
            refine ⟨⟨by simpa using hpath, by simpa using hname, ?_⟩, ?_⟩
            · rintro m hm
              obtain rfl := Option.some.inj hm
              exact ⟨hne, by simpa using hmode⟩
            · refine eq_text_of_closed (u := '\x7b' :: (name ++ '#' :: mode)) ?_
                (by simpa using hclose) ?_
              · simp [hopen, ← hrest]
              · simp [text, hne, String.toList_append]
          · simp at h
      · simp only [reduceCtorEq, if_false, Option.map_none] at h
        split at h
        · rename_i hclose
          obtain rfl := Option.some.inj h
          -- without a mode there is nothing else to ask
          refine ⟨⟨by simpa using hpath, by simpa using hname, by simp⟩, ?_⟩
          refine eq_text_of_closed (u := '\x7b' :: name) ?_ (by simpa using hclose) ?_
          · rw [hopen, List.cons_append, hrest]
          · simp [text, String.toList_append]
        · simp at h
  · simp at h

/-- A reference that was read is well formed. -/
theorem wellFormed_of_parse? {s : String} {r : Reference} (h : parse? s = some r) :
    r.WellFormed :=
  (spec_of_parse? h).1

theorem takeWhile_isMark {s t : List Char} {c : Char} (hs : ∀ d ∈ s, isMark d = false)
    (hc : isMark c = true) : (s ++ c :: t).takeWhile (fun d => !isMark d) = s := by
  rw [List.takeWhile_append_of_pos (by simpa using hs)]
  simp [hc]

theorem dropWhile_isMark {s t : List Char} {c : Char} (hs : ∀ d ∈ s, isMark d = false)
    (hc : isMark c = true) : (s ++ c :: t).dropWhile (fun d => !isMark d) = c :: t := by
  rw [List.dropWhile_append_of_pos (by simpa using hs)]
  simp [hc]

/-- A well-formed reference is read from its written form, also with a line break behind it. -/
theorem parse?_text_append {r : Reference} (h : r.WellFormed) {tail : String}
    (htail : tail = "" ∨ tail = "\n") : parse? (r.text ++ tail) = some r := by
  obtain ⟨target, written⟩ := r
  obtain ⟨hpath, htarget, hmode⟩ := h
  dsimp only at hpath htarget hmode
  have hclose : isMark '\x7d' = true := by decide
  have hhash : isMark '#' = true := by decide
  have htail : tail = "" ∨ tail.toList = ['\n'] := htail.imp id fun h => by simp [h]
  cases written with
  | none =>
    have htext : (text ⟨target, none⟩ ++ tail).toList =
        '\x7b' :: (target.toList ++ '\x7d' :: tail.toList) := by
      simp [text, String.toList_append]
    rw [parse?, htext, parseChars?]
    simpa [takeWhile_isMark htarget hclose, hpath] using htail.resolve_left
  | some m =>
    -- the path stops at the sign before the mode, and the mode at the closing brace
    obtain ⟨hne, hm⟩ := hmode m rfl
    have htext : (text ⟨target, some m⟩ ++ tail).toList =
        '\x7b' :: (target.toList ++ '#' :: (m.toList ++ '\x7d' :: tail.toList)) := by
      simp [text, hne, String.toList_append]
    have hempty : m.toList ≠ [] := by simpa using hne
    rw [parse?, htext, parseChars?]
    simpa [takeWhile_isMark htarget hhash, hpath, takeWhile_isMark hm hclose,
      dropWhile_isMark hm hclose, hempty] using htail.resolve_left

theorem parse?_text {r : Reference} (h : r.WellFormed) : parse? r.text = some r := by
  have hread : parse? (r.text ++ "") = some r := parse?_text_append h (.inl rfl)
  simpa using hread

/-- What is read as a reference is its written form, perhaps with a line break behind it. -/
theorem parse?_eq_some_iff {s : String} {r : Reference} :
    parse? s = some r ↔ r.WellFormed ∧ (s = r.text ∨ s = r.text ++ "\n") := by
  refine ⟨spec_of_parse?, ?_⟩
  rintro ⟨h, rfl | rfl⟩
  · exact parse?_text h
  · exact parse?_text_append h (.inr rfl)

/-- The written form of a reference that was read is read as that reference. -/
theorem parse?_text_of_parse? {s : String} {r : Reference} (h : parse? s = some r) :
    parse? r.text = some r :=
  parse?_text (wellFormed_of_parse? h)

/-- The written form of a reference opens like one. -/
theorem isOpenedBy_text (r : Reference) : isOpenedBy r.text = true := by
  obtain ⟨target, written⟩ := r
  cases written with
  | none => simp [isOpenedBy, text, String.toList_append]
  | some m => by_cases hm : m = "" <;> simp [isOpenedBy, text, hm, String.toList_append]

end DesignTokens.Reference
