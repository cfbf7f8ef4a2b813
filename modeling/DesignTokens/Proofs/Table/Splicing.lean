import DesignTokens.Proofs.Resolution.Values
import DesignTokens.Proofs.Value.Writing
import DesignTokens.Table.ToData

/-!
# Lists of font families that were spliced

A document has a list of font families slot by slot, and a table has it family by family.  To find
the slots again, a walk goes through the families with two counters, one for the families that were
passed and one for the slots that were put back.  A reference to an empty list passes no family, but
no walk meets a reference twice.  So every walk returns (`Walk.exists_returns`), and what it returns
is what is written (`familiesAsWritten_of_returns`).  The main statement is that splicing is undone
(`splicing_undone`).
-/

namespace DesignTokens

open Outcome Template Written

/-! ## Slots -/

/-- A slot of a list of font families. -/
inductive Template.FamilySlot : Template → Prop where
  /-- The name of a family. -/
  | name (s : String) : FamilySlot (.text s)
  /-- A reference whose families become part of the list. -/
  | reference (h : Hole) : h.spliced = true → FamilySlot (.hole h)

namespace ReferenceTree

/-- Whether a step leads to a slot that is not before another one. -/
def isFrom (slot : Nat) : Step → Bool
  | .index n => slot ≤ n
  | .field _ => false

/-- The number of known parts that are not before a slot. -/
def countFrom (slot : Nat) : ReferenceTree → Nat
  | .reference _ => 0
  | .parts children => children.countP fun c => isFrom slot c.1

theorem isFrom_of_succ {slot : Nat} {step : Step} (h : isFrom (slot + 1) step = true) :
    isFrom slot step = true := by
  cases step with
  | field name => exact h
  | index n =>
    simp only [isFrom, decide_eq_true_eq] at h ⊢
    omega

theorem countFrom_succ_le (slot : Nat) (tree : ReferenceTree) :
    tree.countFrom (slot + 1) ≤ tree.countFrom slot := by
  cases tree with
  | reference r => exact Nat.le_refl _
  | parts children => exact List.countP_mono_left fun c _ h => isFrom_of_succ h

/-- A part at a slot is counted for that slot, but not for the slots after it. -/
theorem countFrom_succ_lt {slot : Nat} {tree part : ReferenceTree}
    (h : tree.child? (.index slot) = some part) :
    tree.countFrom (slot + 1) < tree.countFrom slot := by
  cases tree with
  | reference r => simp [child?] at h
  | parts children =>
    obtain ⟨c, hfind, -⟩ := Option.map_eq_some_iff.mp h
    obtain ⟨hstep, before, after, rfl, -⟩ := List.find?_eq_some_iff_append.mp hfind
    have hstep : c.1 = .index slot := by simpa using hstep
    have hhere : isFrom slot c.1 = true := by simp [hstep, isFrom]
    have hlater : isFrom (slot + 1) c.1 = false := by simp [hstep, isFrom]
    -- what stands before and after that part is counted at least as often
    have hbefore := countFrom_succ_le slot (.parts before)
    have hafter := countFrom_succ_le slot (.parts after)
    simp only [countFrom] at hbefore hafter
    simp only [countFrom, List.countP_append, List.countP_cons, hhere, hlater, if_true,
      Bool.false_eq_true, if_false]
    omega

theorem countFrom_le_partCount (slot : Nat) (tree : ReferenceTree) :
    tree.countFrom slot ≤ Table.partCount tree := by
  cases tree with
  | reference r => exact Nat.le_refl _
  | parts children => exact List.countP_le_length

/-- The tree of an item is that of the template at its position. -/
theorem child?_itemReferences (items : List Template) (n j : Nat) :
    (parts (itemReferences n items)).child? (.index j) =
      if j < n then none else items[j - n]?.bind references? := by
  induction items generalizing n with
  | nil => simp [itemReferences, child?]
  | cons t ts ih =>
    have hrest := ih (n + 1)
    rw [child?] at hrest ⊢
    rcases Nat.lt_trichotomy j n with hlt | rfl | hgt
    · rw [if_pos (by omega)] at hrest
      rw [if_pos hlt, itemReferences]
      split
      · rw [List.find?_cons_of_neg (by simp; omega), hrest]
      · exact hrest
    · rw [if_pos (by omega)] at hrest
      rw [if_neg (by omega), Nat.sub_self, itemReferences]
      split
      · rename_i tree htree
        simp [htree]
      · rename_i htree
        simpa [htree] using hrest
    · -- the position is behind the first item
      have hindex : j - n = j - (n + 1) + 1 := by omega
      rw [if_neg (by omega)] at hrest
      rw [if_neg (by omega), hindex, List.getElem?_cons_succ, ← hrest, itemReferences]
      split
      · rw [List.find?_cons_of_neg (by simp; omega)]
      · rfl

end ReferenceTree

namespace Table

/-- What a tree knows of slots are references, and their targets are in the table. -/
def Knows (t : Table) (references : ReferenceTree) : Prop :=
  ∀ slot part, references.child? (.index slot) = some part →
    ∃ r target, part = .reference r ∧ t.target r = .ok target

variable {t : Table} {references : ReferenceTree} {items : List Data}

/-! ## Walks -/

/-- How far a list of families was put back. -/
structure Walk where
  /-- The number of families that were passed. -/
  position : Nat
  /-- The slot that comes next. -/
  slot : Nat
  /-- The slots that were put back. -/
  restored : List Written

namespace Walk

/-- The walk that has passed nothing. -/
def start : Walk := ⟨0, 0, []⟩

/-- The walk one slot further, or none when all families were passed. -/
def next (t : Table) (references : ReferenceTree) (items : List Data) (w : Walk) :
    Except Fault (Option Walk) :=
  match items[w.position]? with
  | none => .ok none
  | some family =>
    match references.child? (.index w.slot) with
    | none => .ok (some ⟨w.position + 1, w.slot + 1, w.restored ++ [.ofData family]⟩)
    | some (.parts _) => .error .notReference
    | some (.reference r) => do
      let target ← t.target r
      return some ⟨w.position + spliceLength target, w.slot + 1, w.restored ++ [.text r.text]⟩

/-- What a walk returns after finitely many slots. -/
inductive Returns (t : Table) (references : ReferenceTree) (items : List Data) :
    Walk → Except Fault (List Written) → Prop where
  /-- All families were passed. -/
  | done {w : Walk} : w.next t references items = .ok none →
      Returns t references items w (.ok w.restored)
  /-- The slot that comes next cannot be put back. -/
  | failed {w : Walk} {e : Fault} : w.next t references items = .error e →
      Returns t references items w (.error e)
  /-- The walk goes on. -/
  | further {w w' : Walk} {x : Except Fault (List Written)} :
      w.next t references items = .ok (some w') → Returns t references items w' x →
      Returns t references items w x

/-- A walk goes on by one family that is taken over, or by a reference that passes as many families
as it stands for. -/
theorem next_cases {w w' : Walk} (h : w.next t references items = .ok (some w')) :
    w.position < items.length ∧ w'.slot = w.slot + 1 ∧
      (∃ part, w'.restored = w.restored ++ [part]) ∧
      (references.child? (.index w.slot) = none ∧ w'.position = w.position + 1 ∨
        ∃ r target, references.child? (.index w.slot) = some (.reference r) ∧
          t.target r = .ok target ∧ w'.position = w.position + spliceLength target) := by
  rw [next] at h
  split at h
  · simp at h
  · rename_i family hfamily
    have hlt : w.position < items.length := (List.getElem?_eq_some_iff.mp hfamily).1
    split at h
    · rename_i hchild
      obtain rfl := Option.some.inj (Except.ok.inj h)
      exact ⟨hlt, rfl, ⟨_, rfl⟩, .inl ⟨hchild, rfl⟩⟩
    · simp at h
    · rename_i r hchild
      obtain ⟨target, htarget, hnext⟩ := bind_eq_ok.mp h
      obtain rfl := Option.some.inj (pure_eq_ok.mp hnext)
      exact ⟨hlt, rfl, ⟨_, rfl⟩, .inr ⟨r, target, hchild, htarget, rfl⟩⟩

theorem next_ne_error (hknows : t.Knows references) (w : Walk) (e : Fault) :
    w.next t references items ≠ .error e := by
  rw [next]
  split
  · simp
  · split
    · simp
    · rename_i children hchild
      obtain ⟨r, target, heq, -⟩ := hknows _ _ hchild
      cases heq
    · rename_i r hchild
      obtain ⟨_, target, heq, htarget⟩ := hknows _ _ hchild
      cases heq
      simp [htarget, bind, Except.bind, pure, Except.pure]

/-! ## Walks return -/

/-- A bound on the number of slots that are left: each of them passes a family or has a reference
that no later slot has. -/
def rank (references : ReferenceTree) (items : List Data) (w : Walk) : Nat :=
  items.length - w.position + references.countFrom w.slot

theorem rank_next {w w' : Walk} (h : w.next t references items = .ok (some w')) :
    w'.rank references items < w.rank references items := by
  obtain ⟨hlt, hslot, -, ⟨-, hposition⟩ | ⟨r, target, hchild, -, hposition⟩⟩ := next_cases h
  · -- a family is passed, and no reference is added
    have hcount := references.countFrom_succ_le w.slot
    rw [rank, rank, hslot, hposition]
    omega
  · -- the target may be an empty list, but then there is one reference less
    have hcount := ReferenceTree.countFrom_succ_lt hchild
    rw [rank, rank, hslot, hposition]
    omega

theorem rank_start_le (references : ReferenceTree) (items : List Data) :
    start.rank references items ≤ items.length + partCount references := by
  have hcount := references.countFrom_le_partCount 0
  dsimp only [rank, start]
  omega

/-- Every walk returns, wherever it stands and whatever its references stand for. -/
theorem exists_returns (t : Table) (references : ReferenceTree) (items : List Data) (w : Walk) :
    ∃ x, Returns t references items w x := by
  induction hrank : w.rank references items using Nat.strongRecOn generalizing w with
  | ind n ih =>
    cases hnext : w.next t references items with
    | error e => exact ⟨_, .failed hnext⟩
    | ok further =>
      cases further with
      | none => exact ⟨_, .done hnext⟩
      | some w' =>
        obtain ⟨x, hx⟩ := ih _ (hrank ▸ rank_next hnext) w' rfl
        exact ⟨x, .further hnext hx⟩

/-- Where all references have targets, no walk fails. -/
theorem Returns.exists_slots (hknows : t.Knows references) {w : Walk}
    {x : Except Fault (List Written)} (h : Returns t references items w x) :
    ∃ slots, x = .ok slots := by
  induction h with
  | done _ => exact ⟨_, rfl⟩
  | failed hnext => exact absurd hnext (next_ne_error hknows _ _)
  | further _ _ ih => exact ih

/-- A walk puts back at most as many slots as its rank says. -/
theorem Returns.length_le {w : Walk} {x : Except Fault (List Written)}
    (h : Returns t references items w x) {slots : List Written} (hx : x = .ok slots) :
    slots.length ≤ w.restored.length + w.rank references items := by
  induction h with
  | done _ =>
    obtain rfl := Except.ok.inj hx
    omega
  | failed _ => cases hx
  | further hnext _ ih =>
    have hrest := ih hx
    have hrank := rank_next hnext
    obtain ⟨-, -, ⟨part, hpart⟩, -⟩ := next_cases hnext
    rw [hpart, List.length_append, List.length_singleton] at hrest
    omega

/-! ## What is written -/

/-- The families that were not passed. -/
def left (items : List Data) (w : Walk) : List (Except Fault Written) :=
  (items.drop w.position).map fun d => .ok (.ofData d)

/-- What was put back, and what is made of the families that are left. -/
def answer (t : Table) (references : ReferenceTree) (items : List Data) (fuel : Nat) (w : Walk) :
    Except Fault (List Written) :=
  (w.restored ++ ·) <$> restoreFamilies t references fuel w.slot (w.left items)

theorem left_of_lt {w : Walk} (h : w.position < items.length) :
    w.left items = .ok (.ofData items[w.position]) ::
      (items.drop (w.position + 1)).map fun d => .ok (.ofData d) := by
  rw [left, List.drop_eq_getElem_cons h, List.map_cons]

/-- A slot that is put back counts with those before it. -/
theorem map_append_cons (restored : List Written) (part : Written)
    (x : Except Fault (List Written)) :
    (restored ++ ·) <$> (x >>= fun rest => pure (part :: rest)) =
      ((restored ++ [part]) ++ ·) <$> x := by
  cases x <;> simp [bind, Except.bind, Functor.map, Except.map, pure, Except.pure]

/-- With fuel for one more slot, the answer is that of the walk one slot further. -/
theorem answer_succ (fuel : Nat) (w : Walk) :
    w.answer t references items (fuel + 1) = w.next t references items >>= fun
      | none => .ok w.restored
      | some w' => w'.answer t references items fuel := by
  rw [next, answer]
  split
  · rename_i hnone
    have hleft : w.left items = [] := by
      simpa [left] using List.getElem?_eq_none_iff.mp hnone
    rw [hleft, restoreFamilies]
    exact congrArg Except.ok (List.append_nil _)
  · rename_i family hfamily
    obtain ⟨hlt, rfl⟩ := List.getElem?_eq_some_iff.mp hfamily
    rw [left_of_lt hlt, restoreFamilies, ← left_of_lt hlt]
    cases hchild : references.child? (.index w.slot) with
    | none => exact map_append_cons _ _ _
    | some part =>
      cases part with
      | parts children => rfl
      | reference r =>
        dsimp only
        cases t.target r with
        | error e => rfl
        | ok target =>
          -- what is dropped for the reference is what the walk passes
          have hdrop : (w.left items).drop (spliceLength target) =
              (items.drop (w.position + spliceLength target)).map fun d => .ok (.ofData d) := by
            rw [left, ← List.map_drop, List.drop_drop]
          simp only [bind, Except.bind, pure, Except.pure, hdrop]
          exact map_append_cons _ _ _

/-- With fuel for all slots that are left, the answer is what the walk returns. -/
theorem Returns.answer_eq {w : Walk} {x : Except Fault (List Written)}
    (h : Returns t references items w x) {fuel : Nat} (hfuel : w.rank references items ≤ fuel) :
    w.answer t references items (fuel + 1) = x := by
  induction h generalizing fuel with
  | done hnext =>
    rw [answer_succ, hnext]
    rfl
  | failed hnext =>
    rw [answer_succ, hnext]
    rfl
  | further hnext _ ih =>
    -- the next slot has a smaller rank, so there is fuel for it
    have hrank := rank_next hnext
    obtain ⟨fuel, rfl⟩ := Nat.exists_eq_succ_of_ne_zero (Nat.ne_zero_of_lt (hrank.trans_le hfuel))
    rw [answer_succ, hnext]
    exact ih (by omega)

end Walk

/-- A list of families is written with the slots that the walk through it returns. -/
theorem familiesAsWritten_of_returns {x : Except Fault (List Written)}
    (h : Walk.Returns t references items .start x) :
    t.familiesAsWritten references (.list items) = Written.list <$> x := by
  have hanswer := h.answer_eq (Walk.rank_start_le references items)
  rw [familiesAsWritten, families, ← hanswer]
  simp only [bind, Except.bind, List.length_map, Walk.answer, Walk.left, Walk.start, List.drop_zero,
    List.nil_append]
  cases restoreFamilies t references (items.length + partCount references + 1) 0
    (items.map fun d => .ok (.ofData d)) <;> rfl

/-! ## Walks through slots -/

theorem length_spliceOf (d : Data) : (spliceOf d).length = spliceLength d := by
  cases d <;> rfl

variable {value : Reference → Except Fault Data}

/-- The table has the value of a reference, and it is no empty list. -/
def Supplies (t : Table) (value : Reference → Except Fault Data) (r : Reference) : Prop :=
  t.target r = value r ∧ value r ≠ .ok (.list [])

/-- A walk puts a slot back and passes what the slot has added to the list. -/
theorem Walk.next_slot {u : Template} (hu : u.FamilySlot)
    (hsupplies : ∀ h, u = .hole h → t.Supplies value h.reference) {d : Data}
    (hd : fill value u = .ok d) {passed later : List Data}
    (hitems : items = passed ++ (contribution u d ++ later)) {w : Walk}
    (hposition : w.position = passed.length)
    (hchild : references.child? (.index w.slot) = u.references?) :
    w.next t references items = .ok (some ⟨w.position + (contribution u d).length, w.slot + 1,
      w.restored ++ [.ofData u.written]⟩) := by
  cases hu with
  | name s =>
    obtain rfl : Data.text s = d := Except.ok.inj hd
    have hfamily : items[w.position]? = some (.text s) := by
      rw [hitems, hposition, List.getElem?_append_right (Nat.le_refl _), Nat.sub_self]
      rfl
    rw [Walk.next, hfamily, hchild]
    rfl
  | reference h hspliced =>
    obtain ⟨htarget, hne⟩ := hsupplies h rfl
    have hvalue : value h.reference = .ok d := hd
    have hadds : contribution (.hole h) d = spliceOf d := if_pos hspliced
    rw [hadds] at hitems ⊢
    -- the slot has added a family, so the walk is not at its end
    obtain ⟨family, others, hcons⟩ : ∃ family others, spliceOf d = family :: others := by
      refine List.exists_cons_of_ne_nil fun hnil => hne ?_
      cases d with
      | list cs =>
        have hempty : cs = [] := hnil
        rw [hvalue, hempty]
      | _ => cases hnil
    have hfamily : items[w.position]? = some family := by
      rw [hitems, hposition, List.getElem?_append_right (Nat.le_refl _), Nat.sub_self, hcons]
      rfl
    have hreference : references.child? (.index w.slot) = some (.reference h.reference) := hchild
    rw [Walk.next, hfamily, hreference]
    simp only [htarget, hvalue, length_spliceOf, written_hole, bind, Except.bind, pure, Except.pure]
    rfl

/-- Through a list that was filled slot by slot, a walk returns the slots as they are written. -/
theorem Walk.returns_slots {slots : List Template} {parts : List Data}
    (hparts : List.Forall₂ (fun u d => fill value u = .ok d) slots parts)
    (hslots : ∀ u ∈ slots, u.FamilySlot)
    (hsupplies : ∀ h, .hole h ∈ slots → t.Supplies value h.reference) {passed : List Data}
    (hitems : items = passed ++ (List.zipWith contribution slots parts).flatten) {w : Walk}
    (hposition : w.position = passed.length)
    (hchild : ∀ i, references.child? (.index (w.slot + i)) = slots[i]?.bind references?) :
    Walk.Returns t references items w (.ok (w.restored ++ ofItems (slots.map written))) := by
  -- the induction goes through the slots that are left, with those before them in the walk
  induction hparts generalizing passed w with
  | nil =>
    have hdone : w.next t references items = .ok none := by
      rw [Walk.next, hitems, hposition]
      simp
    simpa [ofItems] using Walk.Returns.done hdone
  | @cons u d us ds hd _ ih =>
    rw [List.zipWith_cons_cons, List.flatten_cons] at hitems
    have hnext := Walk.next_slot (hslots u List.mem_cons_self)
      (fun h hh => hsupplies h (hh ▸ List.mem_cons_self)) hd hitems hposition (hchild 0)
    -- what the slot has added counts as passed from now on
    have hpassed : w.position + (contribution u d).length =
        (passed ++ contribution u d).length := by
      rw [hposition, List.length_append]
    have hlater : ∀ i, references.child? (.index (w.slot + 1 + i)) = us[i]?.bind references? := by
      intro i
      rw [Nat.add_assoc, Nat.add_comm 1 i, hchild]
      rfl
    rw [← List.append_assoc] at hitems
    have hrest := ih (fun v hv => hslots v (List.mem_cons_of_mem _ hv))
      (fun h hh => hsupplies h (List.mem_cons_of_mem _ hh)) hitems
      (w := ⟨w.position + (contribution u d).length, w.slot + 1,
        w.restored ++ [.ofData u.written]⟩) hpassed hlater
    rw [List.append_assoc] at hrest
    rw [List.map_cons, ofItems]
    exact .further hnext hrest

/-- A list that was filled slot by slot is written slot by slot. -/
theorem familiesAsWritten_of_fill {slots : List Template} (hslots : ∀ u ∈ slots, u.FamilySlot)
    (hsupplies : ∀ h, .hole h ∈ slots → t.Supplies value h.reference) {d : Data}
    (hd : fill value (.list slots) = .ok d) :
    t.familiesAsWritten (.parts (itemReferences 0 slots)) d =
      .ok (.ofData (Template.list slots).written) := by
  obtain ⟨items, hitems, rfl⟩ := map_eq_ok.mp hd
  obtain ⟨parts, hparts, rfl⟩ := fillItems_eq_ok.mp hitems
  -- the tree of a slot is that of the item
  have hchild : ∀ i, (ReferenceTree.parts (itemReferences 0 slots)).child? (.index (0 + i)) =
      slots[i]?.bind references? := by
    intro i
    rw [ReferenceTree.child?_itemReferences]
    simp
  have hreturns := Walk.returns_slots (w := .start) hparts hslots hsupplies
    (List.nil_append _).symm rfl hchild
  rw [familiesAsWritten_of_returns hreturns, written_list, ofData]
  rfl

/-! ## Splicing is undone -/

/-- Slots whose references are replaced by lists of names that are not empty are written as they
were, each reference as its text.  And whatever lists the references of a tree stand for, empty ones
included, the walk through a list of families returns; it has at most one slot for each family and
each part of the tree, and what it returns is what is written. -/
theorem splicing_undone (t : Table) :
    (∀ (slots : List Template) (values : Resolution.Values), (∀ u ∈ slots, u.FamilySlot) →
      (∀ h, .hole h ∈ slots → ∃ names : List String, names ≠ [] ∧
        Resolution.targetValue values h.reference = .ok (.list (names.map .text)) ∧
        t.target h.reference = .ok (.list (names.map .text))) →
      ∃ d, fill (Resolution.targetValue values) (.list slots) = .ok d ∧
        t.familiesAsWritten (.parts (itemReferences 0 slots)) d =
          .ok (.ofData (Template.list slots).written)) ∧
    ∀ (items : List Data) (references : ReferenceTree), t.Knows references →
      ∃ restored, Walk.Returns t references items .start (.ok restored) ∧
        restored.length ≤ items.length + partCount references ∧
        t.familiesAsWritten references (.list items) = .ok (.list restored) := by
  constructor
  · intro slots values hslots hnames
    have hsupplies : ∀ h, .hole h ∈ slots →
        t.Supplies (Resolution.targetValue values) h.reference := by
      intro h hh
      obtain ⟨names, hne, hvalue, htarget⟩ := hnames h hh
      exact ⟨htarget.trans hvalue.symm, by simpa [hvalue] using hne⟩
    -- every slot has a value, so the list can be filled
    obtain ⟨d, hd⟩ : ∃ d, fill (Resolution.targetValue values) (.list slots) = .ok d := by
      refine exists_fill fun g hg => ?_
      obtain ⟨u, hu, hgu⟩ := hasHole_list.mp hg
      cases hslots u hu with
      | name s => exact absurd hgu hasHole_scalar
      | reference h _ =>
        obtain rfl := hasHole_hole.mp hgu
        obtain ⟨names, -, hvalue, -⟩ := hnames h hu
        exact ⟨_, hvalue⟩
    exact ⟨d, hd, familiesAsWritten_of_fill hslots hsupplies hd⟩
  · intro items references hknows
    obtain ⟨x, hx⟩ := Walk.exists_returns t references items .start
    obtain ⟨restored, rfl⟩ := hx.exists_slots hknows
    have hlength := (hx.length_le rfl).trans
      (Nat.add_le_add_left (Walk.rank_start_le references items) _)
    exact ⟨restored, hx, by simpa [Walk.start] using hlength, familiesAsWritten_of_returns hx⟩

/-- A token that has families in its modes. -/
def fontToken (id : String) (modes : Members (List String)) : Token where
  id := id
  type := .fontFamily
  modes := modes.map fun m => (m.1, ⟨.list (m.2.map .text), none, none, []⟩)
  group := none
  span := .origin
  description := none
  extensions := []

/-- A table with families in two modes, and with a list without families. -/
def fontTable : Table where
  tokens := [("base", fontToken "base" [(defaultMode, ["Inter", "Arial"]), ("paper", ["Times"])]),
    ("none", fontToken "none" [(defaultMode, [])])]
  groups := []

/-- The lists of families that are not empty. -/
def fontValues : Resolution.Values :=
  [(⟨"base", "paper"⟩, .list [.text "Times"]),
    (⟨"base", defaultMode⟩, .list [.text "Inter", .text "Arial"])]

/-- A slot for the families of a mode. -/
def fontSlot (mode : Option String) : Template :=
  .hole ⟨⟨"base", mode⟩, .origin, some [.fontFamily], true⟩

/-- The same reference twice in a row, and once more behind a name. -/
def fontSlots : List Template :=
  [fontSlot none, fontSlot none, .text "Georgia", fontSlot (some "paper"), fontSlot none]

/-- References to the list without families around a name. -/
def fontGaps : ReferenceTree :=
  .parts [(.index 0, .reference ⟨"none", none⟩), (.index 2, .reference ⟨"none", none⟩)]

/-- For instance, repeated references are put back, and the walk returns where references stand for
an empty list. -/
theorem splicing_undone_fonts :
    (∀ u ∈ fontSlots, u.FamilySlot) ∧
    (∀ h, .hole h ∈ fontSlots → ∃ names : List String, names ≠ [] ∧
      Resolution.targetValue fontValues h.reference = .ok (.list (names.map .text)) ∧
      fontTable.target h.reference = .ok (.list (names.map .text))) ∧
    (∃ d, fill (Resolution.targetValue fontValues) (.list fontSlots) = .ok d ∧
      fontTable.familiesAsWritten (.parts (itemReferences 0 fontSlots)) d =
        .ok (.ofData (.list [.text "\x7bbase\x7d", .text "\x7bbase\x7d", .text "Georgia",
          .text "\x7bbase#paper\x7d", .text "\x7bbase\x7d"]))) ∧
    fontTable.Knows fontGaps ∧
    ∃ restored, Walk.Returns fontTable fontGaps [.text "Inter"] .start (.ok restored) ∧
      restored.length ≤ 3 ∧
      fontTable.familiesAsWritten fontGaps (.list [.text "Inter"]) = .ok (.list restored) := by
  have hslots : ∀ u ∈ fontSlots, u.FamilySlot := by
    simp only [fontSlots, List.forall_mem_cons]
    exact ⟨.reference _ rfl, .reference _ rfl, .name _, .reference _ rfl, .reference _ rfl, by simp⟩
  have hnames : ∀ h, .hole h ∈ fontSlots → ∃ names : List String, names ≠ [] ∧
      Resolution.targetValue fontValues h.reference = .ok (.list (names.map .text)) ∧
      fontTable.target h.reference = .ok (.list (names.map .text)) := by
    intro h hh
    simp only [fontSlots, fontSlot, List.mem_cons, Template.hole.injEq, reduceCtorEq,
      List.not_mem_nil, or_false, false_or] at hh
    rcases hh with rfl | rfl | rfl | rfl
    · exact ⟨["Inter", "Arial"], by simp, rfl, rfl⟩
    · exact ⟨["Inter", "Arial"], by simp, rfl, rfl⟩
    · exact ⟨["Times"], by simp, rfl, rfl⟩
    · exact ⟨["Inter", "Arial"], by simp, rfl, rfl⟩
  have hknows : fontTable.Knows fontGaps := by
    intro slot part hchild
    obtain ⟨c, hfind, rfl⟩ := Option.map_eq_some_iff.mp hchild
    rcases List.mem_cons.mp (List.mem_of_find?_eq_some hfind) with rfl | hmem
    · exact ⟨_, .list [], rfl, rfl⟩
    · obtain rfl := List.mem_singleton.mp hmem
      exact ⟨_, .list [], rfl, rfl⟩
  exact ⟨hslots, hnames, (splicing_undone fontTable).1 fontSlots fontValues hslots hnames, hknows,
    (splicing_undone fontTable).2 [.text "Inter"] fontGaps hknows⟩

end Table

end DesignTokens
