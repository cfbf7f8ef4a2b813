import DesignTokens.Json.Reader
import DesignTokens.Proofs.Members
import DesignTokens.Proofs.Tree.OfData

/-!
# Objects that repeat a name

The reader makes the members of an object of the pairs that are written, and of pairs with the same
name the last one counts.  So a text is read as what is written in it, with each object collected
(`readText_collected`), and a text that repeats no name is read as what is written (`read_of_written`).
-/

namespace DesignTokens

namespace Data

variable (collect : List (String × Data) → Members Data)

mutual

/-- Data with the members of each object collected. -/
def collected : Data → Data
  | .null => .null
  | .scalar s => .scalar s
  | .list ds => .list (collectedItems ds)
  | .object ms => .object (collect (collectedMembers ms))

def collectedItems : List Data → List Data
  | [] => []
  | d :: ds => collected d :: collectedItems ds

def collectedMembers : List (String × Data) → List (String × Data)
  | [] => []
  | (name, d) :: ms => (name, collected d) :: collectedMembers ms

end

theorem collectedItems_eq_map (ds : List Data) :
    collectedItems collect ds = ds.map (collected collect) := by
  induction ds with
  | nil => rfl
  | cons d ds ih => rw [collectedItems, ih, List.map_cons]

theorem collectedMembers_eq_map (ms : List (String × Data)) :
    collectedMembers collect ms = ms.map fun m => (m.1, m.2.collected collect) := by
  induction ms with
  | nil => rfl
  | cons m ms ih =>
    obtain ⟨name, d⟩ := m
    rw [collectedMembers, ih, List.map_cons]

mutual

/-- Data that repeats no name stays as it is. -/
theorem collected_ofPairs : (d : Data) → d.tree.WellKeyed → d.collected Members.ofPairs = d
  | .null, _ => rfl
  | .scalar _, _ => rfl
  | .list ds, h => by
    rw [collected, collectedItems_ofPairs ds (Tree.wellKeyed_tree_list.mp h)]
  | .object ms, h => by
    obtain ⟨hnodup, hall⟩ := Tree.wellKeyed_tree_object.mp h
    rw [collected, collectedMembers_ofPairs ms hall, Members.ofPairs_eq_self hnodup]

theorem collectedItems_ofPairs : (ds : List Data) → (∀ d ∈ ds, d.tree.WellKeyed) →
    collectedItems Members.ofPairs ds = ds
  | [], _ => rfl
  | d :: ds, h => by
    obtain ⟨hd, hds⟩ := List.forall_mem_cons.mp h
    rw [collectedItems, collected_ofPairs d hd, collectedItems_ofPairs ds hds]

theorem collectedMembers_ofPairs : (ms : List (String × Data)) →
    (∀ m ∈ ms, m.2.tree.WellKeyed) → collectedMembers Members.ofPairs ms = ms
  | [], _ => rfl
  | (name, d) :: ms, h => by
    obtain ⟨hd, hms⟩ := List.forall_mem_cons.mp h
    rw [collectedMembers, collected_ofPairs d hd, collectedMembers_ofPairs ms hms]

end

end Data

namespace Json

variable {collect : List (String × Data) → Members Data}

/-- A result with its data collected. -/
def collectedResult (collect : List (String × Data) → Members Data) (x : Result Data) :
    Result Data :=
  x.map fun p => (p.1.collected collect, p.2)

/-- The readers of values collect what the readers of what is written read. -/
structure Collects (collect : List (String × Data) → Members Data) (fuel : Nat) : Prop where
  value : ∀ s, readValue collect fuel s = collectedResult collect (readValue id fuel s)
  items : ∀ done s, readItems collect fuel (Data.collectedItems collect done) s =
    collectedResult collect (readItems id fuel done s)
  members : ∀ done s, readMembers collect fuel (Data.collectedMembers collect done) s =
    collectedResult collect (readMembers id fuel done s)

theorem Collects.readItems {fuel : Nat} (h : Collects collect fuel) (done : List Data)
    (s : List Char) : readItems collect (fuel + 1) (Data.collectedItems collect done) s =
      collectedResult collect (readItems id (fuel + 1) done s) := by
  rw [Json.readItems, Json.readItems, h.value]
  cases readValue id fuel s with
  | error e => rfl
  | ok p =>
    obtain ⟨value, t⟩ := p
    simp only [collectedResult, Except.map]
    split
    · simp [Data.collected, Data.collectedItems_eq_map]
    · exact h.items (value :: done) _
    · rfl

theorem Collects.readMembers {fuel : Nat} (h : Collects collect fuel)
    (done : List (String × Data)) (s : List Char) :
    readMembers collect (fuel + 1) (Data.collectedMembers collect done) s =
      collectedResult collect (readMembers id (fuel + 1) done s) := by
  unfold Json.readMembers
  split
  · split
    · rfl
    · split
      · rw [h.value]
        cases readValue id fuel (skipSpace _) with
        | error e => rfl
        | ok p =>
          obtain ⟨value, t⟩ := p
          simp only [collectedResult, Except.map]
          split
          · simp [Data.collected, Data.collectedMembers_eq_map]
          · exact h.members ((_, value) :: done) _
          · rfl
      · rfl
  · rfl

theorem collectedResult_readNumber (s : List Char) :
    collectedResult collect (readNumber s) = readNumber s := by
  unfold readNumber
  dsimp only
  repeat' split
  all_goals rfl

theorem collected_of_readWord? {s t : List Char} {d : Data} (h : readWord? s = some (d, t)) :
    d.collected collect = d := by
  obtain ⟨p, hfind, hword⟩ := Option.map_eq_some_iff.mp h
  obtain ⟨rfl, -⟩ := Prod.mk.inj hword
  have hall : ∀ p ∈ words, p.2.collected collect = p.2 := by simp [words, Data.collected]
  exact hall p (List.mem_of_find?_eq_some hfind)

theorem Collects.readValue {fuel : Nat} (h : Collects collect fuel) (hnil : collect [] = [])
    (s : List Char) :
    readValue collect (fuel + 1) s = collectedResult collect (readValue id (fuel + 1) s) := by
  unfold Json.readValue
  split
  · split <;> rfl
  · split
    · simp [collectedResult, Except.map, Data.collected, Data.collectedMembers, hnil]
    · exact h.members [] _
  · split
    · rfl
    · exact h.items [] _
  · split
    · rename_i p hword
      obtain ⟨d, t⟩ := p
      simp [collectedResult, Except.map, collected_of_readWord? hword]
    · exact (collectedResult_readNumber _).symm

/-- By induction on the fuel. -/
theorem collects (hnil : collect [] = []) (fuel : Nat) : Collects collect fuel := by
  induction fuel with
  | zero => constructor <;> intros <;> rfl
  | succ fuel ih => exact ⟨ih.readValue hnil, ih.readItems, ih.readMembers⟩

theorem readText_collected (hnil : collect [] = []) (s : List Char) :
    readText collect s = (readText id s).map (·.collected collect) := by
  have hgo : readText.go collect s = (readText.go id s).map (·.collected collect) := by
    unfold readText.go
    rw [(collects hnil _).value]
    cases readValue id (2 * s.length + 1) (skipSpace s) with
    | error e => rfl
    | ok p =>
      simp only [collectedResult, Except.map]
      split <;> rfl
  unfold readText
  split
  · split
    · rfl
    · exact hgo
  · exact hgo

/-- A text is read as what is written in it when no object repeats a name. -/
theorem read_of_written {text : String} {d : Data} (h : readText id text.toList = .ok d)
    (hkeys : d.tree.WellKeyed) : read text = .ok d := by
  rw [read, readText_collected rfl, h]
  exact congrArg Except.ok (Data.collected_ofPairs d hkeys)

end Json

end DesignTokens
