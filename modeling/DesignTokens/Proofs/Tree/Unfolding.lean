import DesignTokens.Document
import DesignTokens.Proofs.Steps
import DesignTokens.Proofs.Tree.OfData
import Mathlib.Logic.Relation

/-!
# What limits do to graphs

A graph may share nodes and lead back into itself, so what a node unfolds to may be much larger than
the graph, or without end.  `Expands` says which finite tree a node unfolds to, without any limits.

## Main statement

* `Document.limits_hold`: unfolding visits at most one node more than the limit; what it returns is
  the expansion and within the limits; every expansion within the limits is returned, and everything
  else of a regular graph is refused for its size.
-/

namespace DesignTokens.Tree

open Yaml

variable {g : Graph} {version : Version} {limits : Limits}

/-! ## Expansions -/

/-- A node is a scalar that stands for a key. -/
def IsKey (g : Graph) (number : Nat) (key : Key) : Prop :=
  ∃ tag, (g.node number).content = .scalar tag key.name ∧ key.span = nodeSpan (g.node number)

/-- The finite tree that a node unfolds to when nothing limits it. -/
inductive Expands (g : Graph) (version : Version) : Nat → Tree → Prop where
  | scalar {number : Nat} {tag : ScalarTag} {text : String} {t : Tree} :
      (g.node number).content = .scalar tag text →
      ofScalar version tag text (nodeSpan (g.node number)) = .ok t → Expands g version number t
  | sequence {number : Nat} {numbers : List Nat} {items : List Tree} :
      (g.node number).content = .sequence numbers →
      List.Forall₂ (Expands g version) numbers items →
      Expands g version number (.sequence items (nodeSpan (g.node number)))
  /-- The keys are scalars with distinct names. -/
  | mapping {number : Nat} {pairs : List (Nat × Nat)} {members : List (Key × Tree)} :
      (g.node number).content = .mapping pairs →
      List.Forall₂ (IsKey g) (pairs.map Prod.fst) (members.map Prod.fst) →
      (members.map (·.1.name)).Nodup →
      List.Forall₂ (Expands g version) (pairs.map Prod.snd) (members.map Prod.snd) →
      Expands g version number (.mapping members (nodeSpan (g.node number)))

/-- A node has another one as an item or as the value of a member. -/
def Holds (g : Graph) (a b : Nat) : Prop :=
  (∃ numbers, (g.node a).content = .sequence numbers ∧ b ∈ numbers) ∨
    ∃ pairs, (g.node a).content = .mapping pairs ∧ b ∈ pairs.map Prod.snd

/-- A node that can be unfolded as far as it is concerned itself: a scalar can be read, and the keys
of a mapping are scalars with distinct names. -/
def IsRegular (g : Graph) (version : Version) (number : Nat) : Prop :=
  match (g.node number).content with
  | .scalar tag text => ∃ t, ofScalar version tag text (nodeSpan (g.node number)) = .ok t
  | .sequence _ => True
  | .mapping pairs =>
    ∃ names : List String, names.Nodup ∧
      List.Forall₂ (fun k name => ∃ tag, (g.node k).content = .scalar tag name)
        (pairs.map Prod.fst) names

/-- All nodes from a node on are regular. -/
def Regular (g : Graph) (version : Version) (root : Nat) : Prop :=
  ∀ number, Relation.ReflTransGen (Holds g) root number → IsRegular g version number

theorem Regular.of_holds {a b : Nat} (h : Regular g version a) (hab : Holds g a b) :
    Regular g version b :=
  fun _ hb => h _ (.head hab hb)

/-! ## Nodes that lead back to themselves -/

theorem nodes_lt_of_mem_items {items : List Tree} {t : Tree} (h : t ∈ items) (span : Span) :
    t.data.nodes < (sequence items span).data.nodes := by
  rw [data, Data.nodes]
  induction items with
  | nil => simp at h
  | cons u us ih =>
    rw [dataList, Data.nodesOfItems]
    rcases List.mem_cons.mp h with rfl | h
    · omega
    · have := ih h
      omega

theorem nodes_lt_of_mem_members {members : List (Key × Tree)} {t : Tree}
    (h : t ∈ members.map Prod.snd) (span : Span) :
    t.data.nodes < (mapping members span).data.nodes := by
  rw [data, Data.nodes]
  induction members with
  | nil => simp at h
  | cons m ms ih =>
    rw [dataMembers, Data.nodesOfMembers]
    rcases List.mem_cons.mp h with rfl | h
    · omega
    · have := ih h
      omega

/-- What a node holds expands to a part of what the node expands to. -/
theorem Expands.part {a b : Nat} {t : Tree} (h : Expands g version a t) (hab : Holds g a b) :
    ∃ u, Expands g version b u ∧ u.data.nodes < t.data.nodes := by
  obtain ⟨numbers, hcontent, hmem⟩ | ⟨pairs, hcontent, hmem⟩ := hab
  · cases h with
    | scalar h => rw [h] at hcontent; cases hcontent
    | mapping h => rw [h] at hcontent; cases hcontent
    | sequence h hitems =>
      rw [hcontent] at h
      cases h
      obtain ⟨u, hu, hbu⟩ := Outcome.exists_right hitems hmem
      exact ⟨u, hbu, nodes_lt_of_mem_items hu _⟩
  · cases h with
    | scalar h => rw [h] at hcontent; cases hcontent
    | sequence h => rw [h] at hcontent; cases hcontent
    | mapping h _ _ hvalues =>
      rw [hcontent] at h
      cases h
      obtain ⟨u, hu, hbu⟩ := Outcome.exists_right hvalues hmem
      exact ⟨u, hbu, nodes_lt_of_mem_members hu _⟩

/-- What is reached from a node expands to a part of what the node expands to. -/
theorem Expands.reached {a b : Nat} {t : Tree} (h : Expands g version a t)
    (hab : Relation.TransGen (Holds g) a b) :
    ∃ u, Expands g version b u ∧ u.data.nodes < t.data.nodes := by
  induction hab with
  | single hab => exact h.part hab
  | tail _ hbc ih =>
    obtain ⟨u, hu, hlt⟩ := ih
    obtain ⟨v, hv, hlt'⟩ := hu.part hbc
    exact ⟨v, hv, by omega⟩

/-- A node that leads back to itself has no finite expansion. -/
theorem not_expands_of_cycle {a : Nat} (ha : Relation.TransGen (Holds g) a a) (t : Tree) :
    ¬ Expands g version a t := by
  intro h
  -- the expansion would have a smaller expansion of the same node as a part, and so on
  induction hn : t.data.nodes using Nat.strongRecOn generalizing t with
  | _ n ih =>
    obtain ⟨u, hu, hlt⟩ := h.reached ha
    exact ih _ (hn ▸ hlt) u hu rfl

/-! ## What unfolding returns -/

/-- From `count` nodes on, a computation counts at most up to one more than the limit, and what it
returns is as `P` says of the number of nodes after it. -/
def Counts {α : Type} (limits : Limits) (count : Nat) (x : Unfold α) (P : α → Nat → Prop) : Prop :=
  Ends (· = count) x (fun a n => P a n ∧ (n : Int) ≤ limits.nodes)
    fun _ n => (n : Int) ≤ limits.nodes + 1

section Counts

variable {α β : Type} {count : Nat} {P : α → Nat → Prop} {Q : β → Nat → Prop} {x : Unfold α}
  {f : α → Unfold β}

theorem Counts.bind (hx : Counts limits count x P)
    (hf : ∀ a (n : Nat), (n : Int) ≤ limits.nodes → P a n → Counts limits n (f a) Q) :
    Counts limits count (x >>= f) Q :=
  Ends.bind hx fun a n hn => hf a n hn.2 hn.1 n rfl

theorem counts_pure {a : α} (hcount : (count : Int) ≤ limits.nodes) (h : P a count) :
    Counts limits count (pure a) P :=
  ends_pure fun _ hn => hn ▸ ⟨h, hcount⟩

theorem counts_lift {x : Except Failure α} (hcount : (count : Int) ≤ limits.nodes)
    (h : ∀ a, x = .ok a → P a count) : Counts limits count (liftM x) P :=
  ends_lift (fun a ha _ hn => hn ▸ ⟨h a ha, hcount⟩) fun _ _ _ hn => by
    subst hn
    omega

end Counts

/-- A visit counts one node, also when that is one too many. -/
theorem counts_visit {count : Nat} (hcount : (count : Int) ≤ limits.nodes) (span : Span) :
    Counts limits count (visit limits span) fun _ n => n = count + 1 := by
  refine ends_get fun n hn => ?_
  subst hn
  refine .bind (Q := fun _ m => m = n + 1) (ends_set fun _ => rfl) fun _ => ?_
  refine .bind (ends_lift (fun a ha m hm => ?_) fun _ _ m hm => ?_) fun _ => ends_pure fun _ => id
  · subst hm
    obtain ⟨rfl, hle⟩ := Limits.countNode_le ha
    exact ⟨rfl, hle⟩
  · subst hm
    omega

/-- A key is taken when it is a scalar and was no key of the mapping before. -/
theorem keyOf_eq_ok {seen : List String} {number : Nat} {key : Key} :
    keyOf g seen number = .ok key ↔ IsKey g number key ∧ key.name ∉ seen := by
  unfold keyOf IsKey
  obtain ⟨name, span⟩ := key
  dsimp only
  cases (g.node number).content with
  | scalar tag text =>
    by_cases hseen : text ∈ seen
    · simp only [List.contains_iff_mem, hseen, ↓reduceIte, reduceCtorEq, false_iff]
      rintro ⟨⟨tag', ⟨⟩, -⟩, hfresh⟩
      exact hfresh hseen
    · simp only [List.contains_iff_mem, hseen, ↓reduceIte, Except.ok.injEq, Key.mk.injEq]
      constructor
      · rintro ⟨rfl, rfl⟩
        exact ⟨⟨tag, rfl, rfl⟩, hseen⟩
      · rintro ⟨⟨tag', ⟨⟩, rfl⟩, -⟩
        exact ⟨rfl, rfl⟩
  | sequence numbers => simp
  | mapping pairs => simp

section Returned

variable {levels : Nat}

/-- What unfolding into `levels` levels returns from `count` nodes on. -/
def Returns (g : Graph) (version : Version) (levels number count : Nat) (t : Tree) (n : Nat) :
    Prop :=
  Expands g version number t ∧ n = count + t.data.nodes ∧ t.data.height < levels

/-- Items that are unfolded one after the other are the expansions of their nodes. -/
theorem counts_unfoldItems
    (hitem : ∀ number (count : Nat), (count : Int) ≤ limits.nodes →
      Counts limits count (unfold g version limits levels number)
        (Returns g version levels number count))
    (numbers : List Nat) {count : Nat} (hcount : (count : Int) ≤ limits.nodes) :
    Counts limits count (unfoldItems (unfold g version limits levels) numbers) fun ts n =>
      List.Forall₂ (Expands g version) numbers ts ∧
        n = count + Data.nodesOfItems (dataList ts) ∧ Data.heightOfItems (dataList ts) ≤ levels := by
  induction numbers generalizing count with
  | nil => exact counts_pure hcount ⟨.nil, rfl, Nat.zero_le _⟩
  | cons number rest ih =>
    rw [unfoldItems]
    refine (hitem number count hcount).bind fun t n hn ⟨ht, hnodes, hheight⟩ => ?_
    refine (ih hn).bind fun ts m hm ⟨hts, hrest, hrestHeight⟩ => ?_
    refine counts_pure hm ⟨.cons ht hts, ?_, ?_⟩
    · rw [dataList, Data.nodesOfItems]
      omega
    · rw [dataList, Data.heightOfItems]
      omega

/-- Members that are unfolded have the keys and the expansions of their nodes. -/
theorem counts_unfoldMembers
    (hvalue : ∀ number (count : Nat), (count : Int) ≤ limits.nodes →
      Counts limits count (unfold g version limits levels number)
        (Returns g version levels number count))
    (pairs : List (Nat × Nat)) (seen : List String) {count : Nat}
    (hcount : (count : Int) ≤ limits.nodes) :
    Counts limits count (unfoldMembers g (unfold g version limits levels) seen pairs) fun ms n =>
      List.Forall₂ (IsKey g) (pairs.map Prod.fst) (ms.map Prod.fst) ∧
        ((ms.map (·.1.name)).Nodup ∧ ∀ m ∈ ms, m.1.name ∉ seen) ∧
        List.Forall₂ (Expands g version) (pairs.map Prod.snd) (ms.map Prod.snd) ∧
        n = count + Data.nodesOfMembers (dataMembers ms) ∧
        Data.heightOfMembers (dataMembers ms) ≤ levels := by
  induction pairs generalizing seen count with
  | nil => exact counts_pure hcount ⟨.nil, by simp, .nil, rfl, Nat.zero_le _⟩
  | cons pair rest ih =>
    obtain ⟨k, v⟩ := pair
    rw [unfoldMembers]
    refine (counts_lift (P := fun key n => n = count ∧ IsKey g k key ∧ key.name ∉ seen) hcount
      fun key hkey => ⟨rfl, keyOf_eq_ok.mp hkey⟩).bind fun key n hn ⟨hcountEq, hkey, hfresh⟩ => ?_
    subst hcountEq
    refine (hvalue v n hn).bind fun t m hm ⟨ht, hnodes, hheight⟩ => ?_
    refine (ih (key.name :: seen) hm).bind fun ms l hl ⟨hkeys, hnames, hts, hrest, hrestHeight⟩ => ?_
    refine counts_pure hl ⟨.cons hkey hkeys, ⟨?_, ?_⟩, .cons ht hts, ?_, ?_⟩
    · refine List.nodup_cons.mpr ⟨fun hmem => ?_, hnames.1⟩
      -- the later keys are new when this one counts as seen
      obtain ⟨other, hother, hname⟩ := List.mem_map.mp hmem
      exact hnames.2 other hother (hname ▸ List.mem_cons_self)
    · exact List.forall_mem_cons.mpr
        ⟨hfresh, fun other hother h => hnames.2 other hother (List.mem_cons_of_mem _ h)⟩
    · rw [dataMembers, Data.nodesOfMembers]
      omega
    · rw [dataMembers, Data.heightOfMembers]
      omega

theorem size_of_ofScalar {tag : ScalarTag} {text : String} {span : Span} {t : Tree}
    (h : ofScalar version tag text span = .ok t) : t.data.nodes = 1 ∧ t.data.height = 0 := by
  unfold ofScalar at h
  split at h
  · obtain rfl := Except.ok.inj h
    exact ⟨rfl, rfl⟩
  · obtain rfl := Except.ok.inj h
    exact ⟨rfl, rfl⟩
  · simp at h

end Returned

/-- Unfolding counts every node once for each time that it is visited, it never counts more than
one node over the limit, and what it returns is the expansion of the node. -/
theorem counts_unfold (levels number : Nat) {count : Nat} (hcount : (count : Int) ≤ limits.nodes) :
    Counts limits count (unfold g version limits levels number)
      (Returns g version levels number count) := by
  induction levels generalizing number count with
  | zero =>
    rw [unfold]
    refine (counts_visit hcount _).bind fun _ n hn _ => counts_lift hn fun t ht => ?_
    simp [Limits.tooDeep] at ht
  | succ levels ih =>
    rw [unfold]
    refine (counts_visit hcount _).bind fun _ n hn hvisit => ?_
    subst hvisit
    split
    · rename_i tag text hcontent
      refine counts_lift hn fun t ht => ?_
      obtain ⟨hnodes, hheight⟩ := size_of_ofScalar ht
      exact ⟨.scalar hcontent ht, by omega, by omega⟩
    · rename_i numbers hcontent
      refine (counts_unfoldItems (fun number count => ih number) numbers hn).bind
        fun ts m hm ⟨hts, hnodes, hheight⟩ => counts_pure hm ⟨.sequence hcontent hts, ?_, ?_⟩
      · rw [data, Data.nodes]
        omega
      · rw [data, Data.height]
        omega
    · rename_i pairs hcontent
      refine (counts_unfoldMembers (fun number count => ih number) pairs [] hn).bind
        fun ms m hm ⟨hkeys, hnames, hts, hnodes, hheight⟩ =>
          counts_pure hm ⟨.mapping hcontent hkeys hnames.1 hts, ?_, ?_⟩
      · rw [data, Data.nodes]
        omega
      · rw [data, Data.height]
        omega

/-! ## What is within the limits -/

/-- A visit to a node that is not one too many succeeds. -/
theorem gives_visit {count : Nat} (hcount : ((count + 1 : Nat) : Int) ≤ limits.nodes)
    (span : Span) : Gives count (visit limits span) () (count + 1) := by
  have hnode : limits.countNode span count = .ok (count + 1) := if_neg (by omega)
  exact gives_get.bind (gives_set.bind ((gives_lift hnode).bind gives_pure))

section Expanded

variable {levels : Nat}

/-- Unfolding into `levels` levels returns every expansion that fits. -/
def ReturnsAll (g : Graph) (version : Version) (limits : Limits) (levels : Nat) : Prop :=
  ∀ (number count : Nat) (t : Tree), Expands g version number t →
    ((count + t.data.nodes : Nat) : Int) ≤ limits.nodes → t.data.height < levels →
    Gives count (unfold g version limits levels number) t (count + t.data.nodes)

theorem gives_unfoldItems (h : ReturnsAll g version limits levels) {numbers : List Nat}
    {ts : List Tree} (hts : List.Forall₂ (Expands g version) numbers ts) {count : Nat}
    (hnodes : ((count + Data.nodesOfItems (dataList ts) : Nat) : Int) ≤ limits.nodes)
    (hheight : Data.heightOfItems (dataList ts) ≤ levels) :
    Gives count (unfoldItems (unfold g version limits levels) numbers) ts
      (count + Data.nodesOfItems (dataList ts)) := by
  induction hts generalizing count with
  | nil => exact gives_pure
  | cons ht hts ih =>
    rw [dataList, Data.nodesOfItems] at hnodes
    rw [dataList, Data.heightOfItems] at hheight
    rw [unfoldItems, dataList, Data.nodesOfItems, ← Nat.add_assoc]
    exact (h _ count _ ht (by omega) (by omega)).bind
      ((ih (by omega) (by omega)).bind gives_pure)

theorem gives_unfoldMembers (h : ReturnsAll g version limits levels) {pairs : List (Nat × Nat)}
    {ms : List (Key × Tree)} (seen : List String)
    (hkeys : List.Forall₂ (IsKey g) (pairs.map Prod.fst) (ms.map Prod.fst))
    (hnames : (ms.map (·.1.name)).Nodup) (hseen : ∀ m ∈ ms, m.1.name ∉ seen)
    (hts : List.Forall₂ (Expands g version) (pairs.map Prod.snd) (ms.map Prod.snd)) {count : Nat}
    (hnodes : ((count + Data.nodesOfMembers (dataMembers ms) : Nat) : Int) ≤ limits.nodes)
    (hheight : Data.heightOfMembers (dataMembers ms) ≤ levels) :
    Gives count (unfoldMembers g (unfold g version limits levels) seen pairs) ms
      (count + Data.nodesOfMembers (dataMembers ms)) := by
  induction pairs generalizing ms seen count with
  | nil =>
    obtain rfl := List.map_eq_nil_iff.mp (List.forall₂_nil_left_iff.mp hkeys)
    exact gives_pure
  | cons pair rest ih =>
    obtain ⟨k, v⟩ := pair
    cases ms with
    | nil => cases hkeys
    | cons m ms =>
      obtain ⟨key, t⟩ := m
      obtain ⟨hkey, hkeys⟩ := List.forall₂_cons.mp hkeys
      obtain ⟨ht, hts⟩ := List.forall₂_cons.mp hts
      obtain ⟨hfresh, hnames⟩ := List.nodup_cons.mp hnames
      obtain ⟨hnew, hseen⟩ := List.forall_mem_cons.mp hseen
      rw [dataMembers, Data.nodesOfMembers] at hnodes
      rw [dataMembers, Data.heightOfMembers] at hheight
      rw [unfoldMembers, dataMembers, Data.nodesOfMembers, ← Nat.add_assoc]
      -- the names after this one are new also when this one counts as seen
      have hlater : ∀ m ∈ ms, m.1.name ∉ key.name :: seen := fun m hm hmem => by
        rcases List.mem_cons.mp hmem with hname | hmem
        · exact hfresh (List.mem_map.mpr ⟨m, hm, hname⟩)
        · exact hseen m hm hmem
      exact (gives_lift (keyOf_eq_ok.mpr ⟨hkey, hnew⟩)).bind
        ((h v count t ht (by omega) (by omega)).bind
          ((ih _ hkeys hnames hlater hts (by omega) (by omega)).bind gives_pure))

end Expanded

/-- An expansion that is within the limits is returned. -/
theorem gives_unfold (levels : Nat) : ReturnsAll g version limits levels := by
  induction levels with
  | zero => exact fun _ _ _ _ _ hheight => absurd hheight (Nat.not_lt_zero _)
  | succ levels ih =>
    intro number count t ht hnodes hheight
    rw [unfold]
    -- the node itself takes one visit and one level, and its parts share the rest
    cases ht with
    | scalar hcontent hscalar =>
      obtain ⟨hone, -⟩ := size_of_ofScalar hscalar
      rw [hone] at hnodes ⊢
      refine (gives_visit hnodes _).bind ?_
      rw [hcontent]
      exact gives_lift hscalar
    | sequence hcontent hitems =>
      rw [data, Data.nodes] at hnodes
      rw [data, Data.height] at hheight
      refine (gives_visit (by omega) _).bind ?_
      rw [hcontent, data, Data.nodes, ← Nat.add_assoc]
      exact (gives_unfoldItems ih hitems (by omega) (by omega)).bind gives_pure
    | mapping hcontent hkeys hnames hvalues =>
      rw [data, Data.nodes] at hnodes
      rw [data, Data.height] at hheight
      refine (gives_visit (by omega) _).bind ?_
      rw [hcontent, data, Data.nodes, ← Nat.add_assoc]
      exact (gives_unfoldMembers ih [] hkeys hnames (by simp) hvalues (by omega)
        (by omega)).bind gives_pure

/-! ## What is refused -/

/-- A document is refused because it is too large. -/
def IsSafety (e : Failure) : Prop := ∃ i : Issue, e = .issue i ∧ i.problem.kind = .safety

/-- A computation fails only because of a size. -/
def RefusesSize {α : Type} (x : Unfold α) : Prop :=
  Ends (fun _ => True) x (fun _ _ => True) fun e _ => IsSafety e

section RefusesSize

variable {α β : Type} {x : Unfold α} {f : α → Unfold β}

theorem RefusesSize.bind (hx : RefusesSize x) (hf : ∀ a, RefusesSize (f a)) :
    RefusesSize (x >>= f) :=
  Ends.bind hx fun a s _ => hf a s trivial

theorem refusesSize_pure (a : α) : RefusesSize (pure a) := ends_pure fun _ _ => trivial

theorem refusesSize_lift {x : Except Failure α} (h : ∀ e, x = .error e → IsSafety e) :
    RefusesSize (liftM x) :=
  ends_lift (fun _ _ _ _ => trivial) fun e he _ _ => h e he

end RefusesSize

theorem refusesSize_visit (limits : Limits) (span : Span) : RefusesSize (visit limits span) := by
  refine ends_get fun _ _ => .bind (Q := fun _ _ => True) (ends_set fun _ => trivial) fun _ =>
    (refusesSize_lift fun e he => ?_).bind fun _ => refusesSize_pure ()
  unfold Limits.countNode at he
  split at he
  · cases he
    exact ⟨_, rfl, rfl⟩
  · cases he

theorem refusesSize_unfoldItems {unfoldItem : Nat → Unfold Tree} {numbers : List Nat}
    (h : ∀ number ∈ numbers, RefusesSize (unfoldItem number)) :
    RefusesSize (unfoldItems unfoldItem numbers) := by
  induction numbers with
  | nil => exact refusesSize_pure _
  | cons number rest ih =>
    obtain ⟨hnumber, hrest⟩ := List.forall_mem_cons.mp h
    rw [unfoldItems]
    exact hnumber.bind fun _ => (ih hrest).bind fun _ => refusesSize_pure _

/-- Scalar keys with distinct names are taken one after the other. -/
theorem refusesSize_unfoldMembers {unfoldValue : Nat → Unfold Tree} {pairs : List (Nat × Nat)}
    (h : ∀ number ∈ pairs.map Prod.snd, RefusesSize (unfoldValue number)) {names : List String}
    (hnames : names.Nodup)
    (hkeys : List.Forall₂ (fun k name => ∃ tag, (g.node k).content = .scalar tag name)
      (pairs.map Prod.fst) names)
    {seen : List String} (hseen : ∀ name ∈ names, name ∉ seen) :
    RefusesSize (unfoldMembers g unfoldValue seen pairs) := by
  induction pairs generalizing names seen with
  | nil => exact refusesSize_pure _
  | cons pair rest ih =>
    obtain ⟨k, v⟩ := pair
    cases names with
    | nil => cases hkeys
    | cons name names =>
      obtain ⟨⟨tag, hcontent⟩, hkeys⟩ := List.forall₂_cons.mp hkeys
      obtain ⟨hfresh, hnames⟩ := List.nodup_cons.mp hnames
      obtain ⟨hnew, hseen⟩ := List.forall_mem_cons.mp hseen
      obtain ⟨hvalue, hrest⟩ := List.forall_mem_cons.mp h
      -- a new name passes, so only the values can refuse
      have hkey : keyOf g seen k = .ok ⟨name, nodeSpan (g.node k)⟩ :=
        keyOf_eq_ok.mpr ⟨⟨tag, hcontent, rfl⟩, hnew⟩
      rw [unfoldMembers, hkey]
      refine Ends.bind (Q := fun key _ => key = ⟨name, nodeSpan (g.node k)⟩)
        (ends_pure fun _ _ => rfl) fun key s hkey => ?_
      subst hkey
      refine (hvalue.bind fun _ => (ih hrest hnames hkeys fun other hother hmem => ?_).bind
        fun _ => refusesSize_pure _) s trivial
      rcases List.mem_cons.mp hmem with rfl | hmem
      · exact hfresh hother
      · exact hseen other hother hmem

/-- From a regular node on nothing but a size is refused. -/
theorem refusesSize_unfold (levels : Nat) {number : Nat} (h : Regular g version number) :
    RefusesSize (unfold g version limits levels number) := by
  induction levels generalizing number with
  | zero =>
    rw [unfold]
    refine (refusesSize_visit _ _).bind fun _ => refusesSize_lift fun e he => ?_
    cases he
    exact ⟨_, rfl, rfl⟩
  | succ levels ih =>
    have hnode : IsRegular g version number := h _ .refl
    unfold IsRegular at hnode
    rw [unfold]
    refine (refusesSize_visit _ _).bind fun _ => ?_
    -- a regular node has a known tag, or scalar keys that are distinct
    cases hcontent : (g.node number).content with
    | scalar tag text =>
      rw [hcontent] at hnode
      obtain ⟨t, ht⟩ := hnode
      exact refusesSize_lift fun e he => by simp [ht] at he
    | sequence numbers =>
      refine (refusesSize_unfoldItems fun item hitem => ih (h.of_holds ?_)).bind
        fun _ => refusesSize_pure _
      exact .inl ⟨numbers, hcontent, hitem⟩
    | mapping pairs =>
      rw [hcontent] at hnode
      obtain ⟨names, hnames, hkeys⟩ := hnode
      refine (refusesSize_unfoldMembers (fun value hvalue => ih (h.of_holds ?_)) hnames hkeys
        (by simp)).bind fun _ => refusesSize_pure _
      exact .inr ⟨pairs, hcontent, hvalue⟩

/-! ## The tree of a graph -/

/-- How many nodes are visited for the tree of a graph. -/
def visits (g : Graph) (version : Version) (limits : Limits) (root : Nat) : Nat :=
  ((unfold g version limits limits.levels root).run.run 0).2

theorem counts_root (g : Graph) (version : Version) (hlimit : 0 ≤ limits.nodes) (root : Nat) :
    Counts limits 0 (unfold g version limits limits.levels root)
      (Returns g version limits.levels root 0) :=
  counts_unfold _ _ hlimit

theorem visits_le (hlimit : 0 ≤ limits.nodes) (root : Nat) :
    (visits g version limits root : Int) ≤ limits.nodes + 1 := by
  cases hrun : ofGraph g version limits root with
  | error e => exact Ends.of_error (counts_root g version hlimit root) rfl hrun
  | ok t =>
    obtain ⟨-, hn⟩ := Ends.of_ok (counts_root g version hlimit root) rfl hrun
    exact Int.le_add_one hn

theorem expands_of_ofGraph (hlimit : 0 ≤ limits.nodes) {root : Nat} {t : Tree}
    (h : ofGraph g version limits root = .ok t) :
    Expands g version root t ∧ t.data.Within limits := by
  obtain ⟨⟨ht, hnodes, hheight⟩, hn⟩ := Ends.of_ok (counts_root g version hlimit root) rfl h
  unfold Limits.levels at hheight
  exact ⟨ht, by omega, by omega⟩

theorem ofGraph_of_expands {root : Nat} {t : Tree} (h : Expands g version root t)
    (hwithin : t.data.Within limits) : ofGraph g version limits root = .ok t := by
  obtain ⟨hnodes, hheight⟩ := hwithin
  have hlevels : t.data.height < limits.levels := by
    unfold Limits.levels
    omega
  have hrun : Gives 0 (unfold g version limits limits.levels root) t (0 + t.data.nodes) :=
    gives_unfold _ root 0 t h (by omega) hlevels
  unfold ofGraph
  rw [hrun]

theorem isSafety_of_ofGraph {root : Nat} (hroot : Regular g version root) {e : Failure}
    (h : ofGraph g version limits root = .error e) : IsSafety e :=
  Ends.of_error (refusesSize_unfold limits.levels hroot) trivial h

end DesignTokens.Tree

namespace DesignTokens.Document

open DesignTokens.Tree Yaml

variable {limits : Limits}

/-- A text that is too long is refused for its length alone. -/
theorem readText_of_tooLong {text : String} (h : limits.size < text.length) (version : Version)
    (filename : String) :
    readText limits version filename text =
        (.error (.issue (.ofDocument (.tooLong text.length limits.size) .origin)), version) ∧
      readJson limits version filename text =
        (.error (.issue (.ofDocument (.tooLong text.length limits.size) .origin)), version) ∧
      readYaml limits version filename text =
        (.error (.issue (.ofDocument (.tooLong text.length limits.size) .origin)), version) := by
  have hsize : limits.checkSize text.length =
      .error (.issue (.ofDocument (.tooLong text.length limits.size) .origin)) := if_pos h
  have hjson : readJson limits version filename text =
      (.error (.issue (.ofDocument (.tooLong text.length limits.size) .origin)), version) := by
    rw [readJson, hsize]
  have hyaml : readYaml limits version filename text =
      (.error (.issue (.ofDocument (.tooLong text.length limits.size) .origin)), version) := by
    rw [readYaml, hsize]
  refine ⟨?_, hjson, hyaml⟩
  unfold readText
  split
  · exact hjson
  · exact hyaml

/-- The limits hold for every graph of nodes, also one with shared nodes and with nodes that lead
back to themselves. -/
theorem limits_hold (g : Graph) (version : Version) (root : Nat) (hlimit : 0 ≤ limits.nodes) :
    (visits g version limits root : Int) ≤ limits.nodes + 1 ∧
    (∀ t, ofGraph g version limits root = .ok t →
      Expands g version root t ∧ t.data.Within limits) ∧
    (Regular g version root →
      (∀ t, Expands g version root t → t.data.Within limits →
        ofGraph g version limits root = .ok t) ∧
      ((∀ t, Expands g version root t → ¬ t.data.Within limits) →
        ∃ i, ofGraph g version limits root = .error (.issue i) ∧ i.problem.kind = .safety)) ∧
    (∀ number, Relation.ReflTransGen (Holds g) root number →
      Relation.TransGen (Holds g) number number →
      ∀ t, ¬ Expands g version root t ∧ ofGraph g version limits root ≠ .ok t) ∧
    ∀ (text filename : String), limits.size < text.length →
      let refused : Reading :=
        (.error (.issue (.ofDocument (.tooLong text.length limits.size) .origin)), version)
      readText limits version filename text = refused ∧
        readJson limits version filename text = refused ∧
        readYaml limits version filename text = refused := by
  have hcycle : ∀ number, Relation.ReflTransGen (Holds g) root number →
      Relation.TransGen (Holds g) number number → ∀ t, ¬ Expands g version root t := by
    intro number hroot hnumber t ht
    rcases Relation.reflTransGen_iff_eq_or_transGen.mp hroot with rfl | hroot
    · exact not_expands_of_cycle hnumber t ht
    · obtain ⟨u, hu, -⟩ := ht.reached hroot
      exact not_expands_of_cycle hnumber u hu
  refine ⟨visits_le hlimit root, fun t => expands_of_ofGraph hlimit, fun hregular => ⟨?_, ?_⟩, ?_,
    fun text filename h => readText_of_tooLong h version filename⟩
  · exact fun t => ofGraph_of_expands
  · intro hnone
    cases hgraph : ofGraph g version limits root with
    | ok t =>
      obtain ⟨ht, hwithin⟩ := expands_of_ofGraph hlimit hgraph
      exact absurd hwithin (hnone t ht)
    | error e =>
      obtain ⟨i, rfl, hkind⟩ := isSafety_of_ofGraph hregular hgraph
      exact ⟨i, rfl, hkind⟩
  · intro number hroot hnumber t
    have hnone := hcycle number hroot hnumber t
    exact ⟨hnone, fun h => hnone (expands_of_ofGraph hlimit h).1⟩

/-- A list of one node twice, and a text as the only other node. -/
def twice (number : Nat) : Graph :=
  #[⟨.sequence [number, number], ⟨0, 0, 0⟩, ⟨0, 8, 8⟩⟩,
    ⟨.scalar .text "a", ⟨0, 1, 1⟩, ⟨0, 2, 2⟩⟩]

theorem regular_twice (number : Nat) : Regular (twice number) .v12 0
  | 0, _ => trivial
  | 1, _ => ⟨_, rfl⟩
  | _ + 2, _ => ⟨_, rfl⟩

/-- A list that holds itself twice is refused, and a list that holds a text twice is returned when
the limits allow just three nodes and one level below the root. -/
theorem limits_hold_twice :
    (visits (twice 0) .v12 .standard 0 : Int) ≤ 200001 ∧
      (∃ i, ofGraph (twice 0) .v12 .standard 0 = .error (.issue i) ∧
        i.problem.kind = .safety) ∧
      ∃ a : Tree, ofGraph (twice 1) .v12 ⟨100, 3, 1⟩ 0 =
        .ok (.sequence [a, a] (nodeSpan ((twice 1).node 0))) := by
  obtain ⟨hvisits, -, hregular, hcycle, -⟩ :=
    @limits_hold .standard (twice 0) .v12 0 (by decide)
  obtain ⟨-, -, hexact, -⟩ := @limits_hold ⟨100, 3, 1⟩ (twice 1) .v12 0 (by decide)
  have hself : Holds (twice 0) 0 0 := .inl ⟨[0, 0], rfl, List.mem_cons_self⟩
  have htext : Expands (twice 1) .v12 1 (.scalar (.text "a") (nodeSpan ((twice 1).node 1))) :=
    .scalar (show ((twice 1).node 1).content = .scalar .text "a" from rfl) rfl
  refine ⟨hvisits, (hregular (regular_twice 0)).2 fun t ht => ?_, _,
    (hexact (regular_twice 1)).1 _ (.sequence rfl (.cons htext (.cons htext .nil))) ?_⟩
  · exact absurd ht (hcycle 0 .refl (.single hself) t).1
  · exact ⟨by decide, by decide⟩

end DesignTokens.Document
