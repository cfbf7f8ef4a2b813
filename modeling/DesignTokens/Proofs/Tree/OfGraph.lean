import DesignTokens.Proofs.Steps
import DesignTokens.Proofs.Tree.OfData
import DesignTokens.Session

/-!
# Distinct keys of documents

A document that was read from a text is made of this text and its tree (`Document.FromText`).  A key
is refused when it was a key of the same mapping before, so the keys of each mapping of such a tree
are distinct.
-/

namespace DesignTokens

open Outcome

namespace Tree

open Yaml

/-! ## Unfolding -/

/-- An unfolding that succeeds has an answer that satisfies `P`. -/
def Yields {α : Type} (x : Unfold α) (P : α → Prop) : Prop :=
  Ends (fun _ => True) x (fun a _ => P a) fun _ _ => True

section Yields

variable {α β : Type} {P : α → Prop} {Q : β → Prop} {x : Unfold α} {f : α → Unfold β}

theorem Yields.bind (hx : Yields x P) (hf : ∀ a, P a → Yields (f a) Q) : Yields (x >>= f) Q :=
  Ends.bind hx fun a s ha => hf a ha s trivial

theorem yields_pure {a : α} (h : P a) : Yields (pure a) P :=
  ends_pure fun _ _ => h

theorem yields_lift {x : Except Failure α} (h : ∀ a, x = .ok a → P a) : Yields (liftM x) P :=
  ends_lift (fun a ha _ _ => h a ha) fun _ _ _ _ => trivial

/-- What is known anyway, every answer has. -/
theorem yields_of {p : Prop} (h : p) : Yields x fun _ => p := by
  intro s _
  split
  · exact h
  · trivial

end Yields

theorem yields_visit (limits : Limits) (span : Span) :
    Yields (visit limits span) fun _ => True :=
  ends_get fun _ _ => .bind (ends_set fun _ => trivial) fun _ =>
    .bind (yields_lift fun _ _ => trivial) fun _ => yields_pure trivial

/-- A key that is taken was no key of the mapping before. -/
theorem not_mem_of_keyOf {g : Graph} {seen : List String} {number : Nat} {k : Key}
    (h : keyOf g seen number = .ok k) : k.name ∉ seen := by
  unfold keyOf at h
  dsimp only at h
  split at h
  · split at h
    · simp at h
    · rename_i hnew
      obtain rfl := Except.ok.inj h
      simpa using hnew
  · simp at h

/-- Members that are unfolded have new and distinct keys, and their values keep what all values
have. -/
theorem unfoldMembers_spec {g : Graph} {unfoldValue : Nat → Unfold Tree}
    (hvalue : ∀ v, Yields (unfoldValue v) Tree.WellKeyed) (seen : List String)
    (pairs : List (Nat × Nat)) :
    Yields (unfoldMembers g unfoldValue seen pairs) fun ms =>
      (ms.map (·.1.name)).Nodup ∧ (∀ m ∈ ms, m.1.name ∉ seen) ∧ ∀ m ∈ ms, m.2.WellKeyed := by
  induction pairs generalizing seen with
  | nil => exact yields_pure (by simp)
  | cons pair rest ih =>
    obtain ⟨k, v⟩ := pair
    rw [unfoldMembers]
    refine (yields_lift fun key => not_mem_of_keyOf).bind fun key hfresh => ?_
    refine (hvalue v).bind fun value hkeyed => (ih _).bind fun others => ?_
    -- the later keys are new when this one counts as seen
    rintro ⟨hnodup, hnew, hothers⟩
    refine yields_pure ⟨?_, ?_, ?_⟩
    · rw [List.map_cons]
      refine List.nodup_cons.mpr ⟨?_, hnodup⟩
      intro hmem
      obtain ⟨m, hm, hname⟩ := List.mem_map.mp hmem
      exact hnew m hm (hname ▸ List.mem_cons_self)
    · intro m hm
      rcases List.mem_cons.mp hm with rfl | hm
      · exact hfresh
      · exact fun hseen => hnew m hm (List.mem_cons_of_mem _ hseen)
    · exact List.forall_mem_cons.mpr ⟨hkeyed, hothers⟩

/-- Items that are unfolded keep what all items have. -/
theorem unfoldItems_spec {unfoldItem : Nat → Unfold Tree}
    (hitem : ∀ v, Yields (unfoldItem v) Tree.WellKeyed) (numbers : List Nat) :
    Yields (unfoldItems unfoldItem numbers) fun ts => ∀ t ∈ ts, t.WellKeyed := by
  induction numbers with
  | nil => exact yields_pure (by simp)
  | cons number rest ih =>
    rw [unfoldItems]
    exact (hitem number).bind fun item hkeyed => ih.bind fun others hothers =>
      yields_pure (List.forall_mem_cons.mpr ⟨hkeyed, hothers⟩)

/-- The tree of a scalar has no keys. -/
theorem wellKeyed_of_ofScalar {version : Version} {tag : ScalarTag} {text : String} {span : Span}
    {t : Tree} (h : ofScalar version tag text span = .ok t) : t.WellKeyed := by
  unfold ofScalar at h
  split at h
  · obtain rfl := Except.ok.inj h
    exact .scalar _ _
  · obtain rfl := Except.ok.inj h
    exact .null _
  · simp at h

/-- What a node unfolds to has distinct keys. -/
theorem wellKeyed_of_unfold {g : Graph} {version : Version} {limits : Limits} (levels : Nat) :
    ∀ number, Yields (unfold g version limits levels number) Tree.WellKeyed := by
  induction levels with
  | zero =>
    intro number
    rw [unfold]
    -- without levels left the tree is too deep
    exact (yields_visit _ _).bind fun _ _ => yields_lift fun t ht => by simp [Limits.tooDeep] at ht
  | succ levels ih =>
    intro number
    rw [unfold]
    refine (yields_visit _ _).bind fun _ _ => ?_
    split
    · -- a node is a scalar, a sequence or a mapping
      exact yields_lift fun t => wellKeyed_of_ofScalar
    · exact (unfoldItems_spec ih _).bind fun items hitems => yields_pure (.sequence _ _ hitems)
    · refine (unfoldMembers_spec ih _ _).bind fun members hmembers => ?_
      exact yields_pure (.mapping _ _ hmembers.1 hmembers.2.2)

theorem wellKeyed_of_ofGraph {g : Graph} {version : Version} {limits : Limits} {root : Nat}
    {t : Tree} (h : ofGraph g version limits root = .ok t) : t.WellKeyed :=
  Ends.of_ok (wellKeyed_of_unfold limits.levels root) trivial h

end Tree

namespace Document

/-- The tree of a text has distinct keys. -/
theorem wellKeyed_of_treeOfText {limits : Limits} {version : Yaml.Version} {format : Format}
    {text : String} {t : Tree} (h : (treeOfText limits version format text).1 = .ok t) :
    t.WellKeyed := by
  unfold treeOfText at h
  split at h
  · simp at h
  · obtain rfl := Except.ok.inj h
    exact .mapping _ _ List.nodup_nil (by simp)
  · exact Tree.wellKeyed_of_ofGraph h

/-- A document is made of a text and the tree of it. -/
def FromText (limits : Limits) (version : Yaml.Version) (text : String) (d : Document) : Prop :=
  d.source = text ∧ ∃ format, (treeOfText limits version format text).1 = .ok d.root

section Reading

variable {limits : Limits} {version : Yaml.Version} {filename text : String} {d : Document}

theorem fromText_of_readAs {format : Format}
    (h : (readAs format limits version filename text).1 = .ok d) :
    d.FromText limits version text := by
  obtain ⟨t, ht, rfl⟩ := exceptMap_eq_ok.mp h
  exact ⟨rfl, format, ht⟩

theorem fromText_of_readYaml (h : (readYaml limits version filename text).1 = .ok d) :
    d.FromText limits version text := by
  unfold readYaml at h
  split at h
  · cases h
  · exact fromText_of_readAs h

theorem fromText_of_readJson (h : (readJson limits version filename text).1 = .ok d) :
    d.FromText limits version text := by
  unfold readJson at h
  split at h
  · cases h
  · split at h
    · cases h
    · exact fromText_of_readAs h

theorem fromText_of_readText (h : (readText limits version filename text).1 = .ok d) :
    d.FromText limits version text := by
  unfold readText at h
  split at h
  · exact fromText_of_readJson h
  · exact fromText_of_readYaml h

/-- A document that was read from a text has distinct keys. -/
theorem wellKeyed_of_readText (h : (readText limits version filename text).1 = .ok d) :
    d.root.WellKeyed := by
  obtain ⟨-, format, htree⟩ := fromText_of_readText h
  exact wellKeyed_of_treeOfText htree

end Reading

end Document

namespace Input

/-- An input that is a text, or data that is written as one. -/
def HasText : Input → Prop
  | .data _ rendered => rendered = true
  | _ => True

theorem hasText_or (i : Input) : i.HasText ∨ ∃ content, i = .data content false := by
  cases i with
  | data content rendered =>
    cases rendered with
    | true => exact .inl rfl
    | false => exact .inr ⟨content, rfl⟩
  | _ => exact .inl trivial

theorem fromText_of_read {limits : Limits} {version : Yaml.Version} {i : Input} {d : Document}
    (hi : i.HasText) (h : (i.read limits version).1 = .ok d) (color : Bool) :
    d.FromText limits version (i.source color).text := by
  cases i with
  | text filename content => exact Document.fromText_of_readText h
  | json filename content => exact Document.fromText_of_readJson h
  | yaml filename content => exact Document.fromText_of_readYaml h
  | data content rendered =>
    obtain rfl : rendered = true := hi
    obtain ⟨e, he, rfl⟩ := exceptMap_eq_ok.mp h
    -- only the format is a different one
    obtain ⟨hsource, format, htree⟩ := Document.fromText_of_readJson he
    exact ⟨hsource, format, htree⟩

end Input

end DesignTokens
