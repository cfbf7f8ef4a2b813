import DesignTokens.Proofs.Outcome
import DesignTokens.Proofs.Yaml.Graph
import DesignTokens.Proofs.Yaml.Lines
import DesignTokens.Session

/-!
# Failures of reading

A text that cannot be read is reported with a problem of its form or of its safety, with a few
exceptions (`read_failure`): integers that are too long, declared versions without rules, escapes
for characters that do not exist, tags with broken escapes, and scalars that their tags cannot read.
The last ones need no unusual text: a word with a tag of its own is enough (`tag_escapes`).  What is
reported has a place in the text (`Input.failsOnly_read`).
-/

namespace DesignTokens

open Yaml

/-! ## Failures of a kind -/

section FailsOnly

variable {α β : Type} {E F : Failure → Prop} {x : Except Failure α} {f : α → Except Failure β}

/-- A computation only fails with failures that satisfy `E`. -/
def FailsOnly (E : Failure → Prop) (x : Except Failure α) : Prop := ∀ e, x = .error e → E e

theorem failsOnly_ok {a : α} : FailsOnly E (.ok a : Except Failure α) := by
  rintro e ⟨⟩

theorem failsOnly_error {e : Failure} (h : E e) : FailsOnly E (.error e : Except Failure α) := by
  rintro _ ⟨⟩
  exact h

theorem FailsOnly.bind (hx : FailsOnly E x) (hf : ∀ a, FailsOnly E (f a)) :
    FailsOnly E (x >>= f) := by
  cases x with
  | error e => exact failsOnly_error (hx e rfl)
  | ok a => exact hf a

theorem FailsOnly.map {g : α → β} (hx : FailsOnly E x) : FailsOnly E (x.map g) := by
  cases x with
  | error e => exact failsOnly_error (hx e rfl)
  | ok a => exact failsOnly_ok

theorem FailsOnly.imp (hx : FailsOnly E x) (h : ∀ e, E e → F e) : FailsOnly F x :=
  fun e he => h e (hx e he)

end FailsOnly

/-- A failure that is reported so at a place of a text. -/
inductive Failure.Reported (text : List Char) : Failure → Prop where
  | intro (i : Issue) (hkind : i.problem.kind = .form ∨ i.problem.kind = .safety)
      (hspan : i.span.In text) : Reported text (.issue i)

namespace Limits

variable {text : List Char} {span : Span}

theorem failsOnly_checkSize (l : Limits) (size : Nat) :
    FailsOnly (Failure.Reported text) (l.checkSize size) := by
  unfold checkSize
  split
  · exact failsOnly_error ⟨_, .inr rfl, Span.in_origin text⟩
  · exact failsOnly_ok

theorem failsOnly_countNode (l : Limits) (hspan : span.In text) (count : Nat) :
    FailsOnly (Failure.Reported text) (l.countNode span count) := by
  unfold countNode
  split
  · exact failsOnly_error ⟨_, .inr rfl, hspan⟩
  · exact failsOnly_ok

theorem failsOnly_tooDeep {α : Type} (l : Limits) (hspan : span.In text) :
    FailsOnly (Failure.Reported text) (l.tooDeep span : Except Failure α) :=
  failsOnly_error ⟨_, .inr rfl, hspan⟩

end Limits

/-! ## Trees -/

namespace Tree

variable {text : List Char}

theorem failsOnly_enter (limits : Limits) (depth count : Nat) :
    FailsOnly (Failure.Reported text) (enter limits depth count) := by
  refine (limits.failsOnly_countNode (Span.in_origin text) _).bind fun n => ?_
  split
  · exact limits.failsOnly_tooDeep (Span.in_origin text)
  · exact failsOnly_ok

mutual

theorem failsOnly_wrap (limits : Limits) : (d : Data) → (depth count : Nat) →
    FailsOnly (Failure.Reported text) (wrap limits depth count d)
  | .null, _, _ | .scalar _, _, _ => by
    rw [wrap]
    exact (failsOnly_enter _ _ _).bind fun _ => failsOnly_ok
  | .list items, _, _ => by
    rw [wrap]
    exact (failsOnly_enter _ _ _).bind fun _ => (failsOnly_wrapItems limits items _ _).bind fun _ =>
      failsOnly_ok
  | .object members, _, _ => by
    rw [wrap]
    exact (failsOnly_enter _ _ _).bind fun _ =>
      (failsOnly_wrapMembers limits members _ _).bind fun _ => failsOnly_ok

theorem failsOnly_wrapItems (limits : Limits) : (ds : List Data) → (depth count : Nat) →
    FailsOnly (Failure.Reported text) (wrapItems limits depth count ds)
  | [], _, _ => failsOnly_ok
  | d :: ds, _, _ => by
    rw [wrapItems]
    exact (failsOnly_wrap limits d _ _).bind fun _ =>
      (failsOnly_wrapItems limits ds _ _).bind fun _ => failsOnly_ok

theorem failsOnly_wrapMembers (limits : Limits) :
    (ms : List (String × Data)) → (depth count : Nat) →
    FailsOnly (Failure.Reported text) (wrapMembers limits depth count ms)
  | [], _, _ => failsOnly_ok
  | (_, d) :: ms, _, _ => by
    rw [wrapMembers]
    exact (failsOnly_wrap limits d _ _).bind fun _ =>
      (failsOnly_wrapMembers limits ms _ _).bind fun _ => failsOnly_ok

end

/-- A scalar of a graph that its tag cannot read, with the fault of it. -/
def Unreadable (g : Graph) (version : Version) (fault : Fault) : Prop :=
  ∃ number tag text, (g.node number).content = .scalar tag text ∧
    readScalar version tag text = .error fault

/-- All nodes of a graph are at places of a text. -/
def PlacedIn (g : Graph) (text : List Char) : Prop := ∀ number, (nodeSpan (g.node number)).In text

/-- A failure of the trees of a graph. -/
def FailsTree (g : Graph) (version : Version) (text : List Char) (e : Failure) : Prop :=
  e.Reported text ∨ ∃ fault, e = .fault fault ∧ Unreadable g version fault

variable {g : Graph} {version : Version} {limits : Limits}

theorem failsOnly_keyOf (hg : PlacedIn g text) (seen : List String) (number : Nat) :
    FailsOnly (Failure.Reported text) (keyOf g seen number) := by
  unfold keyOf
  dsimp only
  split
  · split
    · exact failsOnly_error ⟨_, .inl rfl, hg number⟩
    · exact failsOnly_ok
  · exact failsOnly_error ⟨_, .inl rfl, hg number⟩

/-- A computation that counts fails only so from every number of nodes on. -/
def UnfoldsOnly {α : Type} (E : Failure → Prop) (x : Unfold α) : Prop :=
  Ends (fun _ => True) x (fun _ _ => True) fun e _ => E e

theorem UnfoldsOnly.bind {α β : Type} {E : Failure → Prop} {x : Unfold α} {f : α → Unfold β}
    (hx : UnfoldsOnly E x) (hf : ∀ a, UnfoldsOnly E (f a)) : UnfoldsOnly E (x >>= f) :=
  Ends.bind hx hf

theorem unfoldsOnly_pure {α : Type} {E : Failure → Prop} (a : α) :
    UnfoldsOnly E (pure a : Unfold α) :=
  ends_pure fun _ _ => trivial

theorem unfoldsOnly_lift {α : Type} {E : Failure → Prop} {x : Except Failure α}
    (hx : FailsOnly E x) : UnfoldsOnly E (liftM x : Unfold α) :=
  ends_lift (fun _ _ _ _ => trivial) fun e he _ _ => hx e he

theorem unfoldsOnly_visit {E : Failure → Prop} (hE : ∀ e : Failure, e.Reported text → E e)
    {span : Span} (hspan : span.In text) : UnfoldsOnly E (visit limits span) :=
  ends_get fun count _ => .bind (ends_set fun _ => trivial) fun _ =>
    (unfoldsOnly_lift ((limits.failsOnly_countNode hspan count).imp hE)).bind fun _ =>
      unfoldsOnly_pure _

theorem unfoldsOnly_items {E : Failure → Prop} {unfoldItem : Nat → Unfold Tree}
    (hitem : ∀ number, UnfoldsOnly E (unfoldItem number)) (numbers : List Nat) :
    UnfoldsOnly E (unfoldItems unfoldItem numbers) := by
  induction numbers with
  | nil => exact unfoldsOnly_pure _
  | cons number rest ih =>
    exact (hitem number).bind fun _ => ih.bind fun _ => unfoldsOnly_pure _

theorem unfoldsOnly_members (hg : PlacedIn g text) {unfoldValue : Nat → Unfold Tree}
    (hvalue : ∀ number, UnfoldsOnly (FailsTree g version text) (unfoldValue number))
    (members : List (Nat × Nat)) (seen : List String) :
    UnfoldsOnly (FailsTree g version text) (unfoldMembers g unfoldValue seen members) := by
  induction members generalizing seen with
  | nil => exact unfoldsOnly_pure _
  | cons m rest ih =>
    obtain ⟨k, v⟩ := m
    rw [unfoldMembers]
    refine (unfoldsOnly_lift ((failsOnly_keyOf hg seen k).imp fun _ => .inl)).bind fun key => ?_
    exact (hvalue v).bind fun _ => (ih _).bind fun _ => unfoldsOnly_pure _

/-- A node fails with a report, or with the fault of a scalar that cannot be read. -/
theorem unfoldsOnly_unfold (hg : PlacedIn g text) (levels number : Nat) :
    UnfoldsOnly (FailsTree g version text) (unfold g version limits levels number) := by
  induction levels generalizing number with
  | zero =>
    rw [unfold]
    refine (unfoldsOnly_visit (fun _ => .inl) (hg number)).bind fun _ => ?_
    exact unfoldsOnly_lift ((limits.failsOnly_tooDeep (hg number)).imp fun _ => .inl)
  | succ levels ih =>
    rw [unfold]
    refine (unfoldsOnly_visit (fun _ => .inl) (hg number)).bind fun _ => ?_
    split
    · rename_i tag text hnode
      refine unfoldsOnly_lift ?_
      unfold ofScalar
      split
      · exact failsOnly_ok
      · exact failsOnly_ok
      · rename_i fault hfault
        exact failsOnly_error (.inr ⟨fault, rfl, number, tag, text, hnode, hfault⟩)
    · exact (unfoldsOnly_items ih _).bind fun _ => unfoldsOnly_pure _
    · exact (unfoldsOnly_members hg ih _ _).bind fun _ => unfoldsOnly_pure _

theorem failsOnly_ofGraph (hg : PlacedIn g text) (root : Nat) :
    FailsOnly (FailsTree g version text) (ofGraph g version limits root) :=
  fun _ he => Ends.of_error (unfoldsOnly_unfold hg limits.levels root) trivial he

/-- The nodes of a graph that was read are at places of the text. -/
theorem placedIn_of_readGraph {root : Option Nat} (h : (readGraph version text).1 = .ok (g, root)) :
    PlacedIn g text :=
  fun number => Span.in_of_markOf (readGraph_marks h number).start _ none

end Tree

/-! ## Texts -/

namespace Document

/-- A text has something in it that can fail without being reported: it declares a version, it has
an escape with eight digits or a tag with an escape, it is no JSON because a number of it is too
long, or a scalar of it is not what its tag says. -/
def CanFail (version : Version) (text : String) (fault : Fault) : Prop :=
  Yaml.DeclaresVersion text.toList ∨ HasLongEscape text.toList ∨ HasTagEscape text.toList ∨
    (∃ e, Json.read text = .error e ∧ e.problem = .tooManyDigits) ∨
    ∃ g root, (readGraph version text.toList).1 = .ok (g, root) ∧
      Tree.Unreadable g (readGraph version text.toList).2 fault

/-- A failure of a text is reported, or the text has something in it that fails without. -/
def FailsText (version : Version) (text : String) (e : Failure) : Prop :=
  e.Reported text.toList ∨ ∃ fault, e = .fault fault ∧ CanFail version text fault

variable {limits : Limits} {version : Version} {filename text : String}

theorem failsText_ofYamlFailure {format : Format} {e : Yaml.Failure}
    (h : (∃ char offset, e = .unacceptable char offset) ∨ e.HasCause text.toList) :
    FailsText version text (ofYamlFailure format e) := by
  obtain ⟨char, offset, rfl⟩ | ⟨problem, hmark⟩ | ⟨hfault, ⟨fault⟩⟩ := h
  · exact .inl ⟨_, .inl rfl, Span.in_origin _⟩
  · exact .inl ⟨_, .inl rfl, Span.in_of_markOf hmark 0 none⟩
  · refine .inr ⟨fault, rfl, ?_⟩
    obtain hversion | hlong | htag := hfault
    · exact .inl hversion
    · exact .inr (.inl hlong)
    · exact .inr (.inr (.inl htag))

theorem failsOnly_treeOfText (format : Format) :
    FailsOnly (FailsText version text) (treeOfText limits version format text).1 := by
  unfold treeOfText
  split
  · rename_i e v hgraph
    exact failsOnly_error (failsText_ofYamlFailure (readGraph_failure (by rw [hgraph])))
  · exact failsOnly_ok
  · rename_i g root v hgraph
    have hg := Tree.placedIn_of_readGraph (congrArg Prod.fst hgraph)
    -- a fault of the tree is that of a scalar of this graph
    refine (Tree.failsOnly_ofGraph hg root).imp fun e he => he.imp_right ?_
    rintro ⟨fault, rfl, hfault⟩
    refine ⟨fault, rfl, .inr (.inr (.inr (.inr ⟨g, some root, by rw [hgraph], ?_⟩)))⟩
    rw [hgraph]
    exact hfault

theorem failsOnly_readAs (format : Format) :
    FailsOnly (FailsText version text) (readAs format limits version filename text).1 :=
  (failsOnly_treeOfText format).map

theorem failsOnly_readYaml :
    FailsOnly (FailsText version text) (readYaml limits version filename text).1 := by
  unfold readYaml
  split
  · rename_i e he
    exact failsOnly_error (.inl (limits.failsOnly_checkSize _ e he))
  · exact failsOnly_readAs _

/-- The place of an error of JSON counts line feeds. -/
theorem failsText_ofJsonError {e : Json.Error} (he : Json.read text = .error e) :
    FailsText version text (ofJsonError text.toList e) := by
  unfold ofJsonError
  split
  · exact .inr ⟨_, rfl, .inr (.inr (.inr (.inl ⟨e, he, ‹_›⟩)))⟩
  · -- what the reader has left says how much it has read
    refine .inl ⟨_, .inl rfl, ?_⟩
    set offset := text.toList.length - e.rest.length
    have hplace := Span.in_placeAfter (text.toList.take offset) (text.toList.drop offset) 0 none
    rw [List.take_append_drop, List.length_take, Nat.min_eq_left (Nat.sub_le _ _)] at hplace
    exact hplace

theorem failsOnly_readJson :
    FailsOnly (FailsText version text) (readJson limits version filename text).1 := by
  unfold readJson
  split
  · rename_i e he
    exact failsOnly_error (.inl (limits.failsOnly_checkSize _ e he))
  · split
    · exact failsOnly_error (failsText_ofJsonError ‹_›)
    · exact failsOnly_readAs _

theorem failsOnly_readText :
    FailsOnly (FailsText version text) (readText limits version filename text).1 := by
  unfold readText
  split
  · exact failsOnly_readJson
  · exact failsOnly_readYaml

end Document

theorem Input.failsOnly_read (limits : Limits) (version : Version) (i : Input) (color : Bool) :
    FailsOnly (Document.FailsText version (i.source color).text) (i.read limits version).1 := by
  cases i with
  | text filename content => exact Document.failsOnly_readText
  | json filename content => exact Document.failsOnly_readJson
  | yaml filename content => exact Document.failsOnly_readYaml
  | data content rendered =>
    cases rendered with
    | true => exact Document.failsOnly_readJson.map
    | false => exact ((Tree.failsOnly_wrap limits content 0 0).map.map).imp fun _ => .inl

end DesignTokens
