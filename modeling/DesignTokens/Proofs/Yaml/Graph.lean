import DesignTokens.Proofs.Yaml.Scan
import DesignTokens.Yaml.Graph

/-!
# What reading a graph keeps

The readers of nodes call each other, and each call has less fuel than the one around it.  So what
one round of them keeps follows from what the readers with less fuel keep (`ReadM.Readers`).  For a
whole text this gives the version after it, the causes of its failures and the places of its nodes
(`readGraph_version`, `readGraph_failure`, `readGraph_marks`).
-/

namespace DesignTokens.Yaml

/-! ## States of a reader -/

/-- A node that starts and ends at places of a text. -/
structure Node.In (text : List Char) (n : Node) : Prop where
  start : MarkOf text n.start
  stop : MarkOf text n.stop

/-- A state in the reading of a text. -/
structure Reading.Fits (text : List Char) (first : Version) (r : Reading) : Prop where
  scan : r.scan.Fits text first Anywhere
  nodes : ∀ n ∈ r.nodes, n.In text

namespace ReadM

variable {α β : Type} {text : List Char} {first : Version}

/-- What a step of a reader keeps, with an answer that satisfies `Q`. -/
def Keeps (text : List Char) (first : Version) (m : ReadM α) (Q : α → Prop) : Prop :=
  Ends (Reading.Fits text first) m (fun a r => Q a ∧ r.Fits text first)
    fun e r => e.HasCause text ∧ r.Fits text first

/-- Nothing is known of an answer. -/
abbrev Any (_ : α) : Prop := True

section Rules

variable {Q : α → Prop} {R : β → Prop} {m : ReadM α} {f : α → ReadM β}

theorem Keeps.bind (hm : Keeps text first m Q) (hf : ∀ a, Q a → Keeps text first (f a) R) :
    Keeps text first (m >>= f) R :=
  Ends.bind hm fun a r hr => hf a hr.1 r hr.2

/-- A step whose answer does not matter, and steps after it. -/
theorem Keeps.andThen (hm : Keeps text first m Any) (hf : ∀ a, Keeps text first (f a) R) :
    Keeps text first (m >>= f) R :=
  hm.bind fun a _ => hf a

theorem keeps_pure {a : α} (h : Q a) : Keeps text first (pure a) Q :=
  ends_pure fun _ hr => ⟨h, hr⟩

theorem keeps_throw {e : Failure} (h : e.HasCause text) :
    Keeps text first (throw e : ReadM α) Q :=
  ends_throw fun _ hr => ⟨h, hr⟩

theorem keeps_get {f : Reading → ReadM β} (h : ∀ r, r.Fits text first → Keeps text first (f r) R) :
    Keeps text first (get >>= f) R :=
  fun r hr => h r hr r hr

theorem keeps_modify {g : Reading → Reading} (h : ∀ r, r.Fits text first → (g r).Fits text first) :
    Keeps text first (modify g) Any :=
  ends_modify fun r hr => ⟨trivial, h r hr⟩

theorem keeps_ite {p : Prop} [Decidable p] {m' : ReadM α} (hm : Keeps text first m Q)
    (hm' : Keeps text first m' Q) : Keeps text first (if p then m else m') Q := by
  split
  · exact hm
  · exact hm'

theorem keeps_map {g : α → β} (hm : Keeps text first m Any) :
    Keeps text first (g <$> m) Any := by
  rw [map_eq_pure_bind]
  exact hm.andThen fun _ => keeps_pure trivial

theorem keeps_failAt (problem : Problem) {mark : Mark} (hmark : MarkOf text mark) :
    Keeps text first (failAt problem mark : ReadM α) Q :=
  keeps_throw (.inl ⟨problem, hmark⟩)

/-- Nothing is asked of what would follow a failure. -/
theorem keeps_failAt_bind (problem : Problem) {mark : Mark} (hmark : MarkOf text mark) :
    Keeps text first (failAt problem mark >>= f) R :=
  (keeps_failAt problem hmark (Q := fun _ => False)).bind fun _ h => h.elim

end Rules

/-! ## Tokens and nodes -/

theorem keeps_scanning {step : ScanM α} {Q : α → Prop}
    (h : ScanM.Keeps text first Anywhere step fun a _ => Q a) :
    Keeps text first (scanning step) Q := by
  unfold scanning
  refine keeps_get fun r hr => ?_
  have hstep := h r.scan hr.scan
  split
  rename_i answer scan hrun
  rw [show step.run.run r.scan = (answer, scan) from hrun] at hstep
  cases answer with
  | error e =>
    exact .andThen (keeps_modify fun _ ht => ⟨hstep.2, ht.nodes⟩) fun _ => keeps_throw hstep.1
  | ok a =>
    exact .andThen (keeps_modify fun _ ht => ⟨hstep.imp fun _ => trivial, ht.nodes⟩) fun _ =>
      keeps_pure hstep.cursor

theorem keeps_peek : Keeps text first peek (Token.In text) :=
  keeps_scanning ScanM.keeps_peek

theorem keeps_drop : Keeps text first drop Any :=
  keeps_scanning ScanM.keeps_release

theorem keeps_version : Keeps text first version Any :=
  keeps_get fun _ _ => keeps_pure trivial

theorem keeps_finish (number : Nat) (content : Content) {stop : Mark} (hstop : MarkOf text stop) :
    Keeps text first (finish number content stop) Any := by
  refine keeps_modify fun r hr => ⟨hr.scan, fun n hn => ?_⟩
  -- the node that is finished keeps the place where it starts
  obtain ⟨i, hi, rfl⟩ := Array.mem_iff_getElem.mp hn
  have hold : ∀ (h : i < r.nodes.size), (r.nodes[i]).In text := fun h =>
    hr.nodes _ (Array.getElem_mem h)
  simp only [Graph.finish, Array.size_modify] at hi
  simp only [Graph.finish, Array.getElem_modify]
  split
  · exact ⟨(hold hi).start, hstop⟩
  · exact hold hi

theorem keeps_addNode (anchor : Option String) {node : Node} (hnode : node.In text) :
    Keeps text first (addNode anchor node) Any := by
  refine fun r hr => ⟨trivial, hr.scan, fun n hn => ?_⟩
  rcases Array.mem_push.mp hn with hn | rfl
  · exact hr.nodes n hn
  · exact hnode

theorem keeps_addCollection (anchor : Option String) (content : Content) {start : Mark}
    (hstart : MarkOf text start) : Keeps text first (addCollection anchor content start) Any :=
  keeps_addNode _ ⟨hstart, hstart⟩

theorem keeps_scalarTag (tag : Option String) (content : String) (plain : Bool) :
    Keeps text first (scalarTag tag content plain) Any := by
  unfold scalarTag
  extract_lets implied
  exact keeps_ite (keeps_version.andThen fun _ => keeps_pure trivial) (keeps_pure trivial)

theorem keeps_addEmpty {mark : Mark} (hmark : MarkOf text mark) :
    Keeps text first (addEmpty mark) Any :=
  (keeps_scalarTag _ _ _).andThen fun _ => keeps_addNode _ ⟨hmark, hmark⟩

/-! ## Properties -/

theorem keeps_wholeTag {tag : TagText} (htag : (TokenKind.tag tag).In text) {mark : Mark}
    (hmark : MarkOf text mark) : Keeps text first (wholeTag tag mark) Any := by
  unfold wholeTag
  extract_lets rest
  have hrest : ∀ expansion, Keeps text first (rest (expansion, tag.suffix)) Any := by
    intro expansion
    unfold rest
    dsimp only
    split
    · exact keeps_pure trivial
    · -- only escapes in the tag can make it unreadable
      rename_i hnone
      refine keeps_throw (.inr ⟨.inr (.inr ⟨htag.1, htag.2 ?_⟩), ⟨_⟩⟩)
      refine Decidable.byContradiction fun hnot => ?_
      obtain ⟨t, ht⟩ := Lexeme.exists_unescapeSuffix hnot
      rw [ht] at hnone
      cases hnone
  cases tag with
  | verbatim t => exact hrest ""
  | shorthand handle suffix =>
    refine keeps_get fun r _ => ?_
    split
    · exact hrest _
    · exact keeps_failAt_bind _ hmark

/-- Properties have their place in the text. -/
def Properties.In (text : List Char) (props : Properties) : Prop :=
  ∀ extent, props.extent = some extent → MarkOf text extent.1 ∧ MarkOf text extent.2

theorem Properties.in_of_extent {anchor tag : Option String} {start stop : Mark}
    (hstart : MarkOf text start) (hstop : MarkOf text stop) :
    Properties.In text ⟨anchor, tag, some (start, stop)⟩ := by
  rintro _ ⟨⟩
  exact ⟨hstart, hstop⟩

/-- A node starts where its properties do, or else where its first token does. -/
theorem Properties.In.start {props : Properties} (h : props.In text) {mark : Mark}
    (hmark : MarkOf text mark) : MarkOf text ((props.extent.map (·.1)).getD mark) := by
  cases hextent : props.extent with
  | none => exact hmark
  | some extent => exact (h extent hextent).1

theorem keeps_properties : Keeps text first properties (Properties.In text) := by
  unfold properties
  refine keeps_peek.bind fun t ht => ?_
  split
  · refine keeps_drop.andThen fun _ => keeps_peek.bind fun u hu => ?_
    split
    · rename_i hkind
      exact keeps_drop.andThen fun _ => (keeps_wholeTag (hkind ▸ hu.kind) hu.start).andThen fun _ =>
        keeps_pure (Properties.in_of_extent ht.start hu.stop)
    · exact keeps_pure (Properties.in_of_extent ht.start ht.stop)
  · rename_i hkind
    refine keeps_drop.andThen fun _ => keeps_peek.bind fun u hu => ?_
    split
    · exact keeps_drop.andThen fun _ => (keeps_wholeTag (hkind ▸ ht.kind) hu.start).andThen fun _ =>
        keeps_pure (Properties.in_of_extent hu.start hu.stop)
    · exact (keeps_wholeTag (hkind ▸ ht.kind) ht.start).andThen fun _ =>
        keeps_pure (Properties.in_of_extent ht.start ht.stop)
  · exact keeps_pure (by simp [Properties.In])

/-! ## Nodes by recursive descent -/

theorem keeps_startsValue (kind : TokenKind) : Keeps text first (startsValue kind) Any := by
  unfold startsValue
  split
  · exact keeps_version.andThen fun _ => keeps_pure trivial
  · exact keeps_pure trivial

theorem keeps_takeComma (bracket : Char) : Keeps text first (takeComma bracket) Any := by
  unfold takeComma
  refine keeps_peek.bind fun t ht => ?_
  split
  · exact keeps_drop
  · exact keeps_failAt _ ht.start

theorem keeps_takeBlockEnd : Keeps text first takeBlockEnd (MarkOf text) := by
  unfold takeBlockEnd
  refine keeps_peek.bind fun t ht => ?_
  split
  · exact keeps_drop.andThen fun _ => keeps_pure ht.stop
  · exact keeps_failAt _ ht.start

/-- What the readers of nodes keep with an amount of fuel. -/
structure Readers (text : List Char) (first : Version) (fuel : Nat) : Prop where
  node : ∀ place, Keeps text first (readNode fuel place) Any
  items : ∀ number done, Keeps text first (readItems fuel number done) Any
  entries : ∀ number done, Keeps text first (readEntries fuel number done) Any
  members : ∀ number done, Keeps text first (readMembers fuel number done) Any
  memberValue : Keeps text first (readMemberValue fuel) Any
  flowItems : ∀ number done, Keeps text first (readFlowItems fuel number done) Any
  flowValue : ∀ close, Keeps text first (readFlowValue fuel close) Any
  flowMembers : ∀ number done, Keeps text first (readFlowMembers fuel number done) Any

variable {fuel : Nat}

/-- A collection is added, and then filled. -/
theorem keeps_collection {anchor : Option String} {content : Content} {start : Mark}
    {fill : Nat → ReadM Unit} (hstart : MarkOf text start)
    (hfill : ∀ number, Keeps text first (fill number) Any) :
    Keeps text first (do
      let number ← addCollection anchor content start
      fill number
      return number) Any :=
  (keeps_addCollection _ _ hstart).andThen fun number => (hfill number).andThen fun _ =>
    keeps_pure trivial

theorem Readers.readNode (h : Readers text first fuel) (place : Place) :
    Keeps text first (readNode (fuel + 1) place) Any := by
  unfold ReadM.readNode
  refine keeps_peek.bind fun t ht => ?_
  split
  · refine keeps_drop.andThen fun _ => keeps_get fun r _ => ?_
    split
    · exact keeps_pure trivial
    · exact keeps_failAt _ ht.start
  · refine keeps_properties.bind fun props hprops => keeps_peek.bind fun u hu => ?_
    extract_lets start
    -- all kinds of nodes share the place where their properties start
    have hstart : MarkOf text start := hprops.start hu.start
    split
    · exact keeps_drop.andThen fun _ => (keeps_scalarTag _ _ _).andThen fun _ =>
        keeps_addNode _ ⟨hstart, hu.stop⟩
    · exact keeps_drop.andThen fun _ => keeps_collection hstart fun _ => h.flowItems _ _
    · exact keeps_drop.andThen fun _ => keeps_collection hstart fun _ => h.flowMembers _ _
    · split
      · exact keeps_collection hstart fun _ => h.entries _ _
      · exact keeps_drop.andThen fun _ => keeps_collection hstart fun _ => h.items _ _
      · exact keeps_drop.andThen fun _ => keeps_collection hstart fun _ => h.items _ _
      · exact keeps_drop.andThen fun _ => keeps_collection hstart fun _ => h.members _ _
      · exact keeps_drop.andThen fun _ => keeps_collection hstart fun _ => h.members _ _
      · split
        · obtain ⟨hfirst, hlast⟩ := hprops _ ‹_›
          exact (keeps_scalarTag _ _ _).andThen fun _ => keeps_addNode _ ⟨hfirst, hlast⟩
        · exact keeps_failAt _ hu.start

theorem Readers.readItems (h : Readers text first fuel) (number : Nat) (done : List Nat) :
    Keeps text first (readItems (fuel + 1) number done) Any := by
  unfold ReadM.readItems
  refine keeps_peek.bind fun t ht => ?_
  split
  · refine keeps_drop.andThen fun _ => keeps_peek.bind fun u _ => ?_
    split
    · exact (keeps_addEmpty ht.stop).andThen fun _ => h.items _ _
    · exact (keeps_addEmpty ht.stop).andThen fun _ => h.items _ _
    · exact (h.node _).andThen fun _ => h.items _ _
  · exact keeps_takeBlockEnd.bind fun _ hend => keeps_finish _ _ hend

theorem Readers.readEntries (h : Readers text first fuel) (number : Nat) (done : List Nat) :
    Keeps text first (readEntries (fuel + 1) number done) Any := by
  unfold ReadM.readEntries
  refine keeps_peek.bind fun t ht => ?_
  split
  · refine keeps_drop.andThen fun _ => keeps_peek.bind fun u _ => ?_
    split
    iterate 4 exact (keeps_addEmpty ht.stop).andThen fun _ => h.entries _ _
    exact (h.node _).andThen fun _ => h.entries _ _
  · exact keeps_finish _ _ ht.start

theorem Readers.readMembers (h : Readers text first fuel) (number : Nat)
    (done : List (Nat × Nat)) : Keeps text first (readMembers (fuel + 1) number done) Any := by
  unfold ReadM.readMembers
  refine keeps_peek.bind fun t ht => ?_
  extract_lets rest
  have hrest : ∀ key?, Keeps text first (rest key?) Any := by
    rintro (_ | key)
    · exact keeps_takeBlockEnd.bind fun _ hend => keeps_finish _ _ hend
    · exact h.memberValue.andThen fun _ => h.members _ _
  split
  · refine keeps_drop.andThen fun _ => keeps_peek.bind fun u _ => ?_
    exact keeps_ite ((keeps_map (keeps_addEmpty ht.stop)).andThen hrest)
      ((keeps_map (h.node _)).andThen hrest)
  · refine (keeps_startsValue _).andThen fun _ => ?_
    exact keeps_ite ((keeps_map (keeps_addEmpty ht.start)).andThen hrest)
      (.andThen (keeps_pure trivial) hrest)

theorem Readers.readMemberValue (h : Readers text first fuel) :
    Keeps text first (readMemberValue (fuel + 1)) Any := by
  unfold ReadM.readMemberValue
  refine keeps_peek.bind fun t ht => ?_
  split
  · refine keeps_drop.andThen fun _ => keeps_peek.bind fun u hu => ?_
    exact keeps_ite (keeps_addEmpty hu.stop) (h.node _)
  · exact keeps_addEmpty ht.start

theorem Readers.readFlowItems (h : Readers text first fuel) (number : Nat) (done : List Nat) :
    Keeps text first (readFlowItems (fuel + 1) number done) Any := by
  unfold ReadM.readFlowItems
  refine keeps_peek.bind fun t _ => ?_
  extract_lets rest
  have hrest : ∀ u, Keeps text first (rest u) Any := by
    intro _
    refine keeps_peek.bind fun u hu => ?_
    split
    · exact keeps_drop.andThen fun _ => keeps_finish _ _ hu.stop
    · refine (keeps_addCollection _ _ hu.start).andThen fun pair => keeps_drop.andThen fun _ =>
        keeps_peek.bind fun v _ => ?_
      extract_lets withKey
      have hkey : ∀ key, Keeps text first (withKey key) Any := fun key =>
        (h.flowValue _).andThen fun _ => keeps_peek.bind fun _ hafter =>
          (keeps_finish _ _ hafter.start).andThen fun _ => h.flowItems _ _
      exact keeps_ite ((keeps_addEmpty hu.stop).andThen hkey) ((h.node _).andThen hkey)
    · exact (h.node _).andThen fun _ => h.flowItems _ _
  exact keeps_ite ((keeps_takeComma _).andThen hrest) (hrest ())

theorem Readers.readFlowValue (h : Readers text first fuel) (close : TokenKind → Bool) :
    Keeps text first (readFlowValue (fuel + 1) close) Any := by
  unfold ReadM.readFlowValue
  refine keeps_peek.bind fun t ht => ?_
  split
  · refine keeps_drop.andThen fun _ => keeps_peek.bind fun u _ => ?_
    exact keeps_ite (keeps_addEmpty ht.stop) (h.node _)
  · exact keeps_addEmpty ht.start

theorem Readers.readFlowMembers (h : Readers text first fuel) (number : Nat)
    (done : List (Nat × Nat)) : Keeps text first (readFlowMembers (fuel + 1) number done) Any := by
  unfold ReadM.readFlowMembers
  refine keeps_peek.bind fun t _ => ?_
  extract_lets withKey rest
  have hkey : ∀ key, Keeps text first (withKey key) Any := fun key =>
    (h.flowValue _).andThen fun _ => h.flowMembers _ _
  have hrest : ∀ u, Keeps text first (rest u) Any := by
    intro _
    refine keeps_peek.bind fun u hu => ?_
    split
    · exact keeps_drop.andThen fun _ => keeps_finish _ _ hu.stop
    · refine keeps_drop.andThen fun _ => keeps_peek.bind fun v _ => ?_
      exact keeps_ite ((keeps_addEmpty hu.stop).andThen hkey) ((h.node _).andThen hkey)
    · refine (keeps_startsValue _).andThen fun _ => keeps_ite ?_ ?_
      · exact (keeps_addEmpty hu.stop).andThen fun _ => (h.flowValue _).andThen fun _ =>
          h.flowMembers _ _
      · exact (h.node _).andThen fun _ => keeps_peek.bind fun _ hnext =>
          (keeps_addEmpty hnext.start).andThen fun _ => h.flowMembers _ _
  exact keeps_ite ((keeps_takeComma _).andThen hrest) (hrest ())

/-- What all readers of nodes keep, by induction on their fuel. -/
theorem readers (text : List Char) (first : Version) (fuel : Nat) : Readers text first fuel := by
  induction fuel with
  | zero =>
    constructor <;> intros <;>
      simp only [readNode, readItems, readEntries, readMembers, readMemberValue, readFlowItems,
        readFlowValue, readFlowMembers] <;>
      exact keeps_failAt _ (markOf_start text)
  | succ fuel ih =>
    exact ⟨ih.readNode, ih.readItems, ih.readEntries, ih.readMembers, ih.readMemberValue,
      ih.readFlowItems, ih.readFlowValue, ih.readFlowMembers⟩

/-! ## Documents -/

/-- A version that was found is declared in the text. -/
def Declarations.In (text : List Char) (found : Declarations) : Prop :=
  found.version.isSome → DeclaresVersion text

theorem keeps_readDirectives (fuel : Nat) {found : Declarations} (hfound : found.In text) :
    Keeps text first (readDirectives fuel found) (Declarations.In text) := by
  induction fuel generalizing found with
  | zero => exact keeps_pure hfound
  | succ fuel ih =>
    unfold readDirectives
    refine keeps_peek.bind fun t ht => ?_
    split
    · rename_i hkind
      have hdirective := ht.kind
      rw [hkind] at hdirective
      refine keeps_drop.andThen fun _ => ?_
      split
      · refine keeps_ite (keeps_failAt_bind _ ht.start)
          (keeps_ite (keeps_failAt_bind _ ht.start) (ih ?_))
        exact fun _ => hdirective
      · exact keeps_ite (keeps_failAt_bind _ ht.start) (ih hfound)
      · exact ih hfound
    · exact keeps_pure hfound

theorem keeps_declare {found : Declarations} (hfound : found.In text) :
    Keeps text first (declare found) Any := by
  unfold declare
  split
  rename_i major minor hversion
  split
  · -- the usual version has rules, so it is another one
    rename_i hnone
    refine keeps_throw (.inr ⟨.inl (hfound ?_), ⟨_⟩⟩)
    cases hfound' : found.version with
    | some p => rfl
    | none =>
      rw [hfound'] at hversion
      obtain ⟨rfl, rfl⟩ := Prod.mk.inj hversion
      cases hnone
  · rename_i version hsome
    refine keeps_modify fun r hr => ⟨⟨hr.scan.reached, trivial, hr.scan.tokens, hr.scan.candidates,
      ?_⟩, hr.nodes⟩
    cases hfound' : found.version with
    | some p => exact .inr (.inr (hfound (by rw [hfound']; rfl)))
    | none =>
      rw [hfound'] at hversion
      obtain ⟨rfl, rfl⟩ := Prod.mk.inj hversion
      exact .inr (.inl (Option.some.inj hsome).symm)

theorem keeps_skipEnds (fuel : Nat) : Keeps text first (skipEnds fuel) Any := by
  induction fuel with
  | zero => exact keeps_pure trivial
  | succ fuel ih =>
    unfold skipEnds
    refine keeps_peek.bind fun t _ => ?_
    split
    · exact keeps_drop.andThen fun _ => ih
    · exact keeps_pure trivial

/-- A place in the text, if there is one. -/
def MarkIn (text : List Char) (mark? : Option Mark) : Prop := ∀ m, mark? = some m → MarkOf text m

theorem markIn_none : MarkIn text none := by simp [MarkIn]

theorem markIn_some {mark : Mark} (h : MarkOf text mark) : MarkIn text (some mark) := by
  rintro _ ⟨⟩
  exact h

theorem keeps_startDocument (fuel : Nat) : Keeps text first (startDocument fuel) (MarkIn text) := by
  unfold startDocument
  refine (keeps_skipEnds fuel).andThen fun _ => keeps_peek.bind fun t _ => ?_
  split
  · exact keeps_pure markIn_none
  · refine (keeps_readDirectives fuel (by simp [Declarations.In])).bind fun found hfound =>
      (keeps_declare hfound).andThen fun _ => keeps_peek.bind fun u hu => ?_
    split
    · exact keeps_drop.andThen fun _ => keeps_pure (markIn_some hu.start)
    · exact keeps_failAt _ hu.start

theorem keeps_readContent (fuel : Nat) : Keeps text first (readContent fuel) Any := by
  unfold readContent
  refine keeps_peek.bind fun t ht => ?_
  split
  iterate 4 exact keeps_addEmpty ht.start
  exact (readers text first fuel).node _

theorem keeps_endDocument : Keeps text first endDocument Any := by
  unfold endDocument
  refine keeps_peek.bind fun t _ => ?_
  split
  · refine keeps_drop.andThen fun _ => keeps_peek.bind fun u hu => ?_
    split
    · exact keeps_pure trivial
    · exact keeps_ite (keeps_failAt_bind _ hu.start) (keeps_pure trivial)
  · exact keeps_pure trivial

theorem keeps_nextDocument (fuel : Nat) (marked : Bool) :
    Keeps text first (nextDocument fuel marked) (MarkIn text) := by
  unfold nextDocument
  extract_lets rest
  have hrest : ∀ u, Keeps text first (rest u) (MarkIn text) := fun _ => keeps_startDocument fuel
  refine keeps_version.andThen fun _ => keeps_ite ?_ (hrest ())
  exact keeps_peek.bind fun t ht => keeps_ite (keeps_pure (markIn_some ht.start)) (hrest ())

theorem keeps_readText (fuel : Nat) : Keeps text first (readText fuel) Any := by
  unfold readText
  refine keeps_drop.andThen fun _ => keeps_peek.bind fun t _ => ?_
  extract_lets rest
  have hrest : ∀ node?, Keeps text first (rest node?) Any := by
    rintro (_ | node)
    · exact keeps_pure trivial
    · refine keeps_endDocument.andThen fun _ => (keeps_nextDocument _ _).bind fun next hnext => ?_
      split
      · exact keeps_failAt _ (hnext _ rfl)
      · exact keeps_pure trivial
  refine keeps_ite ((keeps_startDocument fuel).bind fun start _ => ?_) ?_
  · split
    · exact hrest none
    · exact (keeps_map (keeps_readContent fuel)).andThen hrest
  · refine .andThen (keeps_modify fun r hr => ?_) fun _ =>
      (keeps_map ((readers text first fuel).node _)).andThen hrest
    exact ⟨hr.scan, hr.nodes⟩

end ReadM

/-! ## Whole texts -/

theorem fits_start (text : List Char) (version : Version) :
    Reading.Fits text version ⟨.start version text, [], #[], []⟩ where
  scan :=
    { reached := .refl _
      cursor := trivial
      tokens := by
        intro t ht
        obtain rfl := List.mem_singleton.mp ht
        exact ⟨trivial, markOf_start text, markOf_start text⟩
      candidates := by simp [Scan.start]
      version := .inl rfl }
  nodes := by simp

/-- An acceptable text is read from the start to a state of its reading. -/
theorem readGraph_eq (version : Version) {text : List Char}
    (h : firstUnacceptable 0 text = none) :
    ∃ (answer : Except Failure (Option Nat)) (r : Reading), readGraph version text =
        (answer.map fun root => (r.nodes, root), r.scan.version) ∧ r.Fits text version ∧
      ∀ e, answer = .error e → e.HasCause text := by
  have hread := ReadM.keeps_readText (32 * text.length + 64) _ (fits_start text version)
  rcases hrun : (ReadM.readText (32 * text.length + 64)).run.run
    ⟨.start version text, [], #[], []⟩ with ⟨answer, r⟩
  rw [hrun] at hread
  refine ⟨answer, r, ?_, ?_⟩
  · unfold readGraph
    rw [h]
    exact congrArg (fun p : Except Failure (Option Nat) × Reading =>
      (p.1.map fun root => (p.2.nodes, root), p.2.scan.version)) hrun
  · cases answer with
    | error e => exact ⟨hread.2, fun _ he => Except.error.inj he ▸ hread.1⟩
    | ok node => exact ⟨hread.2, by simp⟩

/-- A text that declares no version leaves the version that held before it, or the usual one. -/
theorem readGraph_version (version : Version) (text : List Char) :
    (readGraph version text).2 = version ∨ (readGraph version text).2 = .v12 ∨
      DeclaresVersion text := by
  cases h : firstUnacceptable 0 text with
  | some p => exact .inl (by simp [readGraph, h])
  | none =>
    obtain ⟨answer, r, hgraph, hr, -⟩ := readGraph_eq version h
    rw [hgraph]
    exact hr.scan.version

/-- The nodes of a text start and end at places of it, also when they are asked for by a number that
no node has. -/
theorem readGraph_marks {version : Version} {text : List Char} {g : Graph} {root : Option Nat}
    (h : (readGraph version text).1 = .ok (g, root)) (number : Nat) : (g.node number).In text := by
  cases hchars : firstUnacceptable 0 text with
  | some p => simp [readGraph, hchars] at h
  | none =>
    obtain ⟨answer, r, hgraph, hr, -⟩ := readGraph_eq version hchars
    rw [hgraph] at h
    cases answer with
    | error e => cases h
    | ok root =>
      cases h
      unfold Graph.node Array.getD
      split
      · exact hr.nodes _ (Array.getElem_mem _)
      · exact ⟨markOf_start text, markOf_start text⟩

/-- A failure has a place or a character at an offset, unless the text has something in it that can
fail without one. -/
theorem readGraph_failure {version : Version} {text : List Char} {e : Failure}
    (he : (readGraph version text).1 = .error e) :
    (∃ char offset, e = .unacceptable char offset) ∨ e.HasCause text := by
  cases h : firstUnacceptable 0 text with
  | some p =>
    obtain ⟨char, offset⟩ := p
    simp only [readGraph, h] at he
    exact .inl ⟨char, offset, (Except.error.inj he).symm⟩
  | none =>
    obtain ⟨answer, r, hgraph, -, hcause⟩ := readGraph_eq version h
    rw [hgraph] at he
    cases answer with
    | error f =>
      obtain rfl := Except.error.inj he
      exact .inr (hcause f rfl)
    | ok node => simp [Except.map] at he

end DesignTokens.Yaml
