import DesignTokens.Proofs.Tree.Unfolding
import DesignTokens.Proofs.Yaml.Flow

/-!
# Composing the tokens of brackets

`Encodes` says which tokens write data with brackets, commas, quoted keys and one scalar at a place.
When a scan supplies such tokens, the reader of nodes adds nodes that unfold to the data.  Nodes that
are there stay, apart from the collection that is being filled.

## Main statement

* `readGraph_of_spells`: the root of a text that spells the tokens of data unfolds to the data.
-/

namespace DesignTokens.Yaml

/-! ## Tokens that write data -/

/-- What tokens may write: data, or what is left of a collection up to its bracket.  `more` says
that something of the collection stands before, so that a comma follows it. -/
inductive Part where
  | value (d : Data)
  | items (more : Bool) (ds : List Data)
  | members (more : Bool) (ms : List (String × Data))

/-- The comma behind what stands before in a collection. -/
def commaIf (more : Bool) : List TokenKind := if more then [.flowEntry] else []

inductive Encodes (version : Version) : Part → List TokenKind → Prop where
  | plain {text : String} {d : Data} :
      readScalar version (impliedTag version text.toList) text = .ok d →
      Encodes version (.value d) [.scalar text true]
  | quoted (text : String) : Encodes version (.value (.text text)) [.scalar text false]
  | list {ds : List Data} {ks : List TokenKind} :
      Encodes version (.items false ds) ks →
      Encodes version (.value (.list ds)) (.sequenceOpen :: ks)
  | object {ms : List (String × Data)} {ks : List TokenKind} :
      Encodes version (.members false ms) ks → (ms.map Prod.fst).Nodup →
      Encodes version (.value (.object ms)) (.mappingOpen :: ks)
  | noItems (more : Bool) : Encodes version (.items more []) [.sequenceClose]
  | item (more : Bool) {d : Data} {ds : List Data} {k ks : List TokenKind} :
      Encodes version (.value d) k → Encodes version (.items true ds) ks →
      Encodes version (.items more (d :: ds)) (commaIf more ++ (k ++ ks))
  | noMembers (more : Bool) : Encodes version (.members more []) [.mappingClose]
  | member (more : Bool) {name : String} {d : Data} {ms : List (String × Data)}
      {k ks : List TokenKind} :
      Encodes version (.value d) k → Encodes version (.members true ms) ks →
      Encodes version (.members more ((name, d) :: ms))
        (commaIf more ++ .key :: .scalar name false :: .value :: (k ++ ks))

/-- Tokens that start data. -/
def startsData : TokenKind → Bool
  | .scalar .. | .sequenceOpen | .mappingOpen => true
  | _ => false

variable {version : Version} {kinds rest : List TokenKind} {d : Data}

theorem Encodes.eq_cons (h : Encodes version (.value d) kinds) :
    ∃ kind kinds', kinds = kind :: kinds' ∧ startsData kind = true := by
  cases h <;> exact ⟨_, _, rfl, rfl⟩

theorem Encodes.length_pos {part : Part} (h : Encodes version part kinds) : 0 < kinds.length := by
  induction h with
  | item more _ _ ih =>
    simp only [List.length_append]
    omega
  | member more =>
    simp only [List.length_append, List.length_cons]
    omega
  | _ => simp

/-- A scalar without properties is no collection. -/
theorem exists_ofScalar {tag : ScalarTag} {text : String}
    (h : readScalar version tag text = .ok d) (span : Span) :
    ∃ t, Tree.ofScalar version tag text span = .ok t ∧ t.data = d := by
  -- a tag that is known makes a scalar or a null
  have hcases : d = .null ∨ ∃ s, d = .scalar s := by
    cases tag <;> simp only [readScalar, readBool] at h
    case null => exact .inl (Except.ok.inj h).symm
    case text | collection => exact .inr ⟨_, (Except.ok.inj h).symm⟩
    case unknown => cases h
    case int =>
      cases hint : readInt version text.toList with
      | error e => rw [hint] at h; cases h
      | ok i => rw [hint] at h; exact .inr ⟨_, (Except.ok.inj h).symm⟩
    case float =>
      cases hfloat : readFloat version text.toList with
      | error e => rw [hfloat] at h; cases h
      | ok x => rw [hfloat] at h; exact .inr ⟨_, (Except.ok.inj h).symm⟩
    all_goals
      repeat' split at h
      all_goals first
        | exact .inr ⟨_, (Except.ok.inj h).symm⟩
        | cases h
  unfold Tree.ofScalar
  rw [h]
  rcases hcases with rfl | ⟨s, rfl⟩
  · exact ⟨_, rfl, rfl⟩
  · exact ⟨_, rfl, rfl⟩

/-! ## Nodes that are added -/

namespace Graph

variable {g : Graph} {n : Node} {i number : Nat} {content : Content} {stop : Mark}

theorem node_push_of_lt (h : i < g.size) : node (g.push n) i = node g i := by
  simp [node, Array.getD_eq_getD_getElem?, Array.getElem?_push_lt h, h]

theorem node_push_size : node (g.push n) g.size = n := by
  simp [node, Array.getD_eq_getD_getElem?]

theorem size_finish : (finish number content stop g).size = g.size := by
  simp [finish]

theorem node_finish_of_ne (h : i ≠ number) : node (finish number content stop g) i = node g i := by
  simp [node, finish, Array.getD_eq_getD_getElem?, Array.getElem?_modify, Ne.symm h]

theorem content_finish (h : number < g.size) :
    (node (finish number content stop g) number).content = content := by
  have h' : number < (finish number content stop g).size := size_finish.symm ▸ h
  unfold finish at h'
  simp [node, finish, Array.getD_eq_getD_getElem?, Array.getElem?_eq_getElem h', Array.getElem_modify]

end Graph

/-- The reader went on without a change of the nodes. -/
structure Reading.Same (r r' : Reading) : Prop where
  version : r'.scan.version = r.scan.version
  nodes : r'.nodes = r.nodes

/-- The reader added nodes, and of the nodes before it changed one at most. -/
structure Reading.Grows (number : Nat) (r r' : Reading) : Prop where
  version : r'.scan.version = r.scan.version
  size : r.nodes.size ≤ r'.nodes.size
  kept : ∀ i < r.nodes.size, i ≠ number → r'.nodes.node i = r.nodes.node i

/-- Something holds of every graph that has the nodes that the reader added. -/
def Reading.Shows (r r' : Reading) (P : Graph → Prop) : Prop :=
  ∀ g : Graph, (∀ i, r.nodes.size ≤ i → i < r'.nodes.size → g.node i = r'.nodes.node i) → P g

namespace Reading

variable {r r₁ r₂ r₃ : Reading} {number : Nat} {P Q : Graph → Prop}

theorem Same.trans (h : r.Same r₁) (h' : r₁.Same r₂) : r.Same r₂ :=
  ⟨h'.version.trans h.version, h'.nodes.trans h.nodes⟩

theorem Grows.of_same (h : r.Same r₁) (h' : r₁.Grows number r₂) : r.Grows number r₂ :=
  ⟨h'.version.trans h.version, h.nodes ▸ h'.size, h.nodes ▸ h'.kept⟩

/-- What comes after may change the nodes that were added. -/
theorem Grows.trans {m : Nat} (h : r.Grows m r₁) (h' : r₁.Grows number r₂)
    (hm : r.nodes.size ≤ m) : r.Grows number r₂ := by
  refine ⟨h'.version.trans h.version, Nat.le_trans h.size h'.size, fun i hi hne => ?_⟩
  rw [h'.kept i (Nat.lt_of_lt_of_le hi h.size) hne]
  exact h.kept i hi (by omega)

theorem Shows.of_same (h : r.Same r₁) (h' : r₁.Shows r₂ P) : r.Shows r₂ P :=
  fun g hg => h' g fun i hi hlt => hg i (h.nodes ▸ hi) hlt

/-- What a part of the way shows, and what the rest of it shows. -/
theorem Shows.and {m : Nat} (hgrows : r.Grows m r₁) (h : r.Shows r₁ P) (h' : r₁.Shows r₂ Q)
    (hgrows' : r₁.Grows number r₂) (hnumber : number < r.nodes.size) :
    r.Shows r₂ fun g => P g ∧ Q g := by
  refine fun g hg => ⟨h g fun i hi hlt => ?_, h' g fun i hi hlt => ?_⟩
  · rw [hg i hi (Nat.lt_of_lt_of_le hlt hgrows'.size), hgrows'.kept i hlt (by omega)]
  · exact hg i (Nat.le_trans hgrows.size hi) hlt

theorem Shows.imp (h : r.Shows r₁ P) (himp : ∀ g, P g → Q g) : r.Shows r₁ Q :=
  fun g hg => himp g (h g hg)

end Reading

namespace ReadM

open Reading

variable {r : Reading} {kind : TokenKind}

/-! ## Tokens -/

theorem gives_scanning {α : Type} {step : ScanM α} {a : α} {scan : Scan}
    (h : Gives r.scan step a scan) : Gives r (scanning step) a { r with scan := scan } := by
  unfold Gives at h
  unfold scanning
  refine gives_get.bind ?_
  rw [show step.run r.scan = (.ok a, scan) from h]
  exact gives_modify.bind (gives_lift rfl)

theorem gives_peek (h : r.scan.Supplies (kind :: rest)) :
    ∃ t r', Gives r peek t r' ∧ t.kind = kind ∧ r.Same r' ∧ ScanM.Ready r'.scan (kind :: rest) := by
  obtain ⟨t, scan, hgives, hkind, hversion, hready⟩ := ScanM.gives_peek h
  exact ⟨t, _, gives_scanning hgives, hkind, ⟨hversion, rfl⟩, hready⟩

theorem gives_drop (h : ScanM.Ready r.scan (kind :: rest)) :
    ∃ r', Gives r drop () r' ∧ r.Same r' ∧ r'.scan.Supplies rest := by
  obtain ⟨scan, hgives, hversion, hsupplies⟩ := ScanM.gives_release h
  exact ⟨_, gives_scanning hgives, ⟨hversion, rfl⟩, hsupplies⟩

/-! ## Nodes -/

/-- The tag of a scalar that has no properties. -/
def tagOf (version : Version) (text : String) (plain : Bool) : ScalarTag :=
  if plain then impliedTag version text.toList else .text

theorem gives_scalarTag (text : String) (plain : Bool) :
    Gives r (scalarTag none text plain) (tagOf r.scan.version text plain) r := by
  cases plain
  · exact gives_pure
  · exact gives_get.bind gives_pure

theorem gives_properties (h : r.scan.Supplies (kind :: rest)) (hkind : startsData kind = true) :
    ∃ r', Gives r properties ⟨none, none, none⟩ r' ∧ r.Same r' ∧
      r'.scan.Supplies (kind :: rest) := by
  obtain ⟨t, r', hpeek, rfl, hsame, hready⟩ := gives_peek h
  refine ⟨r', hpeek.bind ?_, hsame, hready.supplies⟩
  cases hk : t.kind <;> rw [hk] at hkind <;> first
    | exact gives_pure
    | cases hkind

/-- How a node of data goes on after its first token. -/
def readStarted (fuel : Nat) (t : Token) : ReadM Nat :=
  match t.kind with
  | .scalar text plain => do
    let tag ← scalarTag none text plain
    addNode none ⟨.scalar tag text, t.start, t.stop⟩
  | .sequenceOpen => do
    let number ← addCollection none (.sequence []) t.start
    readFlowItems fuel number []
    return number
  | _ => do
    let number ← addCollection none (.mapping []) t.start
    readFlowMembers fuel number []
    return number

theorem gives_readNode {fuel : Nat} {place : Place} (h : r.scan.Supplies (kind :: rest))
    (hkind : startsData kind = true) :
    ∃ (t : Token) (r' : Reading), t.kind = kind ∧ r.Same r' ∧ r'.scan.Supplies rest ∧
      ∀ n r'', Gives r' (readStarted fuel t) n r'' → Gives r (readNode (fuel + 1) place) n r'' := by
  obtain ⟨t₁, r₁, hpeek₁, hkind₁, hsame₁, hready₁⟩ := gives_peek h
  obtain ⟨r₂, hproperties, hsame₂, hsupplies₂⟩ := gives_properties hready₁.supplies hkind
  obtain ⟨t, r₃, hpeek, hkind₃, hsame₃, hready₃⟩ := gives_peek hsupplies₂
  obtain ⟨r₄, hdrop, hsame₄, hsupplies₄⟩ := gives_drop hready₃
  refine ⟨t, r₄, hkind₃, hsame₁.trans (hsame₂.trans (hsame₃.trans hsame₄)), hsupplies₄,
    fun n r'' hrest => ?_⟩
  unfold readStarted at hrest
  rw [hkind₃] at hrest
  unfold readNode
  refine hpeek₁.bind ?_
  rw [hkind₁]
  cases kind <;> first
    | refine hproperties.bind (hpeek.bind ?_)
      rw [hkind₃]
      exact hdrop.bind hrest
    | cases hkind

/-! ## What a reader adds -/

/-- The reader added nodes that show something, and the scan supplies what follows. -/
structure Adds (number : Nat) (rest : List TokenKind) (r r' : Reading) (P : Graph → Prop) :
    Prop where
  grows : r.Grows number r'
  supplies : r'.scan.Supplies rest
  shows : r.Shows r' P

theorem Adds.of_same {r₁ r₂ : Reading} {number : Nat} {P : Graph → Prop} (h : r.Same r₁)
    (h' : Adds number rest r₁ r₂ P) : Adds number rest r r₂ P :=
  ⟨.of_same h h'.grows, h'.supplies, .of_same h h'.shows⟩

/-- What reading a part gives with an amount of fuel. -/
def Reads (version : Version) (fuel : Nat) (kinds : List TokenKind) : Part → Prop
  | .value d => ∀ (r : Reading) (place : Place) (rest : List TokenKind),
    r.scan.version = version → r.scan.Supplies (kinds ++ rest) →
    ∃ r', Gives r (readNode fuel place) r.nodes.size r' ∧
      Adds r.nodes.size rest r r' fun g =>
        ∃ t, Tree.Expands g version r.nodes.size t ∧ t.data = d
  | .items more ds => ∀ (r : Reading) (number : Nat) (done : List Nat) (rest : List TokenKind),
    r.scan.version = version → r.scan.Supplies (kinds ++ rest) → number < r.nodes.size →
    (!done.isEmpty) = more →
    ∃ numbers r', Gives r (readFlowItems fuel number done) () r' ∧
      (r'.nodes.node number).content = .sequence (done.reverse ++ numbers) ∧
      Adds number rest r r' fun g =>
        ∃ ts, List.Forall₂ (Tree.Expands g version) numbers ts ∧ Tree.dataList ts = ds
  | .members more ms => ∀ (r : Reading) (number : Nat) (done : List (Nat × Nat))
      (rest : List TokenKind),
    r.scan.version = version → r.scan.Supplies (kinds ++ rest) → number < r.nodes.size →
    (!done.isEmpty) = more →
    ∃ pairs r', Gives r (readFlowMembers fuel number done) () r' ∧
      (r'.nodes.node number).content = .mapping (done.reverse ++ pairs) ∧
      Adds number rest r r' fun g =>
        ∃ ts : List (Key × Tree),
          List.Forall₂ (Tree.IsKey g) (pairs.map Prod.fst) (ts.map Prod.fst) ∧
          List.Forall₂ (Tree.Expands g version) (pairs.map Prod.snd) (ts.map Prod.snd) ∧
          Tree.dataMembers ts = ms

/-! ## Scalars -/

theorem gives_scalar {fuel : Nat} {place : Place} {text : String} {plain : Bool}
    (h : r.scan.Supplies (.scalar text plain :: rest)) :
    ∃ r', Gives r (readNode (fuel + 1) place) r.nodes.size r' ∧
      Adds r.nodes.size rest r r' fun g =>
        (g.node r.nodes.size).content = .scalar (tagOf r.scan.version text plain) text := by
  obtain ⟨t, r₁, hkind, hsame, hsupplies, hgives⟩ := gives_readNode h rfl
  let n : Node := ⟨.scalar (tagOf r₁.scan.version text plain) text, t.start, t.stop⟩
  refine ⟨{ r₁ with nodes := r₁.nodes.push n }, hgives _ _ ?_, ?_⟩
  · unfold readStarted
    rw [hkind, ← hsame.nodes]
    exact (gives_scalarTag text plain).bind rfl
  · refine .of_same hsame ⟨⟨rfl, by simp, fun i hi _ => Graph.node_push_of_lt hi⟩, hsupplies, ?_⟩
    intro g hg
    rw [← hsame.nodes, ← hsame.version, hg _ (Nat.le_refl _) (by simp), Graph.node_push_size]

/-! ## Commas -/

/-- What a collection does before each part of it, and before its end: in front of `kind` it takes
the comma, if there is one. -/
def TakesComma (closes : TokenKind → Bool) (more : Bool) (kind : TokenKind)
    (rest : List TokenKind) (r : Reading) : Prop :=
  ∃ r₁, r.Same r₁ ∧ r₁.scan.Supplies (kind :: rest) ∧
    ∀ {α : Type} {bracket : Char} {f : PUnit → ReadM α} (a : α) (r' : Reading),
      Gives r₁ (f ⟨⟩) a r' →
      Gives r (do
        let t ← peek
        if more && !closes t.kind then takeComma bracket >>= f else f ⟨⟩) a r'

/-- Where nothing stands before, or where the collection ends, no comma is read. -/
theorem takesComma_of_not {closes : TokenKind → Bool} {more : Bool}
    (h : r.scan.Supplies (kind :: rest)) (hmore : more = false ∨ closes kind = true) :
    TakesComma closes more kind rest r := by
  obtain ⟨t, r₁, hpeek, rfl, hsame, hready⟩ := gives_peek h
  refine ⟨r₁, hsame, hready.supplies, fun a r' hrest => hpeek.bind ?_⟩
  rw [if_neg]
  · exact hrest
  · rcases hmore with rfl | hcloses
    · simp
    · simp [hcloses]

theorem takesComma {closes : TokenKind → Bool} (more : Bool)
    (h : r.scan.Supplies (commaIf more ++ kind :: rest)) (hcomma : closes .flowEntry = false) :
    TakesComma closes more kind rest r := by
  cases more with
  | false => exact takesComma_of_not h (.inl rfl)
  | true =>
    obtain ⟨t₁, r₁, hpeek₁, hkind₁, hsame₁, hready₁⟩ := gives_peek h
    obtain ⟨t₂, r₂, hpeek₂, hkind₂, hsame₂, hready₂⟩ := gives_peek hready₁.supplies
    obtain ⟨r₃, hdrop, hsame₃, hsupplies₃⟩ := gives_drop hready₂
    refine ⟨r₃, hsame₁.trans (hsame₂.trans hsame₃), hsupplies₃, fun a r' hrest => hpeek₁.bind ?_⟩
    rw [hkind₁, hcomma, if_pos (by rfl)]
    have htake (bracket : Char) : Gives r₁ (takeComma bracket) () r₃ := by
      refine hpeek₂.bind ?_
      rw [hkind₂]
      exact hdrop
    exact (htake _).bind hrest

/-! ## Collections -/

variable {fuel : Nat}

theorem reads_plain {text : String}
    (h : readScalar version (impliedTag version text.toList) text = .ok d) :
    Reads version (fuel + 1) [.scalar text true] (.value d) := by
  intro r place rest hversion hsupplies
  obtain ⟨r', hgives, hadds⟩ := gives_scalar hsupplies
  refine ⟨r', hgives, hadds.grows, hadds.supplies, hadds.shows.imp fun g hg => ?_⟩
  obtain ⟨t, ht, hdata⟩ := exists_ofScalar h (Tree.nodeSpan (g.node r.nodes.size))
  rw [hversion] at hg
  exact ⟨t, .scalar hg ht, hdata⟩

theorem reads_quoted (text : String) :
    Reads version (fuel + 1) [.scalar text false] (.value (.text text)) := by
  intro r place rest hversion hsupplies
  obtain ⟨r', hgives, hadds⟩ := gives_scalar hsupplies
  exact ⟨r', hgives, hadds.grows, hadds.supplies,
    hadds.shows.imp fun g hg => ⟨_, .scalar hg rfl, rfl⟩⟩

/-- A collection is added without parts, and then it gets them. -/
theorem Adds.of_push {r' : Reading} {n : Node} {P : Graph → Prop} {content : Content}
    (h : Adds r.nodes.size rest { r with nodes := r.nodes.push n } r' P)
    (hcontent : (r'.nodes.node r.nodes.size).content = content) :
    Adds r.nodes.size rest r r' fun g => (g.node r.nodes.size).content = content ∧ P g := by
  have hsize : r.nodes.size + 1 ≤ r'.nodes.size := by
    have := h.grows.size
    rwa [Array.size_push] at this
  refine ⟨⟨h.grows.version, by omega, fun i hi hne => ?_⟩, h.supplies, fun g hg => ⟨?_, ?_⟩⟩
  · rw [h.grows.kept i (by rw [Array.size_push]; omega) hne]
    exact Graph.node_push_of_lt hi
  · rw [hg _ (Nat.le_refl _) hsize, hcontent]
  · refine h.shows g fun i hi hlt => hg i ?_ hlt
    rw [Array.size_push] at hi
    omega

theorem Reads.list {ds : List Data} (h : Reads version fuel kinds (.items false ds)) :
    Reads version (fuel + 1) (.sequenceOpen :: kinds) (.value (.list ds)) := by
  intro r place rest hversion hsupplies
  obtain ⟨t, r₁, hkind, hsame, hsupplies₁, hgives⟩ := gives_readNode hsupplies rfl
  obtain ⟨numbers, r', hitems, hcontent, hadds⟩ :=
    h { r₁ with nodes := r₁.nodes.push ⟨.sequence [], t.start, t.start⟩ } r₁.nodes.size [] rest
      (hsame.version.trans hversion) hsupplies₁ (by simp) rfl
  rw [← hsame.nodes]
  refine ⟨r', hgives _ _ ?_, .of_same hsame ?_⟩
  · unfold readStarted
    rw [hkind]
    exact Gives.bind rfl (hitems.bind gives_pure)
  · have hadds' := hadds.of_push hcontent
    refine ⟨hsame.nodes ▸ hadds'.grows, hadds'.supplies, hadds'.shows.imp ?_⟩
    rintro g ⟨hnode, ts, hts, rfl⟩
    exact ⟨_, .sequence hnode hts, rfl⟩

theorem Reads.object {ms : List (String × Data)} (h : Reads version fuel kinds (.members false ms))
    (hnames : (ms.map Prod.fst).Nodup) :
    Reads version (fuel + 1) (.mappingOpen :: kinds) (.value (.object ms)) := by
  intro r place rest hversion hsupplies
  obtain ⟨t, r₁, hkind, hsame, hsupplies₁, hgives⟩ := gives_readNode hsupplies rfl
  obtain ⟨pairs, r', hmembers, hcontent, hadds⟩ :=
    h { r₁ with nodes := r₁.nodes.push ⟨.mapping [], t.start, t.start⟩ } r₁.nodes.size [] rest
      (hsame.version.trans hversion) hsupplies₁ (by simp) rfl
  rw [← hsame.nodes]
  refine ⟨r', hgives _ _ ?_, .of_same hsame ?_⟩
  · unfold readStarted
    rw [hkind]
    exact Gives.bind rfl (hmembers.bind gives_pure)
  · have hadds' := hadds.of_push hcontent
    refine ⟨hsame.nodes ▸ hadds'.grows, hadds'.supplies, hadds'.shows.imp ?_⟩
    rintro g ⟨hnode, ts, hkeys, hts, rfl⟩
    rw [Tree.dataMembers_eq_map, List.map_map] at hnames
    exact ⟨_, .mapping hnode hkeys hnames hts, rfl⟩

/-! ## The parts of collections -/

theorem reads_noItems (more : Bool) :
    Reads version (fuel + 1) [.sequenceClose] (.items more []) := by
  intro r number done rest hversion hsupplies hnumber hdone
  have hcomma : TakesComma closesSequence more .sequenceClose rest r :=
    takesComma_of_not hsupplies (.inr rfl)
  obtain ⟨r₁, hsame₁, hsupplies₁, hgives⟩ := hcomma
  obtain ⟨t₂, r₂, hpeek₂, hkind₂, hsame₂, hready₂⟩ := gives_peek hsupplies₁
  obtain ⟨r₃, hdrop, hsame₃, hsupplies₃⟩ := gives_drop hready₂
  have hsame := hsame₁.trans (hsame₂.trans hsame₃)
  let content : Content := .sequence done.reverse
  refine ⟨[], { r₃ with nodes := r₃.nodes.finish number content t₂.stop }, ?_, ?_,
    .of_same hsame ⟨⟨rfl, ?_, ?_⟩, hsupplies₃, fun g _ => ⟨[], .nil, rfl⟩⟩⟩
  · subst hdone
    unfold readFlowItems
    refine hgives _ _ (hpeek₂.bind ?_)
    rw [hkind₂]
    exact hdrop.bind gives_modify
  · rw [List.append_nil]
    exact Graph.content_finish (hsame.nodes ▸ hnumber)
  · exact Graph.size_finish.symm ▸ Nat.le_refl _
  · exact fun i _ hne => Graph.node_finish_of_ne hne

theorem Reads.item (more : Bool) {ds : List Data} {k ks : List TokenKind}
    (hvalue : Reads version fuel k (.value d)) (hitems : Reads version fuel ks (.items true ds))
    (hk : ∃ kind kinds', k = kind :: kinds' ∧ startsData kind = true) :
    Reads version (fuel + 1) (commaIf more ++ (k ++ ks)) (.items more (d :: ds)) := by
  obtain ⟨kind, kinds', rfl, hkind⟩ := hk
  intro r number done rest hversion hsupplies hnumber hdone
  rw [List.append_assoc, List.append_assoc, List.cons_append] at hsupplies
  have hcomma : TakesComma closesSequence more kind _ r := takesComma more hsupplies rfl
  obtain ⟨r₁, hsame₁, hsupplies₁, hgives⟩ := hcomma
  obtain ⟨t₂, r₂, hpeek₂, hkind₂, hsame₂, hready₂⟩ := gives_peek hsupplies₁
  have hsame := hsame₁.trans hsame₂
  obtain ⟨r₃, hread, hadds⟩ := hvalue r₂ .flow (ks ++ rest) (hsame.version.trans hversion)
    hready₂.supplies
  have hsize := hadds.grows.size
  rw [hsame.nodes] at hsize
  -- the number of the item is remembered with those before it
  obtain ⟨numbers, r₄, hrest, hcontent, hadds'⟩ := hitems r₃ number (r₂.nodes.size :: done) rest
    (hadds.grows.version.trans (hsame.version.trans hversion)) hadds.supplies (by omega) rfl
  refine ⟨r₂.nodes.size :: numbers, r₄, ?_, by simpa using hcontent, .of_same hsame ?_⟩
  · subst hdone
    unfold readFlowItems
    refine hgives _ _ (hpeek₂.bind ?_)
    rw [hkind₂]
    cases kind <;> first
      | exact hread.bind hrest
      | cases hkind
  · have hnumber' : number < r₂.nodes.size := hsame.nodes ▸ hnumber
    refine ⟨hadds.grows.trans hadds'.grows (Nat.le_refl _), hadds'.supplies,
      (hadds.shows.and hadds.grows hadds'.shows hadds'.grows hnumber').imp ?_⟩
    rintro g ⟨⟨t, ht, rfl⟩, ts, hts, rfl⟩
    exact ⟨t :: ts, .cons ht hts, rfl⟩

theorem reads_noMembers (more : Bool) :
    Reads version (fuel + 1) [.mappingClose] (.members more []) := by
  intro r number done rest hversion hsupplies hnumber hdone
  have hcomma : TakesComma closesMapping more .mappingClose rest r :=
    takesComma_of_not hsupplies (.inr rfl)
  obtain ⟨r₁, hsame₁, hsupplies₁, hgives⟩ := hcomma
  obtain ⟨t₂, r₂, hpeek₂, hkind₂, hsame₂, hready₂⟩ := gives_peek hsupplies₁
  obtain ⟨r₃, hdrop, hsame₃, hsupplies₃⟩ := gives_drop hready₂
  have hsame := hsame₁.trans (hsame₂.trans hsame₃)
  let content : Content := .mapping done.reverse
  refine ⟨[], { r₃ with nodes := r₃.nodes.finish number content t₂.stop }, ?_, ?_,
    .of_same hsame ⟨⟨rfl, ?_, ?_⟩, hsupplies₃, fun g _ => ⟨[], .nil, .nil, rfl⟩⟩⟩
  · subst hdone
    unfold readFlowMembers
    refine hgives _ _ (hpeek₂.bind ?_)
    rw [hkind₂]
    exact hdrop.bind gives_modify
  · rw [List.append_nil]
    exact Graph.content_finish (hsame.nodes ▸ hnumber)
  · exact Graph.size_finish.symm ▸ Nat.le_refl _
  · exact fun i _ hne => Graph.node_finish_of_ne hne

/-- The value of a member stands behind a colon. -/
theorem Reads.flowValue {k : List TokenKind} (hvalue : Reads version fuel k (.value d))
    (hk : ∃ kind kinds', k = kind :: kinds' ∧ startsData kind = true)
    (hversion : r.scan.version = version) (h : r.scan.Supplies (.value :: (k ++ rest))) :
    ∃ r', Gives r (readFlowValue (fuel + 1) closesMapping) r.nodes.size r' ∧
      Adds r.nodes.size rest r r' fun g =>
        ∃ t, Tree.Expands g version r.nodes.size t ∧ t.data = d := by
  obtain ⟨kind, kinds', rfl, hkind⟩ := hk
  obtain ⟨t₁, r₁, hpeek₁, hkind₁, hsame₁, hready₁⟩ := gives_peek h
  obtain ⟨r₂, hdrop, hsame₂, hsupplies₂⟩ := gives_drop hready₁
  obtain ⟨t₃, r₃, hpeek₃, hkind₃, hsame₃, hready₃⟩ := gives_peek hsupplies₂
  have hsame := hsame₁.trans (hsame₂.trans hsame₃)
  obtain ⟨r', hread, hadds⟩ := hvalue r₃ .flow rest (hsame.version.trans hversion)
    hready₃.supplies
  rw [hsame.nodes] at hread hadds
  refine ⟨r', ?_, .of_same hsame hadds⟩
  unfold readFlowValue
  refine hpeek₁.bind ?_
  rw [hkind₁]
  refine hdrop.bind (hpeek₃.bind ?_)
  rw [hkind₃]
  cases kind <;> first
    | exact hread
    | cases hkind

/-- The key of a member stands behind its mark, and is followed by its value. -/
theorem Reads.keyed {name : String} {k : List TokenKind}
    (hvalue : Reads version (fuel + 1) k (.value d))
    (hk : ∃ kind kinds', k = kind :: kinds' ∧ startsData kind = true)
    (hversion : r.scan.version = version)
    (h : r.scan.Supplies (.scalar name false :: .value :: (k ++ rest))) :
    ∃ value r₁ r', Gives r (readNode (fuel + 2) .flow) r.nodes.size r₁ ∧
      Gives r₁ (readFlowValue (fuel + 2) closesMapping) value r' ∧
      Adds r.nodes.size rest r r' fun g =>
        (∃ tag, (g.node r.nodes.size).content = .scalar tag name) ∧
          ∃ t, Tree.Expands g version value t ∧ t.data = d := by
  obtain ⟨r₁, hkey, hadds⟩ := gives_scalar h
  obtain ⟨r', hread, hadds'⟩ :=
    hvalue.flowValue hk (hadds.grows.version.trans hversion) hadds.supplies
  refine ⟨_, r₁, r', hkey, hread, ⟨hadds'.grows.version.trans hadds.grows.version, ?_, ?_⟩,
    hadds'.supplies, fun g hg => ⟨⟨_, hadds.shows g fun i hi hlt => ?_⟩, ?_⟩⟩
  · exact Nat.le_trans hadds.grows.size hadds'.grows.size
  · intro i hi hne
    rw [hadds'.grows.kept i (Nat.lt_of_lt_of_le hi hadds.grows.size) (by
      have := hadds.grows.size
      omega)]
    exact hadds.grows.kept i hi hne
  · rw [hg i hi (Nat.lt_of_lt_of_le hlt hadds'.grows.size), hadds'.grows.kept i hlt (by omega)]
  · exact hadds'.shows g fun i hi hlt => hg i (Nat.le_trans hadds.grows.size hi) hlt

theorem Reads.member (more : Bool) {name : String} {ms : List (String × Data)}
    {k ks : List TokenKind} (hvalue : Reads version (fuel + 1) k (.value d))
    (hmembers : Reads version (fuel + 2) ks (.members true ms))
    (hk : ∃ kind kinds', k = kind :: kinds' ∧ startsData kind = true) :
    Reads version (fuel + 3) (commaIf more ++ .key :: .scalar name false :: .value :: (k ++ ks))
      (.members more ((name, d) :: ms)) := by
  intro r number done rest hversion hsupplies hnumber hdone
  rw [List.append_assoc, List.cons_append, List.cons_append, List.cons_append,
    List.append_assoc] at hsupplies
  have hcomma : TakesComma closesMapping more .key _ r := takesComma more hsupplies rfl
  obtain ⟨r₁, hsame₁, hsupplies₁, hgives⟩ := hcomma
  obtain ⟨t₂, r₂, hpeek₂, hkind₂, hsame₂, hready₂⟩ := gives_peek hsupplies₁
  obtain ⟨r₃, hdrop, hsame₃, hsupplies₃⟩ := gives_drop hready₂
  obtain ⟨t₄, r₄, hpeek₄, hkind₄, hsame₄, hready₄⟩ := gives_peek hsupplies₃
  have hsame := hsame₁.trans (hsame₂.trans (hsame₃.trans hsame₄))
  have hversion₄ : r₄.scan.version = version := hsame.version.trans hversion
  obtain ⟨value, r₅, r₆, hkey, hread, hadds⟩ := hvalue.keyed hk hversion₄ hready₄.supplies
  have hsize := hadds.grows.size
  rw [hsame.nodes] at hsize
  -- the numbers of key and value are remembered with the pairs before them
  obtain ⟨pairs, r₇, hrest, hcontent, hadds'⟩ := hmembers r₆ number
    ((r₄.nodes.size, value) :: done) rest (hadds.grows.version.trans hversion₄) hadds.supplies
    (by omega) rfl
  refine ⟨(r₄.nodes.size, value) :: pairs, r₇, ?_, by simpa using hcontent, .of_same hsame ?_⟩
  · subst hdone
    unfold readFlowMembers
    refine hgives _ _ (hpeek₂.bind ?_)
    rw [hkind₂]
    refine hdrop.bind (hpeek₄.bind ?_)
    rw [hkind₄]
    exact hkey.bind (hread.bind hrest)
  · have hnumber' : number < r₄.nodes.size := hsame.nodes ▸ hnumber
    refine ⟨hadds.grows.trans hadds'.grows (Nat.le_refl _), hadds'.supplies,
      (hadds.shows.and hadds.grows hadds'.shows hadds'.grows hnumber').imp ?_⟩
    rintro g ⟨⟨⟨tag, hkey⟩, t, ht, rfl⟩, ts, hkeys, hts, rfl⟩
    let key : Key := ⟨name, Tree.nodeSpan (g.node r₄.nodes.size)⟩
    exact ⟨(key, t) :: ts, .cons ⟨tag, hkey, rfl⟩ hkeys, .cons ht hts, rfl⟩

/-- The reader reads what is written, by induction on what is written. -/
theorem reads_of_encodes {part : Part} (h : Encodes version part kinds)
    (hfuel : kinds.length ≤ fuel) : Reads version fuel kinds part := by
  -- every token costs at most one unit of fuel
  induction h generalizing fuel with
  | plain h =>
    obtain ⟨fuel, rfl⟩ := Nat.exists_eq_add_of_le' hfuel
    exact reads_plain h
  | quoted text =>
    obtain ⟨fuel, rfl⟩ := Nat.exists_eq_add_of_le' hfuel
    exact reads_quoted text
  | list _ ih =>
    rw [List.length_cons] at hfuel
    obtain ⟨fuel, rfl⟩ := Nat.exists_eq_add_of_lt hfuel
    exact (ih (by omega)).list
  | object _ hnames ih =>
    rw [List.length_cons] at hfuel
    obtain ⟨fuel, rfl⟩ := Nat.exists_eq_add_of_lt hfuel
    exact (ih (by omega)).object hnames
  | noItems more =>
    obtain ⟨fuel, rfl⟩ := Nat.exists_eq_add_of_le' hfuel
    exact reads_noItems more
  | item more hvalue hitems ihvalue ihitems =>
    have hpos := hvalue.length_pos
    have hpos' := hitems.length_pos
    simp only [List.length_append] at hfuel
    obtain ⟨fuel, rfl⟩ := Nat.exists_eq_add_of_le' (show 1 ≤ fuel by omega)
    exact (ihvalue (by omega)).item more (ihitems (by omega)) hvalue.eq_cons
  | noMembers more =>
    obtain ⟨fuel, rfl⟩ := Nat.exists_eq_add_of_le' hfuel
    exact reads_noMembers more
  | member more hvalue hmembers ihvalue ihmembers =>
    simp only [List.length_append, List.length_cons] at hfuel
    obtain ⟨fuel, rfl⟩ := Nat.exists_eq_add_of_le' (show 3 ≤ fuel by omega)
    exact (ihvalue (by omega)).member more (ihmembers (by omega)) hvalue.eq_cons

/-! ## Documents -/

theorem gives_startDocument (fuel : Nat) (h : r.scan.Supplies [.textEnd]) :
    ∃ r', Gives r (startDocument (fuel + 1)) none r' ∧ r.Same r' := by
  obtain ⟨t₁, r₁, hpeek₁, hkind₁, hsame₁, hready₁⟩ := gives_peek h
  obtain ⟨t₂, r₂, hpeek₂, hkind₂, hsame₂, hready₂⟩ := gives_peek hready₁.supplies
  have hskip : Gives r (skipEnds (fuel + 1)) ⟨⟩ r₁ := by
    unfold skipEnds
    refine hpeek₁.bind ?_
    rw [hkind₁]
    exact gives_pure
  refine ⟨r₂, hskip.bind (hpeek₂.bind ?_), hsame₁.trans hsame₂⟩
  rw [hkind₂]
  exact gives_pure

theorem gives_endDocument (h : r.scan.Supplies [.textEnd]) :
    ∃ r', Gives r endDocument false r' ∧ r.Same r' ∧ r'.scan.Supplies [.textEnd] := by
  obtain ⟨t₁, r₁, hpeek₁, hkind₁, hsame₁, hready₁⟩ := gives_peek h
  refine ⟨r₁, hpeek₁.bind ?_, hsame₁, hready₁.supplies⟩
  rw [hkind₁]
  exact gives_pure

/-- Data that is all of a text is its document. -/
theorem gives_readText {fuel : Nat} (h : ScanM.Ready r.scan (.textStart :: (kinds ++ [.textEnd])))
    (hvalue : Encodes version (.value d) kinds) (hversion : r.scan.version = version)
    (hfuel : kinds.length ≤ fuel) :
    ∃ r', Gives r (readText fuel) (some r.nodes.size) r' ∧ r'.scan.version = version ∧
      r.Shows r' fun g => ∃ t, Tree.Expands g version r.nodes.size t ∧ t.data = d := by
  have hreads : Reads version fuel kinds (.value d) := reads_of_encodes hvalue hfuel
  have hpos := hvalue.length_pos
  obtain ⟨fuel, rfl⟩ := Nat.exists_eq_add_of_le' (show 1 ≤ fuel by omega)
  obtain ⟨kind, kinds', rfl, hkind⟩ := hvalue.eq_cons
  obtain ⟨r₁, hdrop, hsame₁, hsupplies₁⟩ := gives_drop h
  obtain ⟨t₂, r₂, hpeek₂, hkind₂, hsame₂, hready₂⟩ := gives_peek hsupplies₁
  have hsame := hsame₁.trans hsame₂
  let r₂' : Reading := { r₂ with handles := knownHandles }
  obtain ⟨r₃, hread, hadds⟩ := hreads r₂' .block [.textEnd] (hsame.version.trans hversion)
    hready₂.supplies
  obtain ⟨r₄, hend, hsame₄, hsupplies₄⟩ := gives_endDocument hadds.supplies
  obtain ⟨r₅, hstart, hsame₅⟩ := gives_startDocument fuel hsupplies₄
  -- behind the data nothing is left to compose, so its nodes stay as they are
  have hafter := hsame₄.trans hsame₅
  refine ⟨r₅, ?_, ?_, fun g hg => ?_⟩
  · unfold readText
    refine hdrop.bind (hpeek₂.bind ?_)
    have hmarked : startsMarked t₂.kind = false := by
      rw [hkind₂]
      cases kind <;> first
        | rfl
        | cases hkind
    rw [hmarked, if_neg (by decide), ← hsame.nodes]
    refine gives_modify.bind ?_
    have hsome : Gives r₂' (some <$> readNode (fuel + 1) .block) (some r₂.nodes.size) r₃ := by
      rw [map_eq_pure_bind]
      exact hread.bind gives_pure
    exact hsome.bind (hend.bind (Gives.bind (gives_get.bind (gives_pure.bind hstart)) gives_pure))
  · rw [hafter.version, hadds.grows.version]
    exact hsame.version.trans hversion
  · rw [← hsame.nodes]
    refine hadds.shows g fun i hi hlt => ?_
    rw [hg i (hsame.nodes ▸ hi) (hafter.nodes ▸ hlt), hafter.nodes]

end ReadM

/-! ## Whole texts -/

theorem firstUnacceptable_eq_none {text : List Char} (h : ∀ c ∈ text, isAcceptable c = true)
    (offset : Nat) : firstUnacceptable offset text = none := by
  induction text generalizing offset with
  | nil => rfl
  | cons c r ih =>
    rw [List.forall_mem_cons] at h
    rw [firstUnacceptable, if_pos h.1, ih h.2]

/-- The root of a text that spells the tokens of data unfolds to the data, and the version that held
before the text holds after it. -/
theorem readGraph_of_spells {w r : List Char} (hw : IsBlank false w)
    (hspells : Spells [] true (kinds ++ [.textEnd]) r) (hvalue : Encodes version (.value d) kinds)
    (hacceptable : ∀ c ∈ w ++ r, isAcceptable c = true) :
    ∃ g root, readGraph version (w ++ r) = (.ok (g, some root), version) ∧
      ∃ t, Tree.Expands g version root t ∧ t.data = d := by
  have hlength := hspells.length_le
  have hfuel : kinds.length ≤ 32 * (w ++ r).length + 64 := by
    simp only [List.length_append, List.length_singleton] at hlength ⊢
    omega
  obtain ⟨r', hread, hversion, hshows⟩ :=
    ReadM.gives_readText (r := ⟨.start version (w ++ r), [], #[], []⟩)
      (ScanM.ready_start version hw hspells) hvalue rfl hfuel
  refine ⟨r'.nodes, _, ?_, hshows _ fun _ _ _ => rfl⟩
  unfold readGraph
  rw [firstUnacceptable_eq_none hacceptable]
  dsimp only
  rw [show (ReadM.readText _).run _ = _ from hread]
  exact congrArg (Prod.mk _) hversion

end DesignTokens.Yaml
