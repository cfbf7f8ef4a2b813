import DesignTokens.Proofs.Value.Parts
import DesignTokens.Proofs.Value.Reading

/-!
# Reading what was written

A normal template can be written, and what is written is read as the same template, with its holes
where they now stand (`value_written`).  Without references there is nothing else to a value than
what is written, so reading is idempotent (`value_idempotent`).
-/

namespace DesignTokens.Grammar

open Outcome

/-! ## References -/

/-- A text that does not open like a reference is none. -/
theorem hole?_of_closed {accepted : Option (List TokenType)} {spliced : Bool} {node : Tree}
    (h : ∀ s, node.text? = some s → Closed s) : hole? accepted spliced node = .ok none := by
  unfold hole?
  split
  · rfl
  · rename_i s hs
    have hclosed : Reference.isOpenedBy s = false := h s hs
    simp [hclosed]

/-- A hole is read from its text. -/
theorem hole?_written {accepted : Option (List TokenType)} {spliced : Bool} {t : Template}
    (h : IsHole accepted spliced t) :
    ∃ g, t = .hole g ∧ hole? accepted spliced t.written.tree = .ok (some g.atOrigin) := by
  cases h with
  | intro r span hr =>
    refine ⟨_, rfl, ?_⟩
    have htext : (Template.hole ⟨r, span, accepted, spliced⟩).written.tree.text? =
        some r.text := by
      rw [Template.written_hole, Data.tree]
      rfl
    unfold hole?
    rw [htext]
    simp only [Reference.isOpenedBy_text, Reference.parse?_text hr]
    rw [Template.written_hole, Data.tree]
    rfl

/-- A template that is read when it was written, and whose text is not taken for a reference. -/
structure Rereads (read : Reader) (t : Template) : Prop where
  closed : ∀ s, t.written.tree.text? = some s → Closed s
  read_eq : read t.written.tree = .ok t.atOrigin

/-- A reference is read back as one, and a value as its reader reads it. -/
theorem orHole_written {type : TokenType} {read : Reader} {P : Template → Prop} {t : Template}
    (h : OrHole (some [type]) P t) (hread : P t → Rereads read t) :
    orHole type read t.written.tree = .ok t.atOrigin := by
  rcases h with hhole | hvalue
  · obtain ⟨g, rfl, hg⟩ := hole?_written hhole
    rw [orHole, hg, Template.atOrigin_hole]
    rfl
  · obtain ⟨hclosed, hvalue⟩ := hread hvalue
    rw [orHole, hole?_of_closed hclosed, ← hvalue]
    rfl

/-! ## Simple values -/

theorem tree_scalar (s : Scalar) : (Template.scalar s).written.tree = .scalar s .origin := by
  rw [Template.written_scalar, Data.tree]

theorem closed_of_no_text {node : Tree} (h : node.text? = none) :
    ∀ s, node.text? = some s → Closed s := by
  simp [h]

theorem rereads_boolean {t : Template} (h : IsBoolean t) : Rereads boolean t := by
  obtain ⟨b, rfl⟩ := h
  refine ⟨closed_of_no_text ?_, ?_⟩ <;> rw [tree_scalar] <;> simp [Tree.text?, boolean, Tree.bool?]

theorem text?_of_isNumber {n : Scalar} (h : n.isNumber = true) (span : Span) :
    (Tree.scalar n span).text? = none ∧ (Tree.scalar n span).number? = some n := by
  cases n <;> simp_all [Scalar.isNumber, Tree.text?, Tree.number?]

theorem rereads_number {t : Template} (h : IsNumber t) : Rereads number t := by
  obtain ⟨n, rfl, hn⟩ := h
  obtain ⟨htext, hnumber⟩ := text?_of_isNumber hn .origin
  refine ⟨closed_of_no_text ?_, ?_⟩ <;> rw [tree_scalar]
  · exact htext
  · simp [number, hnumber]

theorem closed_of_text {s : String} (h : Closed s) :
    ∀ s', (Template.text s).written.tree.text? = some s' → Closed s' := by
  intro s' hs'
  rw [tree_scalar] at hs'
  exact Option.some.inj hs' ▸ h

theorem rereads_string {t : Template} (h : IsString t) : Rereads string t := by
  obtain ⟨s, rfl, hclosed⟩ := h
  refine ⟨closed_of_text hclosed, ?_⟩
  rw [tree_scalar, Template.atOrigin_scalar]
  rfl

theorem filledText_text {what : EmptyText} {s : String} {span : Span} (h : s ≠ "") :
    filledText what (.scalar (.text s) span) = .ok s :=
  filledText_eq_ok.mpr ⟨rfl, h⟩

theorem rereads_link {t : Template} (h : IsLink t) : Rereads link t := by
  obtain ⟨s, rfl, hclosed, hne⟩ := h
  refine ⟨closed_of_text hclosed, ?_⟩
  rw [tree_scalar, Template.atOrigin_scalar, link, filledText_text hne]
  rfl

theorem isZero_zero : isZero (.scalar (.int 0) .origin) = true := by decide

theorem isZero_text (s : String) (span : Span) : isZero (.scalar (.text s) span) = false := rfl

section

variable (what : EmptyText) (noUnit : Problem) (invalid : String → Problem)
  (isUnit : List Char → Bool)

theorem measured_text {s : String} {span : Span} (hne : s ≠ "")
    (h : ∃ unit, Magnitude.unit? s.toList = some unit ∧ unit ≠ [] ∧ isUnit unit = true) :
    measured what noUnit invalid isUnit (.scalar (.text s) span) = .ok (.text s) := by
  obtain ⟨unit, hunit, hbare, his⟩ := h
  obtain ⟨c, cs, rfl⟩ := List.exists_cons_of_ne_nil hbare
  rw [measured, isZero_text, filledText_text hne]
  simp [hunit, his, bind, Except.bind, pure, Except.pure]

/-- A bare zero is kept as it is. -/
theorem rereads_measured_zero : Rereads (measured what noUnit invalid isUnit) (.int 0) := by
  refine ⟨closed_of_no_text ?_, ?_⟩ <;> rw [tree_scalar]
  · rfl
  · rw [measured, isZero_zero, Template.atOrigin_scalar]
    rfl

end

theorem dimension_length {s : String} {span : Span} (h : IsLength s) :
    dimension (.scalar (.text s) span) = .ok (.text s) :=
  dimension_eq ▸ measured_text _ _ _ _ h.filled h.unit

theorem rereads_dimension {t : Template} (h : IsDimension t) : Rereads dimension t := by
  rcases h with rfl | ⟨s, rfl, hs⟩
  · exact dimension_eq ▸ rereads_measured_zero _ _ _ _
  · refine ⟨closed_of_text hs.closed, ?_⟩
    rw [tree_scalar, Template.atOrigin_scalar, dimension_length hs]

theorem duration_time {s : String} {span : Span} (h : IsTime s) :
    duration (.scalar (.text s) span) = .ok (.text s) :=
  duration_eq ▸ measured_text _ _ _ _ h.filled h.unit

theorem rereads_duration {t : Template} (h : IsDuration t) : Rereads duration t := by
  rcases h with rfl | ⟨s, rfl, hs⟩
  · exact duration_eq ▸ rereads_measured_zero _ _ _ _
  · refine ⟨closed_of_text hs.closed, ?_⟩
    rw [tree_scalar, Template.atOrigin_scalar, duration_time hs]

/-- No weight is too large for a number. -/
theorem isSome_ofInt?_weight {i : Int} (h : 0 ≤ i) (hmax : i ≤ maxWeight) :
    (Binary64.ofInt? i).isSome = true := by
  -- a weight is at most a thousand, so all of them are tried
  have hall : ∀ n : Fin 1001, (Binary64.ofInt? (n.val : Int)).isSome = true := by decide +kernel
  have hlt : i.toNat < 1001 := by
    rw [maxWeight] at hmax
    omega
  simpa [Int.toNat_of_nonneg h] using hall ⟨i.toNat, hlt⟩

theorem rereads_fontWeight {t : Template} (h : IsWeight t) : Rereads fontWeight t := by
  obtain ⟨i, rfl, hi, hmax⟩ := h
  refine ⟨closed_of_no_text ?_, ?_⟩ <;> rw [tree_scalar]
  · rfl
  · have hnumber : (Tree.scalar (.int i) .origin).number? = some (.int i) := rfl
    have hintegral : integral? (.int i) = .ok (some i) := by
      simp [integral?, isSome_ofInt?_weight hi hmax]
    rw [fontWeight, hnumber, Template.atOrigin_scalar]
    simp [hintegral, hi, hmax]

/-! ## Lists and objects -/

theorem items?_written (items : List Template) :
    (Template.list items).written.tree.items? = some (items.map fun t => t.written.tree) := by
  rw [Template.written_list, Data.tree, Data.treeItems_eq_map, List.map_map]
  rfl

theorem text?_list (items : List Template) : (Template.list items).written.tree.text? = none := by
  rw [Template.written_list, Data.tree]
  rfl

theorem mapM_written {read : Reader} {items : List Template}
    (h : ∀ t ∈ items, read t.written.tree = .ok t.atOrigin) :
    (items.map fun t => t.written.tree).mapM read = .ok (items.map Template.atOrigin) := by
  rw [mapM_eq_ok_iff, List.forall₂_map_left_iff, List.forall₂_map_right_iff, List.forall₂_same]
  exact h

theorem get?_written {name : String} {members : List (String × Template)} {t : Template}
    (h : Members.get? name members = some t) :
    (Template.object members).written.tree.get? name = some t.written.tree := by
  rw [Template.written_object, Data.get?_tree_object, Members.get?_map, h]
  rfl

theorem get?_written_none {name : String} {members : List (String × Template)}
    (h : Members.get? name members = none) :
    (Template.object members).written.tree.get? name = none := by
  rw [Template.written_object, Data.get?_tree_object, Members.get?_map, h]
  rfl

theorem text?_object (members : List (String × Template)) :
    (Template.object members).written.tree.text? = none := by
  rw [Template.written_object, Data.tree]
  rfl

theorem isMapping_object (members : List (String × Template)) :
    (Template.object members).written.tree.isMapping = true := by
  rw [Template.written_object, Data.tree]
  rfl

theorem require_written {members : List (String × Template)} {names : List String}
    (h : ∀ name ∈ names, ∃ t, Members.get? name members = some t) :
    require (Template.object members).written.tree names = .ok () := by
  refine require_eq_ok.mpr fun name hname => ?_
  obtain ⟨t, ht⟩ := h name hname
  exact ⟨_, get?_written ht⟩

/-- A part that is a reference or a value of a type is read back. -/
theorem readPart_written {members : List (String × Template)} {name : String} {t : Template}
    (hget : Members.get? name members = some t) {type : TokenType} {read : Reader}
    {P : Template → Prop} (h : OrHole (some [type]) P t) (hread : P t → Rereads read t) :
    readPart (Template.object members).written.tree name (orHole type read) =
      .ok (name, t.atOrigin) :=
  readPart_eq_ok.mpr ⟨_, get?_written hget, _, orHole_written h hread, rfl⟩

/-! ## Colours -/

/-- Numbers are read as numbers. -/
theorem numbers_ofScalars {channels : List Scalar} (h : ∀ n ∈ channels, n.isNumber = true) :
    numbers (ofScalars channels).written.tree = .ok channels := by
  have hnumbers : (channels.map fun n => Tree.scalar n .origin).mapM Tree.number? =
      some channels := by
    induction channels with
    | nil => rfl
    | cons n ns ih =>
      rw [List.map_cons, List.mapM_cons, (text?_of_isNumber (h n List.mem_cons_self) _).2,
        ih fun m hm => h m (List.mem_cons_of_mem _ hm)]
      rfl
  have hitems : (ofScalars channels).written.tree.items? =
      some (channels.map fun n => Tree.scalar n .origin) := by
    rw [ofScalars, items?_written, List.map_map]
    exact congrArg some (List.map_congr_left fun n _ => tree_scalar n)
  unfold numbers
  simp [hitems, hnumbers]

theorem rereads_color {t : Template} (h : IsColor t) : Rereads color t := by
  obtain ⟨space, channels, alpha, rfl, hchannels, halpha, hcolor⟩ := h
  refine ⟨closed_of_no_text (text?_object _), ?_⟩
  rw [color, isMapping_object, if_pos rfl, Template.atOrigin_of_solid]
  · refine colorObject_eq_ok.mpr ⟨_, get?_written rfl, space, ?_, _, get?_written rfl, channels,
      numbers_ofScalars hchannels, alpha, ?_, hcolor, rfl⟩
    · rw [tree_scalar]
      rfl
    · have hget : (Template.object [(Color.spaceField, .text space),
          (Color.channelsField, ofScalars channels),
          (Color.alphaField, .scalar alpha)]).written.tree.get? Color.alphaField =
            some (Template.scalar alpha).written.tree := get?_written rfl
      rw [opacity, hget, tree_scalar]
      exact numberOf_eq_ok.mpr (text?_of_isNumber halpha _).2
  · simp [ofScalars]

/-! ## Fonts -/

theorem rereads_fontFamily {t : Template} (h : IsFamilies t) : Rereads fontFamily t := by
  obtain ⟨items, rfl, hne, hall⟩ := h
  refine ⟨closed_of_no_text (text?_list _), ?_⟩
  have hread : ∀ list, ∀ t ∈ items, family list t.written.tree = .ok t.atOrigin := by
    intro list t ht
    rcases hall t ht with hhole | ⟨s, rfl, hclosed, hfilled⟩
    · obtain ⟨g, rfl, hg⟩ := hole?_written hhole
      rw [family, hg, Template.atOrigin_hole]
      rfl
    · rw [family, hole?_of_closed (closed_of_text hclosed), tree_scalar, Template.atOrigin_scalar]
      simp [bind, Except.bind, pure, Except.pure, Tree.text?, hfilled]
  have hitems := items?_written items
  rw [fontFamily, text?_list, hitems, Template.atOrigin_list]
  -- the reader looks for an empty list before it reads the items
  obtain ⟨i, is, rfl⟩ := List.exists_cons_of_ne_nil hne
  have hmapM := mapM_written (hread (Template.list (i :: is)).written.tree)
  rw [List.map_cons] at hmapM ⊢
  dsimp only
  rw [hmapM]
  rfl

/-! ## Curves and lines -/

theorem rereads_cubicBezier {t : Template} (h : IsCurve t) : Rereads cubicBezier t := by
  obtain ⟨items, rfl, hfour, hall⟩ := h
  refine ⟨closed_of_no_text (text?_list _), ?_⟩
  have hread : ∀ list, ∀ t ∈ items, point list t.written.tree = .ok t.atOrigin := by
    intro list t ht
    rcases hall t ht with hhole | ⟨n, rfl, hn⟩
    · obtain ⟨g, rfl, hg⟩ := hole?_written hhole
      rw [point, hg, Template.atOrigin_hole]
      rfl
    · obtain ⟨htext, hnumber⟩ := text?_of_isNumber hn .origin
      rw [point, tree_scalar, hole?_of_closed (closed_of_no_text htext), Template.atOrigin_scalar]
      simp [bind, Except.bind, pure, Except.pure, hnumber]
  rw [cubicBezier, items?_written, Template.atOrigin_list]
  simp [hfour, mapM_written (hread _), Except.map]

/-- A dash is read back, whether it is a reference or a length. -/
theorem dash_written {t : Template} (h : IsDash t) : dash t.written.tree = .ok t.atOrigin := by
  rcases h with hhole | ⟨s, rfl, hs⟩
  · obtain ⟨g, rfl, hg⟩ := hole?_written hhole
    rw [dash, hg, Template.atOrigin_hole]
    rfl
  · rw [dash, hole?_of_closed (closed_of_text hs.closed), tree_scalar, Template.atOrigin_scalar]
    simp [bind, Except.bind, Tree.text?, hs.filled, dimension_length hs]

/-- A line with dashes is read from its parts. -/
theorem strokeStyle_object {node capNode dashNode : Tree} {cap : String} {nodes : List Tree}
    {dashes : List Template} (htext : node.text? = none) (hmapping : node.isMapping = true)
    (hcapNode : node.get? "lineCap" = some capNode) (hcapText : capNode.text? = some cap)
    (hcap : cap ∈ lineCaps) (hdashNode : node.get? "dashArray" = some dashNode)
    (hitems : dashNode.items? = some nodes) (hdashes : nodes.mapM dash = .ok dashes) :
    strokeStyle node = .ok (.object [("lineCap", .text cap), ("dashArray", .list dashes)]) := by
  have hrequire : require node ["dashArray", "lineCap"] = .ok () :=
    require_eq_ok.mpr (by simp [hcapNode, hdashNode])
  simp [strokeStyle, htext, hmapping, hrequire, part_eq_ok.mpr hcapNode, text_eq_ok.mpr hcapText,
    hcap, part_eq_ok.mpr hdashNode, hitems, hdashes, bind, Except.bind, pure, Except.pure]

theorem rereads_strokeStyle {t : Template} (h : IsStroke t) : Rereads strokeStyle t := by
  rcases h with ⟨s, rfl, hs⟩ | ⟨cap, dashes, rfl, hcap, hall⟩
  · -- no name of a style opens like a reference
    have hclosed : ∀ s ∈ strokeStyles, Reference.isOpenedBy s = false := by decide +kernel
    refine ⟨closed_of_text (hclosed s hs), ?_⟩
    rw [tree_scalar, Template.atOrigin_scalar, strokeStyle]
    simp [Tree.text?, hs, pure, Except.pure]
  · refine ⟨closed_of_no_text (text?_object _), ?_⟩
    have hcapText : (Template.text cap).written.tree.text? = some cap := by
      rw [tree_scalar]
      rfl
    rw [strokeStyle_object (text?_object _) (isMapping_object _) (get?_written rfl) hcapText hcap
      (get?_written rfl) (items?_written dashes)
      (mapM_written fun d hd => dash_written (hall d hd))]
    simp

/-! ## Composite values -/

theorem rereads_border {t : Template} (h : IsBorder t) : Rereads border t := by
  obtain ⟨c, w, s, rfl, hc, hw, hs⟩ := h
  refine ⟨closed_of_no_text (text?_object _), ?_⟩
  have hrequire : require (Template.object [("color", c), ("width", w),
      ("style", s)]).written.tree ["color", "width", "style"] = .ok () :=
    require_written (by simp [Members.get?])
  rw [border, requireObject, isMapping_object, hrequire, readPart_written rfl hc rereads_color,
    readPart_written rfl hw rereads_dimension, readPart_written rfl hs rereads_strokeStyle,
    Template.atOrigin_object]
  rfl

/-- A stop is read back in two steps: its position first, its colour afterwards. -/
theorem stop_written {t : Template} (h : IsStop t) :
    ∃ c p, t.atOrigin = .object [("color", c), ("position", p)] ∧
      stopPosition t.written.tree = .ok ("position", p) ∧
      readPart t.written.tree "color" (orHole .color color) = .ok ("color", c) := by
  obtain ⟨c, p, rfl, hc, hp⟩ := h
  refine ⟨c.atOrigin, p.atOrigin, by rw [Template.atOrigin_object]; rfl, ?_,
    readPart_written rfl hc rereads_color⟩
  have hrequire : require (Template.object [("color", c), ("position", p)]).written.tree
      ["color", "position"] = .ok () := require_written (by simp [Members.get?])
  rw [stopPosition, requireObject, isMapping_object, hrequire,
    readPart_written rfl hp rereads_number]
  rfl

theorem rereads_gradient {t : Template} (h : IsGradient t) : Rereads gradient t := by
  obtain ⟨stops, rfl, hall⟩ := h
  refine ⟨closed_of_no_text (text?_list _), ?_⟩
  -- all positions are read before the first colour, so both runs are kept side by side
  have hread : ∃ positions colors,
      (stops.map fun s => s.written.tree).mapM stopPosition = .ok positions ∧
      (stops.map fun s => s.written.tree).mapM
        (fun stop => readPart stop "color" (orHole .color color)) = .ok colors ∧
      List.zipWith (fun color position => .object [color, position]) colors positions =
        stops.map Template.atOrigin := by
    induction stops with
    | nil => exact ⟨[], [], rfl, rfl, rfl⟩
    | cons s ss ih =>
      obtain ⟨positions, colors, hpositions, hcolors, hzip⟩ :=
        ih fun u hu => hall u (List.mem_cons_of_mem _ hu)
      obtain ⟨c, p, heq, hposition, hcolor⟩ := stop_written (hall s List.mem_cons_self)
      refine ⟨("position", p) :: positions, ("color", c) :: colors, ?_, ?_, ?_⟩
      · rw [List.map_cons, List.mapM_cons, hposition, hpositions]
        rfl
      · rw [List.map_cons, List.mapM_cons, hcolor, hcolors]
        rfl
      · rw [List.zipWith_cons_cons, hzip, List.map_cons, heq]
  obtain ⟨positions, colors, hpositions, hcolors, hzip⟩ := hread
  rw [gradient_eq, items?_written, Template.atOrigin_list]
  simp [hpositions, hcolors, hzip, bind, Except.bind, pure, Except.pure]

/-- A part that is there is read before the others. -/
theorem readPresent_of_some {node n : Tree} {read : Reader} {name : String} {names : List String}
    {t : Template} {ms : List (String × Template)} (hget : node.get? name = some n)
    (hread : read n = .ok t) (hrest : readPresent node read names = .ok ms) :
    readPresent node read (name :: names) = .ok ((name, t) :: ms) := by
  have hhas : node.has name = true := Tree.has_iff.mpr ⟨n, hget⟩
  have hpart : readPart node name read = .ok (name, t) :=
    readPart_eq_ok.mpr ⟨n, hget, t, hread, rfl⟩
  rw [readPresent, if_pos hhas, hpart, hrest]
  rfl

theorem readPresent_of_none {node : Tree} {read : Reader} {name : String} {names : List String}
    (hget : node.get? name = none) :
    readPresent node read (name :: names) = readPresent node read names := by
  have hhas : node.has name = false := by
    rw [Tree.get?, Option.map_eq_none_iff] at hget
    simp [Tree.has, hget]
  rw [readPresent, hhas]
  rfl

/-- A part that need not be there is read back when it is. -/
theorem readPresent_written {members : List (String × Template)} {type : TokenType}
    {read : Reader} {P : Template → Prop} {name : String} {t : Option Template}
    (hget : Members.get? name members = t) (h : ∀ u, t = some u → OrHole (some [type]) P u)
    (hread : ∀ u, P u → Rereads read u) :
    readPresent (Template.object members).written.tree (orHole type read) [name] =
      .ok (Members.optional name (t.map Template.atOrigin)) := by
  cases t with
  | none => rw [readPresent_of_none (get?_written_none hget)]; rfl
  | some u =>
    exact readPresent_of_some (get?_written hget) (orHole_written (h u rfl) (hread u)) rfl

/-- The members of a layer with their names. -/
def layerMembers (c x y b : Template) (spread inset : Option Template) :
    List (String × Template) :=
  [("color", c), ("offsetX", x), ("offsetY", y), ("blur", b)] ++
    (Members.optional "spread" spread ++ Members.optional "inset" inset)

theorem layer_written {t : Template} (h : IsLayer t) : layer t.written.tree = .ok t.atOrigin := by
  obtain ⟨c, x, y, b, spread, inset, rfl, hc, hx, hy, hb, hspread, hinset⟩ := h
  obtain ⟨ms, hms⟩ : ∃ ms, ms = layerMembers c x y b spread inset := ⟨_, rfl⟩
  -- each part is found under its name, whether the last two are there or not
  have hget : Members.get? "color" ms = some c ∧ Members.get? "offsetX" ms = some x ∧
      Members.get? "offsetY" ms = some y ∧ Members.get? "blur" ms = some b ∧
      Members.get? "spread" ms = spread ∧ Members.get? "inset" ms = inset := by
    subst hms
    cases spread <;> cases inset <;> simp [layerMembers, Members.get?, Members.optional]
  obtain ⟨hcolor, hoffsetX, hoffsetY, hblur, hgetSpread, hgetInset⟩ := hget
  have hrequire : require (Template.object ms).written.tree
      ["color", "offsetX", "offsetY", "blur"] = .ok () :=
    require_written (by simp [hcolor, hoffsetX, hoffsetY, hblur])
  have hlengths : readPresent (Template.object ms).written.tree (orHole .dimension dimension)
      ["offsetX", "offsetY", "blur", "spread"] =
        .ok (("offsetX", x.atOrigin) :: ("offsetY", y.atOrigin) :: ("blur", b.atOrigin) ::
          Members.optional "spread" (spread.map Template.atOrigin)) :=
    readPresent_of_some (get?_written hoffsetX) (orHole_written hx rereads_dimension)
      (readPresent_of_some (get?_written hoffsetY) (orHole_written hy rereads_dimension)
        (readPresent_of_some (get?_written hblur) (orHole_written hb rereads_dimension)
          (readPresent_written hgetSpread hspread fun _ => rereads_dimension)))
  have hinsets : readPresent (Template.object ms).written.tree (orHole .boolean boolean)
      ["inset"] = .ok (Members.optional "inset" (inset.map Template.atOrigin)) :=
    readPresent_written hgetInset hinset fun _ => rereads_boolean
  have hread : layer (Template.object ms).written.tree = .ok (.object
      (layerMembers c.atOrigin x.atOrigin y.atOrigin b.atOrigin (spread.map Template.atOrigin)
        (inset.map Template.atOrigin))) := by
    rw [layer, requireObject, isMapping_object, hrequire,
      readPart_written hcolor hc rereads_color, hlengths, hinsets]
    rfl
  rw [hms] at hread
  rw [← layerMembers, hread, Template.atOrigin_object]
  cases spread <;> cases inset <;> rfl

theorem rereads_shadow {t : Template} (h : IsShadow t) : Rereads shadow t := by
  obtain ⟨layers, rfl, hall⟩ := h
  refine ⟨closed_of_no_text (text?_list _), ?_⟩
  have hlayers := mapM_written fun l hl => layer_written (hall l hl)
  obtain ⟨span, hnode⟩ : ∃ span, (Template.list layers).written.tree =
      .sequence (layers.map fun t => t.written.tree) span := by
    rw [Template.written_list, Data.tree, Data.treeItems_eq_map, List.map_map]
    exact ⟨_, rfl⟩
  rw [hnode, shadow, hlayers, Template.atOrigin_list]
  rfl

theorem rereads_transition {t : Template} (h : IsTransition t) : Rereads transition t := by
  obtain ⟨d, e, c, rfl, hd, he, hc⟩ := h
  refine ⟨closed_of_no_text (text?_object _), ?_⟩
  have hrequire : require (Template.object [("duration", d), ("delay", e),
      ("timingFunction", c)]).written.tree ["duration", "timingFunction"] = .ok () :=
    require_written (by simp [Members.get?])
  -- a delay that was left out was written as zero, so it is there now
  have hdelay : delay (Template.object [("duration", d), ("delay", e),
      ("timingFunction", c)]).written.tree = .ok e.atOrigin := by
    have hget : (Template.object [("duration", d), ("delay", e),
        ("timingFunction", c)]).written.tree.get? "delay" = some e.written.tree :=
      get?_written rfl
    rw [delay, hget]
    exact orHole_written he rereads_duration
  rw [transition_eq, requireObject, isMapping_object, hrequire,
    readPart_written rfl hd rereads_duration, hdelay,
    readPart_written rfl hc rereads_cubicBezier, Template.atOrigin_object]
  rfl

/-! ## Properties of fonts -/

/-- The height of a line that is no number is read as a length. -/
theorem lineHeight_text (s : String) (span : Span) :
    property "lineHeight" (.scalar (.text s) span) = dimension (.scalar (.text s) span) := rfl

/-- The height of a line is read back: a number, or a length. -/
theorem rereads_lineHeight {t : Template} (h : IsNumber t ∨ IsDimension t) :
    Rereads (property "lineHeight") t := by
  -- a zero is a number before it is a length
  have hnumber : ∀ n : Scalar, n.isNumber = true → Rereads (property "lineHeight") (.scalar n) := by
    intro n hn
    obtain ⟨htext, hn⟩ := text?_of_isNumber hn .origin
    refine ⟨closed_of_no_text ?_, ?_⟩ <;> rw [tree_scalar]
    · exact htext
    · simp [property, hn]
  rcases h with ⟨n, rfl, hn⟩ | rfl | ⟨s, rfl, hs⟩
  · exact hnumber n hn
  · exact hnumber (.int 0) rfl
  · refine ⟨closed_of_text hs.closed, ?_⟩
    rw [tree_scalar, lineHeight_text, dimension_length hs, Template.atOrigin_scalar]

/-- A property that is no reference is read back. -/
theorem rereads_property {name : String} {t : Template} (h : IsProperty name t) :
    Rereads (property name) t := by
  unfold IsProperty at h
  split at h
  · exact rereads_fontFamily h
  · exact rereads_dimension h
  · exact rereads_fontWeight h
  · exact rereads_dimension h
  · exact rereads_lineHeight h
  · -- a property that is not known: a text or a number
    rename_i hfamily hsize hweight hspacing hheight
    rcases h with ⟨s, rfl, hclosed⟩ | ⟨n, rfl, hn⟩
    · refine ⟨closed_of_text hclosed, ?_⟩
      rw [tree_scalar, Template.atOrigin_scalar]
      unfold property
      split <;> simp_all
    · refine ⟨closed_of_no_text ?_, ?_⟩ <;> rw [tree_scalar]
      · exact (text?_of_isNumber hn .origin).1
      · rw [Template.atOrigin_scalar]
        unfold property
        split <;> cases n <;> simp_all [Scalar.isNumber]

/-- The properties of a font are read back one after the other. -/
theorem properties_written {members : List (String × Template)}
    (h : ∀ m ∈ members, OrHole (Members.get? m.1 typographyTypes) (IsProperty m.1) m.2) :
    properties (Data.treeMembers (members.map fun m => (m.1, m.2.written))) =
      .ok (members.map fun m => (m.1, m.2.atOrigin)) := by
  induction members with
  | nil => rfl
  | cons m rest ih =>
    obtain ⟨name, t⟩ := m
    have hrest := ih fun m hm => h m (List.mem_cons_of_mem _ hm)
    rw [List.map_cons, List.map_cons, Data.treeMembers, properties, hrest]
    rcases h _ List.mem_cons_self with hhole | hvalue
    · obtain ⟨g, rfl, hg⟩ := hole?_written hhole
      dsimp only
      rw [hg, Template.atOrigin_hole]
      rfl
    · obtain ⟨hclosed, hvalue⟩ := rereads_property hvalue
      dsimp only
      rw [hole?_of_closed hclosed, hvalue]
      rfl

theorem rereads_typography {t : Template} (h : IsTypography t) : Rereads typography t := by
  rcases h with ⟨s, rfl, hclosed, hne⟩ | ⟨members, rfl, -, hall⟩
  · refine ⟨closed_of_text hclosed, ?_⟩
    rw [tree_scalar, Template.atOrigin_scalar]
    simp [typography, Tree.text?, hne]
  · refine ⟨closed_of_no_text (text?_object _), ?_⟩
    rw [Template.written_object, Template.atOrigin_object, Data.tree, typography]
    simp [Tree.text?, Tree.members?, properties_written hall, Except.map]

/-! ## All types -/

/-- A value that is no reference as a whole is read back. -/
theorem rereads_literal {type : TokenType} {t : Template} (h : Literal type t) :
    Rereads (literal type) t := by
  cases type with
  | boolean => exact rereads_boolean h
  | border => exact rereads_border h
  | color => exact rereads_color h
  | cubicBezier => exact rereads_cubicBezier h
  | dimension => exact rereads_dimension h
  | duration => exact rereads_duration h
  | fontFamily => exact rereads_fontFamily h
  | fontWeight => exact rereads_fontWeight h
  | gradient => exact rereads_gradient h
  | link => exact rereads_link h
  | number => exact rereads_number h
  | shadow => exact rereads_shadow h
  | string => exact rereads_string h
  | strokeStyle => exact rereads_strokeStyle h
  | transition => exact rereads_transition h
  | typography => exact rereads_typography h

/-- A normal template is read where it was written. -/
theorem value_written {type : TokenType} {t : Template} (h : Normal type t) :
    value type t.written.tree = .ok t.atOrigin :=
  orHole_written h rereads_literal

/-- A value without references is read from what was read of it, and stays as it is: what comes out
of reading is data that reads as itself, also when it is wrapped as a document of its own. -/
theorem value_idempotent {type : TokenType} {node : Tree} {t : Template} (hnode : node.WellKeyed)
    (h : value type node = .ok t) (hnone : t.references? = none) :
    ∃ d, (∀ lookup, t.fill lookup = .ok d) ∧ value type d.tree = .ok t ∧
      ∀ limits wrapped, Tree.ofData limits d = .ok wrapped → value type wrapped = .ok t := by
  have hsolid : t.Solid := Template.solid_of_references? hnone
  have hread : value type t.written.tree = .ok t := by
    rw [value_written (normal_of_value hnode h), Template.atOrigin_of_solid hsolid]
  refine ⟨t.written, fun lookup => Template.fill_of_solid hsolid, hread, ?_⟩
  intro limits wrapped hwrapped
  rw [Tree.tree_of_ofData hwrapped, hread]

/-- Properties of a font, with a single family and a weight by name. -/
def boldFont : Tree := (Data.object [("fontFamily", .text "Inter"), ("fontSize", .text "2rem"),
  ("fontWeight", .text "bold"), ("lineHeight", .int 0)]).tree

/-- What is read of them: the family in a list, and the weight as a number. -/
def boldFontRead : Template := .object [("fontFamily", .list [.text "Inter"]),
  ("fontSize", .text "2rem"), ("fontWeight", .int 700), ("lineHeight", .int 0)]

theorem value_idempotent_boldFont :
    boldFont.WellKeyed ∧ value .typography boldFont = .ok boldFontRead ∧
      boldFontRead.references? = none ∧ ∃ d, (∀ lookup, boldFontRead.fill lookup = .ok d) ∧
        value .typography d.tree = .ok boldFontRead ∧
        ∀ limits wrapped, Tree.ofData limits d = .ok wrapped →
          value .typography wrapped = .ok boldFontRead := by
  have hkeyed : boldFont.WellKeyed := by decide +kernel
  have hread : value .typography boldFont = .ok boldFontRead := by rfl
  have hnone : boldFontRead.references? = none := by rfl
  exact ⟨hkeyed, hread, hnone, value_idempotent hkeyed hread hnone⟩

end DesignTokens.Grammar
