import DesignTokens.Proofs.Members
import DesignTokens.Proofs.Value.Normal

/-!
# What is read is normal

Every reader gives the normal form of its type, and the readers of all types together give normal
templates.
-/

namespace DesignTokens.Grammar

open Outcome

/-! ## Parts -/

@[simp] theorem fail_ne_ok {α : Type} {problem : Problem} {node : Tree} {a : α} :
    (fail problem node : Except Failure α) = .ok a ↔ False := by
  simp [fail]

@[simp] theorem failKind_ne_ok {α : Type} {what : Expectation} {node : Tree} {a : α} :
    (failKind what node : Except Failure α) = .ok a ↔ False := by
  simp [failKind]

theorem text_eq_ok {node : Tree} {s : String} : text node = .ok s ↔ node.text? = some s := by
  unfold text
  split <;> simp [*]

/-- The text of a node that is not empty. -/
theorem filledText_eq_ok {what : EmptyText} {node : Tree} {s : String} :
    filledText what node = .ok s ↔ node.text? = some s ∧ s ≠ "" := by
  simp only [filledText, bind_eq_ok, text_eq_ok]
  constructor
  · rintro ⟨s', hs', h⟩
    split at h
    · simp at h
    · obtain rfl := pure_eq_ok.mp h
      exact ⟨hs', ‹_›⟩
  · rintro ⟨hs, hne⟩
    exact ⟨s, hs, by simp [hne]⟩

theorem part_eq_ok {node t : Tree} {name : String} :
    part node name = .ok t ↔ node.get? name = some t := by
  unfold part
  split <;> simp [*]

/-- Members are there when each of them is found. -/
theorem require_eq_ok {node : Tree} {names : List String} :
    require node names = .ok () ↔ ∀ name ∈ names, ∃ t, node.get? name = some t := by
  induction names with
  | nil => simp [require]
  | cons name rest ih =>
    rw [require, List.forall_mem_cons, ← ih, ← Tree.has_iff]
    split <;> simp [*]

/-- A part that is read has its name, and its value is read from the member of that name. -/
theorem readPart_eq_ok {node : Tree} {name : String} {read : Reader} {m : String × Template} :
    readPart node name read = .ok m ↔
      ∃ t, node.get? name = some t ∧ ∃ v, read t = .ok v ∧ m = (name, v) := by
  simp only [readPart, bind_eq_ok, pure_eq_ok, part_eq_ok]
  constructor
  · rintro ⟨t, ht, v, hv, rfl⟩
    exact ⟨t, ht, v, hv, rfl⟩
  · rintro ⟨t, ht, v, hv, rfl⟩
    exact ⟨t, ht, v, hv, rfl⟩

/-! ## Simple values -/

theorem isBoolean_of_boolean {node : Tree} {t : Template} (h : boolean node = .ok t) :
    IsBoolean t := by
  unfold boolean at h
  split at h
  · exact ⟨_, (Except.ok.inj h).symm⟩
  · simp at h

/-- The number of a node is a number. -/
theorem isNumber_of_number? {node : Tree} {n : Scalar} (h : node.number? = some n) :
    n.isNumber = true := by
  unfold Tree.number? at h
  split at h
  · split at h
    · obtain rfl := Option.some.inj h
      assumption
    · simp at h
  · simp at h

theorem isNumber_of_number {node : Tree} {t : Template} (h : number node = .ok t) :
    IsNumber t := by
  unfold number at h
  split at h
  · rename_i n hn
    exact ⟨n, (Except.ok.inj h).symm, isNumber_of_number? hn⟩
  · simp at h

theorem isString_of_string {node : Tree} {t : Template}
    (hclosed : ∀ s, node.text? = some s → Closed s) (h : string node = .ok t) : IsString t := by
  simp only [string, exceptMap_eq_ok, text_eq_ok] at h
  obtain ⟨s, hs, rfl⟩ := h
  exact ⟨s, rfl, hclosed s hs⟩

theorem isLink_of_link {node : Tree} {t : Template}
    (hclosed : ∀ s, node.text? = some s → Closed s) (h : link node = .ok t) : IsLink t := by
  simp only [link, exceptMap_eq_ok, filledText_eq_ok] at h
  obtain ⟨s, ⟨hs, hne⟩, rfl⟩ := h
  exact ⟨s, rfl, hclosed s hs, hne⟩

/-- Reads zero, or a number with a unit of a kind: lengths and times are read alike. -/
def measured (what : EmptyText) (noUnit : Problem) (invalid : String → Problem)
    (isUnit : List Char → Bool) : Reader := fun node => do
  if isZero node then return .int 0
  let s ← filledText what node
  match Magnitude.unit? s.toList with
  | none => fail (invalid s) node
  | some [] => fail noUnit node
  | some unit => if isUnit unit then return .text s else fail (invalid s) node

theorem dimension_eq :
    dimension = measured .dimension .missingUnit .invalidDimension Magnitude.isUnit := rfl

theorem duration_eq :
    duration = measured .duration .missingTimeUnit .invalidDuration
      (fun unit => Magnitude.timeUnits.contains (String.ofList unit)) := rfl

/-- What is measured is zero, or a text with a number and a unit of the kind. -/
theorem measured_spec {what : EmptyText} {noUnit : Problem} {invalid : String → Problem}
    {isUnit : List Char → Bool} {node : Tree} {t : Template}
    (h : measured what noUnit invalid isUnit node = .ok t) :
    (isZero node = true ∧ t = .int 0) ∨
      ∃ s, node.text? = some s ∧ t = .text s ∧ s ≠ "" ∧
        ∃ unit, Magnitude.unit? s.toList = some unit ∧ unit ≠ [] ∧ isUnit unit = true := by
  unfold measured at h
  split at h
  · -- zero needs no unit
    exact .inl ⟨‹_›, (pure_eq_ok.mp h).symm⟩
  · simp only [bind_eq_ok, filledText_eq_ok] at h
    obtain ⟨s, ⟨hs, hne⟩, h⟩ := h
    split at h
    · simp at h
    · simp at h
    · rename_i unit hbare hunit
      split at h
      · refine .inr ⟨s, hs, (pure_eq_ok.mp h).symm, hne, unit, hunit, ?_, ‹_›⟩
        -- without a number the text would have been a bare unit
        rintro rfl
        exact hbare rfl
      · simp at h

/-- What is read as a length is zero, or the text of a length. -/
theorem dimension_spec {node : Tree} {t : Template}
    (hclosed : ∀ s, node.text? = some s → Closed s) (h : dimension node = .ok t) :
    (isZero node = true ∧ t = .int 0) ∨
      ∃ s, node.text? = some s ∧ t = .text s ∧ IsLength s :=
  (measured_spec (dimension_eq ▸ h)).imp_right fun ⟨s, hs, ht, hne, hunit⟩ =>
    ⟨s, hs, ht, hclosed s hs, hne, hunit⟩

theorem isDimension_of_dimension {node : Tree} {t : Template}
    (hclosed : ∀ s, node.text? = some s → Closed s) (h : dimension node = .ok t) :
    IsDimension t := by
  obtain ⟨-, rfl⟩ | ⟨s, -, rfl, hs⟩ := dimension_spec hclosed h
  · exact .inl rfl
  · exact .inr ⟨s, rfl, hs⟩

/-- What is read as a time is zero, or the text of a time. -/
theorem duration_spec {node : Tree} {t : Template}
    (hclosed : ∀ s, node.text? = some s → Closed s) (h : duration node = .ok t) :
    (isZero node = true ∧ t = .int 0) ∨
      ∃ s, node.text? = some s ∧ t = .text s ∧ IsTime s :=
  (measured_spec (duration_eq ▸ h)).imp_right fun ⟨s, hs, ht, hne, hunit⟩ =>
    ⟨s, hs, ht, hclosed s hs, hne, hunit⟩

theorem isDuration_of_duration {node : Tree} {t : Template}
    (hclosed : ∀ s, node.text? = some s → Closed s) (h : duration node = .ok t) :
    IsDuration t := by
  obtain ⟨-, rfl⟩ | ⟨s, -, rfl, hs⟩ := duration_spec hclosed h
  · exact .inl rfl
  · exact .inr ⟨s, rfl, hs⟩

theorem isWeight_of_named {s : String} {i : Int} (h : Members.get? s fontWeights = some i) :
    0 ≤ i ∧ i ≤ maxWeight := by
  have hall : ∀ p ∈ fontWeights, 0 ≤ p.2 ∧ p.2 ≤ maxWeight := by decide
  exact hall _ (Members.mem_of_get? h)

theorem isWeight_of_fontWeight {node : Tree} {t : Template} (h : fontWeight node = .ok t) :
    IsWeight t := by
  unfold fontWeight at h
  split at h
  · split at h
    · simp at h
    · rename_i i hi
      split at h
      · -- a number has to be in range, and a name stands for one that is
        rename_i hrange
        simp only [Bool.and_eq_true, decide_eq_true_eq] at hrange
        exact ⟨i, (Except.ok.inj h).symm, hrange⟩
      · simp at h
    · simp at h
  · split at h
    · rename_i i hi
      exact ⟨i, (Except.ok.inj h).symm, isWeight_of_named hi⟩
    · simp at h
  · simp at h

/-! ## Colours -/

theorem numbers_eq_ok {node : Tree} {ns : List Scalar} :
    numbers node = .ok ns ↔ ∃ items, node.items? = some items ∧
      List.Forall₂ (fun t n => t.number? = some n) items ns := by
  simp only [← mapM_eq_some_iff, ← Option.bind_eq_some_iff]
  unfold numbers
  split <;> simp [*]

/-- The numbers of a node are numbers. -/
theorem isNumber_of_numbers {node : Tree} {ns : List Scalar} (h : numbers node = .ok ns) :
    ∀ n ∈ ns, n.isNumber = true := by
  obtain ⟨items, -, hitems⟩ := numbers_eq_ok.mp h
  intro n hn
  obtain ⟨t, -, ht⟩ := exists_left hitems hn
  exact isNumber_of_number? ht

theorem numberOf_eq_ok {node : Tree} {n : Scalar} :
    numberOf node = .ok n ↔ node.number? = some n := by
  unfold numberOf
  split <;> simp [*]

/-- The object of a colour with its opacity; without one the colour is opaque. -/
def opacity (node : Tree) : Except Failure Scalar :=
  match node.get? Color.alphaField with
  | some t => numberOf t
  | none => .ok (.int 1)

/-- The object with the parts of a colour, when there is such a colour. -/
def colorOfParts (spaceNode : Tree) (space : String) (channels : List Scalar) (alpha : Scalar) :
    Except Failure Template :=
  match Color.ofParts space channels alpha with
  | .ok _ =>
    return .object [(Color.spaceField, .text space), (Color.channelsField, ofScalars channels),
      (Color.alphaField, .scalar alpha)]
  | .error .unreadable => fail (.unknownSpace space) spaceNode
  | .error fault => throw (.fault fault)

theorem colorObject_eq (node : Tree) :
    colorObject node = (do
      require node [Color.spaceField, Color.channelsField]
      let spaceNode ← part node Color.spaceField
      let space ← text spaceNode
      let channels ← numbers (← part node Color.channelsField)
      colorOfParts spaceNode space channels (← opacity node)) := by
  unfold colorObject opacity
  cases node.get? Color.alphaField <;> rfl

theorem colorOfParts_eq_ok {spaceNode : Tree} {space : String} {channels : List Scalar}
    {alpha : Scalar} {t : Template} :
    colorOfParts spaceNode space channels alpha = .ok t ↔
      (∃ c, Color.ofParts space channels alpha = .ok c) ∧
        t = .object [(Color.spaceField, .text space), (Color.channelsField, ofScalars channels),
          (Color.alphaField, .scalar alpha)] := by
  unfold colorOfParts
  split
  · simp [*, eq_comm (b := t)]
  · simp [*]
  · simp [*]

/-- What is read as a colour of parts has those parts, when there is such a colour. -/
theorem colorObject_eq_ok {node : Tree} {t : Template} :
    colorObject node = .ok t ↔
      ∃ spaceNode, node.get? Color.spaceField = some spaceNode ∧
        ∃ space, spaceNode.text? = some space ∧
          ∃ channelsNode, node.get? Color.channelsField = some channelsNode ∧
            ∃ channels, numbers channelsNode = .ok channels ∧
              ∃ alpha, opacity node = .ok alpha ∧
                (∃ c, Color.ofParts space channels alpha = .ok c) ∧
                t = .object [(Color.spaceField, .text space),
                  (Color.channelsField, ofScalars channels),
                  (Color.alphaField, .scalar alpha)] := by
  rw [colorObject_eq]
  simp only [bind_eq_ok, part_eq_ok, text_eq_ok, colorOfParts_eq_ok]
  constructor
  · rintro ⟨_, -, spaceNode, hspaceNode, space, hspace, node', hnode', channels, hchannels, alpha,
      halpha, hparts⟩
    exact ⟨spaceNode, hspaceNode, space, hspace, node', hnode', channels, hchannels, alpha,
      halpha, hparts⟩
  · rintro ⟨spaceNode, hspaceNode, space, hspace, node', hnode', channels, hchannels, alpha,
      halpha, hparts⟩
    refine ⟨(), require_eq_ok.mpr ?_, spaceNode, hspaceNode, space, hspace, node', hnode',
      channels, hchannels, alpha, halpha, hparts⟩
    -- both parts that have to be there are there
    intro name hname
    simp only [List.mem_cons, List.not_mem_nil, or_false] at hname
    rcases hname with rfl | rfl
    · exact ⟨_, hspaceNode⟩
    · exact ⟨_, hnode'⟩

theorem isColor_of_colorObject {node : Tree} {t : Template} (h : colorObject node = .ok t) :
    IsColor t := by
  obtain ⟨-, -, space, -, channelsNode, -, channels, hchannels, alpha, halpha, hcolor, rfl⟩ :=
    colorObject_eq_ok.mp h
  refine ⟨space, channels, alpha, rfl, isNumber_of_numbers hchannels, ?_, hcolor⟩
  unfold opacity at halpha
  split at halpha
  · exact isNumber_of_number? (numberOf_eq_ok.mp halpha)
  · -- without an opacity the number is one
    obtain rfl := Except.ok.inj halpha
    rfl

/-- The object of a colour is that of a colour that exists. -/
theorem isColor_ofColor (c : Color) : IsColor (ofColor c) := by
  refine ⟨_, _, _, rfl, ?_, rfl, ?_⟩
  · intro n hn
    obtain ⟨v, -, rfl⟩ := List.mem_map.mp hn
    rfl
  · rw [Color.ofParts, Color.Space.ofName?_name]
    exact ⟨_, rfl⟩

theorem isColor_of_color {node : Tree} {t : Template} (h : color node = .ok t) : IsColor t := by
  unfold color at h
  split at h
  · exact isColor_of_colorObject h
  · simp only [bind_eq_ok] at h
    obtain ⟨s, -, h⟩ := h
    split at h
    · rw [← pure_eq_ok.mp h]
      exact isColor_ofColor _
    · simp at h

/-! ## Lists -/

theorem forall_of_mapM {read : Reader} {P : Template → Prop} {nodes : List Tree}
    {ts : List Template} (hread : ∀ node t, read node = .ok t → P t)
    (h : nodes.mapM read = .ok ts) : ∀ t ∈ ts, P t := by
  intro t ht
  obtain ⟨node, -, hnode⟩ := exists_of_mem_mapM h ht
  exact hread node t hnode

/-- What is read from a slot of a list of families is the reference that its text spells, or the
text itself. -/
theorem family_spec {list node : Tree} {t : Template} (h : family list node = .ok t) :
    ∃ s, node.text? = some s ∧
      ((∃ r, Reference.parse? s = some r ∧
        t = .hole ⟨r, node.span, some [.fontFamily], true⟩) ∨
      (t = .text s ∧ Closed s ∧ s ≠ "")) := by
  simp only [family, bind_eq_ok] at h
  obtain ⟨found, hfound, h⟩ := h
  cases found with
  | some hole =>
    obtain ⟨s, r, hs, hr, rfl⟩ := hole?_eq_some hfound
    exact ⟨s, hs, .inl ⟨r, hr, (pure_eq_ok.mp h).symm⟩⟩
  | none =>
    dsimp only at h
    split at h
    · rename_i s hs
      split at h
      · simp at h
      · exact ⟨s, hs, .inr ⟨(pure_eq_ok.mp h).symm, closed_of_hole? hfound hs, ‹_›⟩⟩
    · simp at h

theorem isFamily_of_family {list node : Tree} {t : Template} (h : family list node = .ok t) :
    IsFamily t := by
  obtain ⟨s, -, ⟨r, hr, rfl⟩ | ⟨rfl, hclosed, hne⟩⟩ := family_spec h
  · exact .inl (.intro r _ (Reference.wellFormed_of_parse? hr))
  · exact .inr ⟨s, rfl, hclosed, hne⟩

/-- Font families are read from one text, or from the items of a list one by one. -/
theorem fontFamily_spec {node : Tree} {t : Template} (h : fontFamily node = .ok t) :
    (∃ s, node.text? = some s ∧ s ≠ "" ∧ t = .list [.text s]) ∨
      ∃ written items, node.items? = some written ∧ written ≠ [] ∧ t = .list items ∧
        List.Forall₂ (fun n i => family node n = .ok i) written items := by
  unfold fontFamily at h
  split at h
  · rename_i s hs
    split at h
    · simp at h
    · exact .inl ⟨s, hs, ‹_›, (Except.ok.inj h).symm⟩
  · simp at h
  · rename_i written hne _ hwritten
    obtain ⟨items, hitems, rfl⟩ := exceptMap_eq_ok.mp h
    -- an empty list is refused before its items are read
    exact .inr ⟨written, items, hwritten, hne, rfl, mapM_eq_ok_iff.mp hitems⟩
  · simp at h

theorem isFamilies_of_fontFamily {node : Tree} {t : Template}
    (hclosed : ∀ s, node.text? = some s → Closed s) (h : fontFamily node = .ok t) :
    IsFamilies t := by
  obtain ⟨s, hs, hne, rfl⟩ | ⟨written, items, -, hne, rfl, hitems⟩ := fontFamily_spec h
  · refine ⟨_, rfl, by simp, ?_⟩
    intro i hi
    -- a single family is a list of one
    obtain rfl := List.mem_singleton.mp hi
    exact .inr ⟨s, rfl, hclosed s hs, hne⟩
  · refine ⟨items, rfl, ?_, fun i hi => ?_⟩
    · rintro rfl
      exact hne (List.length_eq_zero_iff.mp hitems.length_eq)
    · obtain ⟨n, -, hn⟩ := exists_left hitems hi
      exact isFamily_of_family hn

theorem isNumber_of_point {list node : Tree} {t : Template} (h : point list node = .ok t) :
    OrHole (some [.number]) IsNumber t := by
  simp only [point, bind_eq_ok] at h
  obtain ⟨found, hfound, h⟩ := h
  cases found with
  | some hole => exact .inl (pure_eq_ok.mp h ▸ isHole_of_hole? hfound)
  | none =>
    dsimp only at h
    split at h
    · rename_i n hn
      exact .inr ⟨n, (pure_eq_ok.mp h).symm, isNumber_of_number? hn⟩
    · simp at h

theorem isCurve_of_cubicBezier {node : Tree} {t : Template} (h : cubicBezier node = .ok t) :
    IsCurve t := by
  unfold cubicBezier at h
  split at h
  · simp at h
  · rename_i items _
    split at h
    · simp at h
    · rename_i hfour
      obtain ⟨ts, hts, rfl⟩ := exceptMap_eq_ok.mp h
      refine ⟨ts, rfl, ?_, forall_of_mapM (fun _ _ => isNumber_of_point) hts⟩
      rw [← (mapM_eq_ok_iff.mp hts).length_eq]
      exact not_not.mp hfour

theorem isDash_of_dash {node : Tree} {t : Template} (h : dash node = .ok t) : IsDash t := by
  simp only [dash, bind_eq_ok] at h
  obtain ⟨found, hfound, h⟩ := h
  cases found with
  | some hole => exact .inl (pure_eq_ok.mp h ▸ isHole_of_hole? hfound)
  | none =>
    dsimp only at h
    split at h
    · rename_i s hs
      split at h
      · simp at h
      · -- a text is no zero, so it is the text of a length
        obtain ⟨hzero, -⟩ | ⟨s', -, rfl, hlength⟩ :=
          dimension_spec (fun s hs => closed_of_hole? hfound hs) h
        · unfold Tree.text? at hs
          split at hs
          · simp [isZero, Tree.number?, Scalar.isNumber] at hzero
          · simp at hs
        · exact .inr ⟨s', rfl, hlength⟩
    · simp at h

theorem isStroke_of_strokeStyle {node : Tree} {t : Template} (h : strokeStyle node = .ok t) :
    IsStroke t := by
  unfold strokeStyle at h
  split at h
  · rename_i s _
    split at h
    · rename_i hs
      -- a name is one of the known styles
      exact .inl ⟨s, (pure_eq_ok.mp h).symm, by simpa using hs⟩
    · simp at h
  · split at h
    · simp at h
    · simp only [bind_eq_ok] at h
      obtain ⟨-, -, capNode, -, cap, -, h⟩ := h
      split at h
      · simp at h
      · rename_i hcap
        simp only [bind_eq_ok] at h
        obtain ⟨dashNode, -, h⟩ := h
        split at h
        · simp at h
        · simp only [bind_eq_ok, pure_eq_ok] at h
          obtain ⟨dashes, hdashes, rfl⟩ := h
          -- everything else has a cap that is known and a list of dashes
          exact .inr ⟨cap, dashes, rfl, by simpa using hcap,
            forall_of_mapM (fun _ _ => isDash_of_dash) hdashes⟩

/-! ## Objects -/

/-- A part that is a reference or a value of a type. -/
theorem orHole_of_readPart {node : Tree} {name : String} {type : TokenType} {read : Reader}
    {P : Template → Prop} {m : String × Template}
    (hread : ∀ node t, (∀ s, node.text? = some s → Closed s) → read node = .ok t → P t)
    (h : readPart node name (orHole type read) = .ok m) :
    ∃ v, m = (name, v) ∧ OrHole (some [type]) P v := by
  obtain ⟨t, -, v, hv, rfl⟩ := readPart_eq_ok.mp h
  exact ⟨v, rfl, orHole_spec hv (hread t v)⟩

theorem isBorder_of_border {node : Tree} {t : Template} (h : border node = .ok t) :
    IsBorder t := by
  simp only [border, bind_eq_ok, pure_eq_ok] at h
  obtain ⟨-, -, -, -, color, hcolor, width, hwidth, style, hstyle, rfl⟩ := h
  obtain ⟨c, rfl, hc⟩ := orHole_of_readPart (fun _ _ _ => isColor_of_color) hcolor
  obtain ⟨w, rfl, hw⟩ := orHole_of_readPart (fun _ _ => isDimension_of_dimension) hwidth
  obtain ⟨s, rfl, hs⟩ := orHole_of_readPart (fun _ _ _ => isStroke_of_strokeStyle) hstyle
  exact ⟨c, w, s, rfl, hc, hw, hs⟩

/-- With as many colours as positions there are stops. -/
theorem stops_eq_ok {colors positions : List (String × Template)}
    (h : colors.length = positions.length) : stops colors positions =
      .ok (List.zipWith (fun color position => .object [color, position]) colors positions) := by
  induction colors generalizing positions with
  | nil =>
    obtain rfl := List.length_eq_zero_iff.mp h.symm
    rfl
  | cons color colors ih =>
    cases positions with
    | nil => simp at h
    | cons position positions =>
      rw [stops, ih (Nat.succ.inj h)]
      rfl

/-- Every stop has a colour and a position when both were read of all of them. -/
theorem gradient_eq (node : Tree) : gradient node =
    match node.items? with
    | none => failKind .stops node
    | some items => do
      let positions ← items.mapM stopPosition
      let colors ← items.mapM fun stop => readPart stop "color" (orHole .color color)
      return .list (List.zipWith (fun color position => .object [color, position]) colors
        positions) := by
  unfold gradient
  cases node.items? with
  | none => rfl
  | some items =>
    dsimp only
    cases hpositions : items.mapM stopPosition with
    | error => rfl
    | ok positions =>
      cases hcolors : items.mapM fun stop => readPart stop "color" (orHole .color color) with
      | error => rfl
      | ok colors =>
        -- both lists have an entry for each stop
        have hlength : colors.length = positions.length :=
          (mapM_eq_ok_iff.mp hcolors).length_eq.symm.trans (mapM_eq_ok_iff.mp hpositions).length_eq
        show (stops colors positions >>= fun items => pure (Template.list items)) = _
        rw [stops_eq_ok hlength]
        rfl

theorem isGradient_of_gradient {node : Tree} {t : Template} (h : gradient node = .ok t) :
    IsGradient t := by
  rw [gradient_eq] at h
  split at h
  · simp at h
  · simp only [bind_eq_ok, pure_eq_ok] at h
    obtain ⟨positions, hpositions, colors, hcolors, rfl⟩ := h
    refine ⟨_, rfl, ?_⟩
    intro stop hstop
    -- the stop at a position has the place and the colour that were read there
    obtain ⟨i, hi, rfl⟩ := List.mem_iff_getElem.mp hstop
    rw [List.getElem_zipWith]
    rw [List.length_zipWith] at hi
    obtain ⟨n, -, hposition⟩ := exists_of_mem_mapM hpositions
      (List.getElem_mem (by omega : i < positions.length))
    obtain ⟨m, -, hcolor⟩ := exists_of_mem_mapM hcolors
      (List.getElem_mem (by omega : i < colors.length))
    simp only [stopPosition, bind_eq_ok] at hposition
    obtain ⟨-, -, -, -, hposition⟩ := hposition
    obtain ⟨p, hp, hnumber⟩ := orHole_of_readPart (fun _ _ _ => isNumber_of_number) hposition
    obtain ⟨c, hc, hcolor⟩ := orHole_of_readPart (fun _ _ _ => isColor_of_color) hcolor
    exact ⟨c, p, by rw [hp, hc], hcolor, hnumber⟩

/-- Of the parts that need not be there those that are there are read. -/
theorem readPresent_cons {node : Tree} {read : Reader} {name : String} {names : List String}
    {ms : List (String × Template)} (h : readPresent node read (name :: names) = .ok ms) :
    ∃ first rest, ms = Members.optional name first ++ rest ∧
      readPresent node read names = .ok rest ∧
      (node.has name = true → first ≠ none) ∧
      ∀ t, first = some t → ∃ n, node.get? name = some n ∧ read n = .ok t := by
  rw [readPresent] at h
  split at h
  · simp only [bind_eq_ok, pure_eq_ok] at h
    obtain ⟨m, hm, rest, hrest, rfl⟩ := h
    obtain ⟨n, hn, v, hv, rfl⟩ := readPart_eq_ok.mp hm
    refine ⟨some v, rest, rfl, hrest, by simp, ?_⟩
    rintro t ht
    obtain rfl := Option.some.inj ht
    exact ⟨n, hn, hv⟩
  · exact ⟨none, ms, rfl, h, by simp [*], by simp⟩

/-- A part that has to be there is read among the parts that need not be there. -/
theorem readPresent_required {node : Tree} {read : Reader} {name : String}
    {names : List String} {ms : List (String × Template)} (hhas : ∃ t, node.get? name = some t)
    (h : readPresent node read (name :: names) = .ok ms) :
    ∃ v rest, ms = (name, v) :: rest ∧ readPresent node read names = .ok rest ∧
      ∃ n, node.get? name = some n ∧ read n = .ok v := by
  obtain ⟨first, rest, rfl, hrest, hsome, hread⟩ := readPresent_cons h
  obtain ⟨v, rfl⟩ := Option.ne_none_iff_exists'.mp (hsome (Tree.has_iff.mpr hhas))
  exact ⟨v, rest, rfl, hrest, hread v rfl⟩

theorem isLayer_of_layer {node : Tree} {t : Template} (h : layer node = .ok t) : IsLayer t := by
  simp only [layer, bind_eq_ok, pure_eq_ok] at h
  obtain ⟨_, -, _, hrequire, color, hcolor, lengths, hlengths, insets, hinsets, rfl⟩ := h
  have hthere := require_eq_ok.mp hrequire
  obtain ⟨c, rfl, hc⟩ := orHole_of_readPart (fun _ _ _ => isColor_of_color) hcolor
  -- the lengths come in the order of their names, the required ones first
  obtain ⟨x, lengths, rfl, hlengths, nx, -, hx⟩ :=
    readPresent_required (hthere _ (by simp)) hlengths
  obtain ⟨y, lengths, rfl, hlengths, ny, -, hy⟩ :=
    readPresent_required (hthere _ (by simp)) hlengths
  obtain ⟨b, lengths, rfl, hlengths, nb, -, hb⟩ :=
    readPresent_required (hthere _ (by simp)) hlengths
  obtain ⟨spread, lengths, rfl, hlengths, -, hspread⟩ := readPresent_cons hlengths
  obtain ⟨inset, rest, rfl, hrest, -, hinset⟩ := readPresent_cons hinsets
  obtain rfl : lengths = [] := (Except.ok.inj hlengths).symm
  obtain rfl : rest = [] := (Except.ok.inj hrest).symm
  have hlength : ∀ {n : Tree} {v : Template}, orHole .dimension dimension n = .ok v →
      OrHole (some [.dimension]) IsDimension v :=
    fun hv => orHole_spec hv isDimension_of_dimension
  refine ⟨c, x, y, b, spread, inset, by simp, hc, hlength hx, hlength hy, hlength hb, ?_, ?_⟩
  · intro s hs
    obtain ⟨n, -, hn⟩ := hspread s hs
    exact hlength hn
  · intro i hi
    obtain ⟨n, -, hn⟩ := hinset i hi
    exact orHole_spec hn fun _ => isBoolean_of_boolean

theorem isShadow_of_shadow {node : Tree} {t : Template} (h : shadow node = .ok t) :
    IsShadow t := by
  unfold shadow at h
  split at h
  · obtain ⟨l, hl, rfl⟩ := exceptMap_eq_ok.mp h
    exact ⟨[l], rfl, by simpa using isLayer_of_layer hl⟩
  · obtain ⟨ls, hls, rfl⟩ := exceptMap_eq_ok.mp h
    exact ⟨ls, rfl, forall_of_mapM (fun _ _ => isLayer_of_layer) hls⟩
  · simp at h

/-- The delay of a movement; without one it starts at once. -/
def delay (node : Tree) : Except Failure Template :=
  match node.get? "delay" with
  | some t => orHole .duration duration t
  | none => .ok (.int 0)

theorem transition_eq (node : Tree) : transition node = (do
    requireObject node
    require node ["duration", "timingFunction"]
    let time ← readPart node "duration" (orHole .duration duration)
    let delay ← delay node
    let curve ← readPart node "timingFunction" (orHole .cubicBezier cubicBezier)
    return .object [time, ("delay", delay), curve]) := by
  unfold transition delay
  cases node.get? "delay" <;> rfl

theorem isTransition_of_transition {node : Tree} {t : Template} (h : transition node = .ok t) :
    IsTransition t := by
  simp only [transition_eq, bind_eq_ok, pure_eq_ok] at h
  obtain ⟨-, -, -, -, time, htime, late, hlate, curve, hcurve, rfl⟩ := h
  obtain ⟨d, rfl, hd⟩ := orHole_of_readPart (fun _ _ => isDuration_of_duration) htime
  obtain ⟨c, rfl, hc⟩ := orHole_of_readPart (fun _ _ _ => isCurve_of_cubicBezier) hcurve
  refine ⟨d, late, c, rfl, hd, ?_, hc⟩
  unfold delay at hlate
  split at hlate
  · exact orHole_spec hlate isDuration_of_duration
  · -- without a delay the movement starts at zero
    obtain rfl := Except.ok.inj hlate
    exact .inr (.inl rfl)

/-! ## Fonts -/

theorem isProperty_of_property {name : String} {node : Tree} {t : Template}
    (hclosed : ∀ s, node.text? = some s → Closed s) (h : property name node = .ok t) :
    IsProperty name t := by
  unfold property at h
  split at h
  · exact isFamilies_of_fontFamily hclosed h
  · exact isDimension_of_dimension hclosed h
  · exact isWeight_of_fontWeight h
  · exact isDimension_of_dimension hclosed h
  · split at h
    · rename_i n hn
      exact Or.inl ⟨n, (Except.ok.inj h).symm, isNumber_of_number? hn⟩
    · exact Or.inr (isDimension_of_dimension hclosed h)
  · -- a property of any other name is a text or a number
    have hunlisted : IsString t ∨ IsNumber t := by
      split at h
      · rename_i s _
        exact .inl ⟨s, (Except.ok.inj h).symm, hclosed s rfl⟩
      · exact .inr ⟨_, (Except.ok.inj h).symm, rfl⟩
      · exact .inr ⟨_, (Except.ok.inj h).symm, rfl⟩
      · simp at h
    unfold IsProperty
    -- the known names have been met above
    split <;> simp_all

/-- A single property of a font: a reference to a token of its types, or a value. -/
def readProperty (m : Key × Tree) : Except Failure (String × Template) := do
  let value ←
    match ← hole? (Members.get? m.1.name typographyTypes) false m.2 with
    | some h => pure (.hole h)
    | none => property m.1.name m.2
  return (m.1.name, value)

theorem properties_eq (ms : List (Key × Tree)) : properties ms = ms.mapM readProperty := by
  induction ms with
  | nil => rfl
  | cons m ms ih =>
    obtain ⟨key, node⟩ := m
    rw [properties, List.mapM_cons, readProperty, ih]
    simp only [bind_assoc, pure_bind]
    congr 1
    funext found
    cases found <;> simp only [bind_assoc, pure_bind]

/-- A property that is read has the name of its member, and is a reference or was read as the
property of that name. -/
theorem readProperty_spec {m : Key × Tree} {p : String × Template} (h : readProperty m = .ok p) :
    p.1 = m.1.name ∧ OrHole (Members.get? m.1.name typographyTypes)
      (fun t => (∀ s, m.2.text? = some s → Closed s) ∧ property m.1.name m.2 = .ok t) p.2 := by
  simp only [readProperty, bind_eq_ok] at h
  obtain ⟨found, hfound, h⟩ := h
  cases found with
  | some hole =>
    simp only [bind_eq_ok, pure_eq_ok] at h
    obtain ⟨v, rfl, rfl⟩ := h
    exact ⟨rfl, .inl (isHole_of_hole? hfound)⟩
  | none =>
    simp only [bind_eq_ok, pure_eq_ok] at h
    obtain ⟨v, hv, rfl⟩ := h
    exact ⟨rfl, .inr ⟨fun s hs => closed_of_hole? hfound hs, hv⟩⟩

/-- Properties that are read have the names of the members, and each is a reference or a property
of its name. -/
theorem properties_spec {members : List (Key × Tree)} {ms : List (String × Template)}
    (h : properties members = .ok ms) :
    ms.map Prod.fst = members.map (·.1.name) ∧
      ∀ m ∈ ms, OrHole (Members.get? m.1 typographyTypes) (IsProperty m.1) m.2 := by
  rw [properties_eq] at h
  refine ⟨map_eq_map_of_mapM (fun _ _ hread => (readProperty_spec hread).1) h, fun m hm => ?_⟩
  obtain ⟨n, -, hread⟩ := exists_of_mem_mapM h hm
  obtain ⟨hname, hvalue⟩ := readProperty_spec hread
  rw [hname]
  exact hvalue.imp_right fun hp => isProperty_of_property hp.1 hp.2

/-- A property among those of a font was read from the member of its name. -/
theorem exists_property {node : Tree} (hnode : node.WellKeyed) {ms : List (String × Template)}
    (h : typography node = .ok (.object ms)) {m : String × Template} (hm : m ∈ ms) :
    ∃ n, node.get? m.1 = some n ∧
      OrHole (Members.get? m.1 typographyTypes) (fun t => property m.1 n = .ok t) m.2 := by
  unfold typography at h
  split at h
  · split at h <;> simp at h
  · rename_i members hmembers
    obtain ⟨ms', hms, hsame⟩ := exceptMap_eq_ok.mp h
    obtain rfl := Template.object.inj hsame
    rw [properties_eq] at hms
    obtain ⟨⟨key, n⟩, hmem, hread⟩ := exists_of_mem_mapM hms hm
    obtain ⟨hname, hvalue⟩ := readProperty_spec hread
    rw [hname]
    refine ⟨n, hnode.get?_of_mem ?_, hvalue.imp_right And.right⟩
    rwa [Tree.members, hmembers]
  · simp at h

theorem isTypography_of_typography {node : Tree} {t : Template} (hnode : node.WellKeyed)
    (hclosed : ∀ s, node.text? = some s → Closed s) (h : typography node = .ok t) :
    IsTypography t := by
  unfold typography at h
  split at h
  · rename_i s hs
    split at h
    · simp at h
    · exact .inl ⟨s, (Except.ok.inj h).symm, hclosed s hs, ‹_›⟩
  · rename_i members hmembers
    obtain ⟨ms, hms, rfl⟩ := exceptMap_eq_ok.mp h
    obtain ⟨hnames, hall⟩ := properties_spec hms
    refine .inr ⟨ms, rfl, ?_, hall⟩
    -- the names of the properties are the keys of the node
    have hkeys : node.keys = Members.names ms := by
      rw [Tree.keys, Tree.members, hmembers, Members.names, hnames]
      rfl
    exact hkeys ▸ hnode.nodup
  · simp at h

/-! ## All types -/

/-- A value that is read and is no reference as a whole has the normal form of its type. -/
theorem literal_of_read {type : TokenType} {node : Tree} {t : Template} (hnode : node.WellKeyed)
    (hclosed : ∀ s, node.text? = some s → Closed s) (h : literal type node = .ok t) :
    Literal type t := by
  cases type with
  | boolean => exact isBoolean_of_boolean h
  | border => exact isBorder_of_border h
  | color => exact isColor_of_color h
  | cubicBezier => exact isCurve_of_cubicBezier h
  | dimension => exact isDimension_of_dimension hclosed h
  | duration => exact isDuration_of_duration hclosed h
  | fontFamily => exact isFamilies_of_fontFamily hclosed h
  | fontWeight => exact isWeight_of_fontWeight h
  | gradient => exact isGradient_of_gradient h
  | link => exact isLink_of_link hclosed h
  | number => exact isNumber_of_number h
  | shadow => exact isShadow_of_shadow h
  | string => exact isString_of_string hclosed h
  | strokeStyle => exact isStroke_of_strokeStyle h
  | transition => exact isTransition_of_transition h
  | typography => exact isTypography_of_typography hnode hclosed h

/-- Every value that is read is normal. -/
theorem normal_of_value {type : TokenType} {node : Tree} {t : Template} (hnode : node.WellKeyed)
    (h : value type node = .ok t) : Normal type t :=
  orHole_spec h (literal_of_read hnode)

end DesignTokens.Grammar
