import DesignTokens.Css.Plugin
import DesignTokens.Proofs.Outcome
import DesignTokens.Proofs.Value.Parts

/-!
# The custom properties of a value

Which parts of a value have custom properties depends on its type and its shape only
(`parts_entryProperties`).  Without its references a value has the same custom properties, but with
texts in the places of uses (`exists_plain`).
-/

namespace DesignTokens

/-- An entry that remembers no references. -/
def Entry.plain (e : Entry) : Entry := { e with references := none, reference := none }

namespace Css

open Outcome

/-! ## References that are used -/

theorem useOf?_eq_some {r : Reference} {piece : Piece} :
    useOf? r = some piece ↔ r.writtenMode = none ∧ piece = .token r.target := by
  simp [useOf?, eq_comm (a := piece)]

theorem reference?_eq_some {tree : ReferenceTree} {r : Reference} :
    tree.reference? = some r ↔ tree = .reference r := by
  cases tree <;> simp [ReferenceTree.reference?]

/-- Where a use stands there is a reference without a mode; elsewhere stands the text. -/
theorem orUse_cases (references : Option ReferenceTree) (step : Step) (text : String) :
    orUse references step text = .text text ∨
      ∃ r, partOf step references = some (.reference r) ∧ r.writtenMode = none ∧
        orUse references step text = .token r.target := by
  rw [orUse]
  cases huse : ((partOf step references).bind ReferenceTree.reference?).bind useOf? with
  | none => exact .inl rfl
  | some piece =>
    obtain ⟨r, hr, hpiece⟩ := Option.bind_eq_some_iff.mp huse
    obtain ⟨tree, htree, hreference⟩ := Option.bind_eq_some_iff.mp hr
    obtain ⟨hmode, rfl⟩ := useOf?_eq_some.mp hpiece
    exact .inr ⟨r, htree.trans (congrArg some (reference?_eq_some.mp hreference)), hmode, rfl⟩

/-- What is known of a part is known of the whole. -/
theorem mem_leaves_of_partOf {references : Option ReferenceTree} {step : Step}
    {part : ReferenceTree} (h : partOf step references = some part) {steps : List Step}
    {r : Reference} (hr : (steps, r) ∈ part.leaves) :
    ∃ tree, references = some tree ∧ (step :: steps, r) ∈ tree.leaves := by
  obtain ⟨tree, rfl, hchild⟩ := Option.bind_eq_some_iff.mp h
  refine ⟨tree, rfl, ?_⟩
  cases tree with
  | reference r => simp [ReferenceTree.child?] at hchild
  | parts children =>
    obtain ⟨⟨step', part'⟩, hfind, rfl⟩ := Option.map_eq_some_iff.mp hchild
    obtain rfl : step' = step := by simpa using List.find?_some hfind
    have hmem := List.mem_of_find?_eq_some hfind
    clear hfind hchild h
    rw [ReferenceTree.leaves]
    induction children with
    | nil => exact absurd hmem List.not_mem_nil
    | cons child children ih =>
      rw [ReferenceTree.leavesOf, List.mem_append]
      rcases List.mem_cons.mp hmem with rfl | hmem
      · exact .inl (List.mem_map_of_mem hr)
      · exact .inr (ih hmem)

/-! ## Texts in the places of uses -/

/-- The text at a place of a value where a use can stand: how the part there is written. -/
def textAt (type : TokenType) (steps : List Step) (d : Data) : Except Fault String :=
  match type, steps with
  | .border, [.field "width"] => .ok d.plain
  | .border, [.field "color"] => colorText d
  | .border, [.field "style"] => .ok (strokeText d)
  | .transition, [.field "duration"] => .ok d.plain
  | .transition, [.field "delay"] => .ok d.plain
  | .transition, [.field "timingFunction"] => do return curveText (← pointTexts d)
  | .typography, [.field name] => typographyText name d
  | .cubicBezier, [.index _] => do return numberText (← scalar d)
  | .gradient, [.index _, .field "color"] => colorText d
  | .shadow, [.index _, .field "color"] => colorText d
  | .shadow, [.index _, .field name] => if name ∈ layerLengths then .ok d.plain else .error .wrongShape
  | _, _ => .error .wrongShape

/-- A piece and what stands in its place without references: a use becomes the text of the part
where its reference stands. -/
inductive Stands (references : Option ReferenceTree) (value : Data)
    (read : List Step → Data → Except Fault String) : Piece → Piece → Prop where
  | text (s : String) : Stands references value read (.text s) (.text s)
  | part (name : String) : Stands references value read (.part name) (.part name)
  /-- A use in the place of a text. -/
  | use {tree : ReferenceTree} {steps : List Step} {r : Reference} {d : Data} {s : String} :
    references = some tree → (steps, r) ∈ tree.leaves → r.writtenMode = none →
    value.at? steps = some d → read steps d = .ok s →
    Stands references value read (.token r.target) (.text s)

variable {references : Option ReferenceTree} {value : Data}
  {read : List Step → Data → Except Fault String}

theorem stands_orUse {step : Step} {d : Data} {s : String} (hd : value.at? [step] = some d)
    (hs : read [step] d = .ok s) :
    Stands references value read (orUse references step s) (.text s) := by
  rcases orUse_cases references step s with htext | ⟨r, hpart, hmode, huse⟩
  · rw [htext]
    exact .text s
  · rw [huse]
    have hself : ([], r) ∈ (ReferenceTree.reference r).leaves := List.mem_singleton_self _
    obtain ⟨tree, htree, hleaf⟩ := mem_leaves_of_partOf hpart hself
    exact .use htree hleaf hmode hd hs

theorem at?_cons {step : Step} {d : Data} (hd : value.at? [step] = some d) (steps : List Step) :
    value.at? (step :: steps) = d.at? steps := by
  cases step <;> cases value <;> simp_all [Data.at?]

theorem Stands.ofPart {step : Step} {d : Data} {read' : List Step → Data → Except Fault String}
    {a b : Piece} (h : Stands (partOf step references) d read' a b)
    (hd : value.at? [step] = some d) (hread : ∀ steps, read (step :: steps) = read' steps) :
    Stands references value read a b := by
  cases h with
  | text s => exact .text s
  | part name => exact .part name
  | use htree hleaf hmode hat hs =>
    obtain ⟨tree, hreferences, hleaf'⟩ := mem_leaves_of_partOf htree hleaf
    exact .use hreferences hleaf' hmode ((at?_cons hd _).trans hat) ((hread _).symm ▸ hs)

theorem stands_separated {separator : String} {as bs : List (List Piece)}
    (h : List.Forall₂ (List.Forall₂ (Stands references value read)) as bs) :
    List.Forall₂ (Stands references value read) (separated separator as)
      (separated separator bs) := by
  have hseparator : List.Forall₂ (Stands references value read) [.text separator]
      [.text separator] := .cons (.text _) .nil
  rw [separated, separated]
  induction h with
  | nil => exact .nil
  | cons hab hrest ih =>
    cases hrest with
    | nil => simpa [List.intercalate] using hab
    | cons hab' hrest =>
      rw [List.intercalate_cons_cons, List.intercalate_cons_cons]
      exact List.rel_append (List.rel_append hab hseparator) ih

/-! ## Parts of values -/

theorem member_eq_ok {name : String} {d part : Data} :
    member name d = .ok part ↔ d.at? [.field name] = some part := by
  unfold member
  cases d with
  | object members =>
    cases h : Members.get? name members <;> simp [Data.at?, h]
  | _ => simp [Data.at?]

theorem items_eq_ok {d : Data} {ds : List Data} : items d = .ok ds ↔ d = .list ds := by
  unfold items
  cases d <;> simp

theorem stop_plain {d : Data} {ps : List Piece} (h : stop references d = .ok ps)
    (hread : read [.field "color"] = colorText) :
    ∃ qs, stop none d = .ok qs ∧ List.Forall₂ (Stands references d read) ps qs := by
  simp only [stop, bind_eq_ok, pure_eq_ok] at h
  obtain ⟨c, hc, color, hcolor, p, hp, scalar, hscalar, position, hposition, rfl⟩ := h
  refine ⟨[.text color, .text (" " ++ position)], ?_, .cons ?_ (.cons (.text _) .nil)⟩
  · simp only [stop, bind_eq_ok, pure_eq_ok]
    exact ⟨c, hc, color, hcolor, p, hp, scalar, hscalar, position, hposition, rfl⟩
  · exact stands_orUse (member_eq_ok.mp hc) (hread ▸ hcolor)

/-- The lengths that are there are the same with references and without. -/
theorem lengths_plain {members : Members Data} (names : List String)
    (hread : ∀ name ∈ names, ∀ d, read [.field name] d = .ok d.plain) :
    List.Forall₂ (Stands references (.object members) read)
      (names.filterMap fun name =>
        (Members.get? name members).map fun d => orUse references (.field name) d.plain)
      (names.filterMap fun name =>
        (Members.get? name members).map fun d => orUse none (.field name) d.plain) := by
  induction names with
  | nil => exact .nil
  | cons name names ih =>
    have hrest := ih fun n hn => hread n (List.mem_cons_of_mem _ hn)
    rw [List.filterMap_cons, List.filterMap_cons]
    cases hget : Members.get? name members with
    | none => exact hrest
    | some d =>
      refine .cons (stands_orUse (d := d) ?_ (hread _ List.mem_cons_self d)) hrest
      simp [Data.at?, hget]

/-- The words of a layer of a shadow. -/
def layerWords (references : Option ReferenceTree) (members : Members Data) (color : String) :
    List Piece :=
  (if isInset members then [.text "inset"] else []) ++
    layerLengths.filterMap (fun name =>
      (Members.get? name members).map fun d => orUse references (.field name) d.plain) ++
    [orUse references (.field "color") color]

theorem layer_eq_ok_iff {d : Data} {ps : List Piece} :
    layer references d = .ok ps ↔ ∃ members c color, d = .object members ∧
      member "color" d = .ok c ∧ colorText c = .ok color ∧
      separated " " ((layerWords references members color).map ([·])) = ps := by
  cases d <;> simp [layer, layerWords]

theorem mem_layerWords {members : Members Data} {color : String} {piece : Piece}
    (h : piece ∈ layerWords references members color) :
    piece = .text "inset" ∨
      (∃ name d, Members.get? name members = some d ∧
        piece = orUse references (.field name) d.plain) ∨
      piece = orUse references (.field "color") color := by
  rw [layerWords, List.mem_append, List.mem_append, List.mem_filterMap, List.mem_singleton] at h
  rcases h with (hinset | ⟨name, -, hlength⟩) | hcolor
  · split at hinset
    · exact .inl (List.mem_singleton.mp hinset)
    · exact absurd hinset List.not_mem_nil
  · obtain ⟨d, hd, rfl⟩ := Option.map_eq_some_iff.mp hlength
    exact .inr (.inl ⟨name, d, hd, rfl⟩)
  · exact .inr (.inr hcolor)

theorem layer_plain {d : Data} {ps : List Piece} (h : layer references d = .ok ps)
    (hcolor : read [.field "color"] = colorText)
    (hlength : ∀ name ∈ layerLengths, ∀ d, read [.field name] d = .ok d.plain) :
    ∃ qs, layer none d = .ok qs ∧ List.Forall₂ (Stands references d read) ps qs := by
  obtain ⟨members, c, color, rfl, hc, hcolor', rfl⟩ := layer_eq_ok_iff.mp h
  refine ⟨_, layer_eq_ok_iff.mpr ⟨members, c, color, rfl, hc, hcolor', rfl⟩, stands_separated ?_⟩
  rw [List.forall₂_map_left_iff, List.forall₂_map_right_iff]
  have hinset : List.Forall₂ (Stands references (.object members) read)
      (if isInset members then [.text "inset"] else [])
      (if isInset members then [.text "inset"] else []) := by
    split
    · exact .cons (.text _) .nil
    · exact .nil
  have hlast : List.Forall₂ (Stands references (.object members) read)
      [orUse references (.field "color") color] [orUse none (.field "color") color] :=
    .cons (stands_orUse (member_eq_ok.mp hc) (hcolor ▸ hcolor')) .nil
  refine List.Forall₂.imp (fun a b hab => .cons hab .nil) ?_
  exact List.rel_append (List.rel_append hinset (lengths_plain _ hlength)) hlast

theorem within_plain (read : List Step → Data → Except Fault String)
    {f : Option ReferenceTree → Data → Except Fault (List Piece)}
    {ds : List Data} {ps : List (List Piece)} (h : within references f ds = .ok ps)
    (hf : ∀ i d ps, f (partOf (.index i) references) d = .ok ps → ∃ qs, f none d = .ok qs ∧
      List.Forall₂ (Stands (partOf (.index i) references) d fun steps => read (.index i :: steps))
        ps qs) :
    ∃ qs, within none f ds = .ok qs ∧
      List.Forall₂ (List.Forall₂ (Stands references (.list ds) read)) ps qs := by
  rw [within, mapM_eq_ok_iff] at h
  have hitems : ∀ x ∈ ds.zipIdx, (Data.list ds).at? [.index x.2] = some x.1 := by
    intro x hx
    simp [Data.at?, List.mem_zipIdx_iff_getElem?.mp hx]
  -- items keep their index, which says where their references stand
  have key (xs : List (Data × Nat)) (hxs : ∀ x ∈ xs, x ∈ ds.zipIdx) (ps : List (List Piece))
      (h : List.Forall₂ (fun x p => f (partOf (.index x.2) references) x.1 = .ok p) xs ps) :
      ∃ qs, List.Forall₂ (fun x q => f none x.1 = .ok q) xs qs ∧
        List.Forall₂ (List.Forall₂ (Stands references (.list ds) read)) ps qs := by
    induction h with
    | nil => exact ⟨[], .nil, .nil⟩
    | @cons x p xs ps hp _ ih =>
      obtain ⟨qs, hqs, hstands⟩ := ih fun y hy => hxs y (List.mem_cons_of_mem _ hy)
      obtain ⟨q, hq, hpq⟩ := hf _ _ _ hp
      refine ⟨q :: qs, .cons hq hqs, .cons (hpq.imp fun a b hab => ?_) hstands⟩
      exact hab.ofPart (hitems x (hxs x List.mem_cons_self)) fun _ => rfl
  obtain ⟨qs, hqs, hstands⟩ := key _ (fun _ h => h) ps h
  exact ⟨qs, mapM_eq_ok_iff.mpr hqs, hstands⟩

/-- The parts of a value are read one by one. -/
theorem partPieces_eq_ok_iff {readers : List (String × (Data → Except Fault String))}
    {parts : List (String × Piece)} :
    partPieces references value readers = .ok parts ↔
      List.Forall₂ (fun reader part => ∃ d s, member reader.1 value = .ok d ∧
        reader.2 d = .ok s ∧ part = (reader.1, orUse references (.field reader.1) s))
        readers parts := by
  induction readers generalizing parts with
  | nil => simp [partPieces, eq_comm]
  | cons reader readers ih =>
    simp only [partPieces, bind_eq_ok, pure_eq_ok, ih, List.forall₂_cons_left_iff]
    constructor
    · rintro ⟨d, hd, s, hs, rest, hrest, rfl⟩
      exact ⟨_, rest, ⟨d, s, hd, hs, rfl⟩, hrest, rfl⟩
    · rintro ⟨_, rest, ⟨d, s, hd, hs, rfl⟩, hrest, rfl⟩
      exact ⟨d, hd, s, hs, rest, hrest, rfl⟩

theorem partPieces_plain (read : List Step → Data → Except Fault String)
    {readers : List (String × (Data → Except Fault String))}
    {parts : List (String × Piece)} (h : partPieces references value readers = .ok parts)
    (hread : ∀ p ∈ readers, read [.field p.1] = p.2) :
    ∃ parts', partPieces none value readers = .ok parts' ∧
      List.Forall₂ (fun p q => q.1 = p.1 ∧ Stands references value read p.2 q.2) parts parts' := by
  simp only [partPieces_eq_ok_iff] at h ⊢
  induction h with
  | nil => exact ⟨[], .nil, .nil⟩
  | @cons reader _ readers _ hpart _ ih =>
    obtain ⟨d, s, hd, hs, rfl⟩ := hpart
    obtain ⟨hreader, hreaders⟩ := List.forall_mem_cons.mp hread
    obtain ⟨parts', hparts', hall⟩ := ih hreaders
    refine ⟨_, .cons ⟨d, s, hd, hs, rfl⟩ hparts', .cons ⟨rfl, ?_⟩ hall⟩
    exact stands_orUse (member_eq_ok.mp hd) (hreader ▸ hs)

theorem stands_curve {as bs : List Piece} (h : List.Forall₂ (Stands references value read) as bs) :
    List.Forall₂ (Stands references value read) (curve as) (curve bs) := by
  refine .cons (.text _) (List.rel_append (stands_separated ?_) (.cons (.text _) .nil))
  rw [List.forall₂_map_left_iff, List.forall₂_map_right_iff]
  exact h.imp fun _ _ hab => .cons hab .nil

theorem points_plain {d : Data} {texts : List String} (h : pointTexts d = .ok texts)
    (hread : ∀ i d, read [.index i] d = (scalar d).map numberText) :
    List.Forall₂ (Stands references d read)
      (texts.zipIdx.map fun (text, i) => orUse references (.index i) text)
      (texts.zipIdx.map fun (text, i) => orUse none (.index i) text) := by
  simp only [pointTexts, bind_eq_ok, mapM_eq_ok_iff, pure_eq_ok] at h
  obtain ⟨ds, hds, htexts⟩ := h
  obtain rfl := items_eq_ok.mp hds
  rw [List.forall₂_map_left_iff, List.forall₂_map_right_iff, List.forall₂_same]
  rintro ⟨text, i⟩ htext
  rw [List.mem_zipIdx_iff_getElem?] at htext
  obtain ⟨hlt, hget⟩ := List.getElem?_eq_some_iff.mp htext
  have hlt' : i < ds.length := htexts.length_eq ▸ hlt
  obtain ⟨s, hs, hnumber⟩ : ∃ s, scalar ds[i] = .ok s ∧ numberText s = texts[i] := by
    simpa using htexts.get hlt' hlt
  refine stands_orUse (d := ds[i]) (by simp [Data.at?, List.getElem?_eq_getElem hlt']) ?_
  rw [hread, hs]
  exact congrArg Except.ok (hnumber.trans hget)

/-! ## Custom properties -/

/-- A custom property and the one that stands in its place without references. -/
structure Follows (references : Option ReferenceTree) (value : Data)
    (read : List Step → Data → Except Fault String) (p q : Property) : Prop where
  part_eq : q.part = p.part
  variant_eq : q.variant = p.variant
  pieces : List.Forall₂ (Stands references value read) p.value q.value

theorem follows_forPart {name : String} {a b : Piece} (h : Stands references value read a b) :
    Follows references value read (forPart name a) (forPart name b) :=
  ⟨rfl, rfl, .cons h .nil⟩

theorem follows_whole {as bs : List Piece} (h : List.Forall₂ (Stands references value read) as bs) :
    List.Forall₂ (Follows references value read) [whole as] [whole bs] :=
  .cons ⟨rfl, rfl, h⟩ .nil

theorem follows_text (s : String) :
    List.Forall₂ (Follows references value read) [whole [.text s]] [whole [.text s]] :=
  follows_whole (.cons (.text s) .nil)

theorem follows_shorthand {parts parts' : List (String × Piece)}
    (h : List.Forall₂ (fun p q => q.1 = p.1 ∧ Stands references value read p.2 q.2) parts parts') :
    List.Forall₂ (Follows references value read) (shorthand parts) (shorthand parts') := by
  have hnames : parts'.map (fun p => [Piece.part p.1]) = parts.map fun p => [Piece.part p.1] := by
    induction h with
    | nil => rfl
    | cons hpq _ ih => rw [List.map_cons, List.map_cons, hpq.1, ih]
  refine .cons ⟨rfl, rfl, ?_⟩ ?_
  · rw [whole, whole, hnames]
    refine stands_separated ?_
    rw [List.forall₂_map_left_iff, List.forall₂_map_right_iff, List.forall₂_same]
    exact fun p _ => .cons (.part _) .nil
  · rw [List.forall₂_map_left_iff, List.forall₂_map_right_iff]
    refine h.imp ?_
    rintro ⟨name, a⟩ ⟨name', b⟩ ⟨hname, hab⟩
    obtain rfl : name' = name := hname
    exact follows_forPart hab

/-- The properties of a font are written one by one. -/
theorem typographyProperties_eq_ok_iff {members : Members Data} {ps : List Property} :
    typographyProperties references members = .ok ps ↔
      List.Forall₂ (fun m p => ∃ s, typographyText m.1 m.2 = .ok s ∧
        p = forPart (kebab m.1) (orUse references (.field m.1) s)) members ps := by
  induction members generalizing ps with
  | nil => simp [typographyProperties, eq_comm]
  | cons m members ih =>
    simp only [typographyProperties, bind_eq_ok, pure_eq_ok, ih, List.forall₂_cons_left_iff]
    constructor
    · rintro ⟨s, hs, rest, hrest, rfl⟩
      exact ⟨_, rest, ⟨s, hs, rfl⟩, hrest, rfl⟩
    · rintro ⟨_, rest, ⟨s, hs, rfl⟩, hrest, rfl⟩
      exact ⟨s, hs, rest, hrest, rfl⟩

theorem typographyProperties_plain {members rest : Members Data}
    (hrest : ∀ m ∈ rest, (Data.object members).at? [.field m.1] = some m.2) {ps : List Property}
    (h : typographyProperties references rest = .ok ps)
    (hread : ∀ name, read [.field name] = typographyText name) :
    ∃ qs, typographyProperties none rest = .ok qs ∧
      List.Forall₂ (Follows references (.object members) read) ps qs := by
  simp only [typographyProperties_eq_ok_iff] at h ⊢
  induction h with
  | nil => exact ⟨[], .nil, .nil⟩
  | cons hproperty _ ih =>
    obtain ⟨s, hs, rfl⟩ := hproperty
    obtain ⟨hm, hrest⟩ := List.forall_mem_cons.mp hrest
    obtain ⟨qs, hqs, hall⟩ := ih hrest
    refine ⟨_, .cons ⟨s, hs, rfl⟩ hqs, .cons (follows_forPart ?_) hall⟩
    exact stands_orUse hm ((hread _).symm ▸ hs)

/-- The renditions of a colour are texts. -/
theorem mem_colorProperties {variants : Members Data} {ps : List Property}
    (h : colorProperties variants = .ok ps) {p : Property} (hp : p ∈ ps) :
    ∃ r ∈ Color.renditions, ∃ d s, Members.get? r.1 variants = some d ∧
      Color.cssText r.2 d = .ok s ∧ p = ⟨none, [.text s], some r.1⟩ := by
  obtain ⟨r, hr, hrendition⟩ := exists_of_mem_mapM h hp
  dsimp only at hrendition
  split at hrendition
  · rename_i d hd
    simp only [bind_eq_ok, pure_eq_ok] at hrendition
    obtain ⟨s, hs, rfl⟩ := hrendition
    exact ⟨r, hr, d, s, hd, hs, rfl⟩
  · simp at hrendition

/-! ## How custom properties are made -/

/-- The readers of the parts of a value that has a shorthand. -/
inductive PartReaders : TokenType → List (String × (Data → Except Fault String)) → Prop where
  | border : PartReaders .border borderParts
  | transition : PartReaders .transition transitionParts

/-- How the items of a value are written. -/
inductive ItemWriter :
    TokenType → (Option ReferenceTree → Data → Except Fault (List Piece)) → Prop where
  | gradient : ItemWriter .gradient stop
  | shadow : ItemWriter .shadow layer

/-- The text of a value that is written as one text, whatever its references are. -/
def wholeText (type : TokenType) (d : Data) : Except Fault String :=
  match type with
  | .boolean => do return if (← scalar d).same (.bool true) then "1" else "0"
  | .fontFamily => do return familiesText (← names d)
  | .number => do return numberText (← scalar d)
  | .link => .ok (linkText d)
  | .strokeStyle => .ok (strokeText d)
  | .dimension | .duration | .fontWeight | .string => .ok d.plain
  | .typography =>
    match d with
    | .object _ => .error .wrongShape
    | d => .ok d.plain
  | .border | .color | .cubicBezier | .gradient | .shadow | .transition => .error .wrongShape

/-- How the custom properties of a value are made, one way for each kind of value. -/
inductive Makes (e : Entry) : TokenType → List Property → Prop where
  /-- The renditions of a colour. -/
  | renditions {ps : List Property} : colorProperties e.variants = .ok ps → Makes e .color ps
  /-- A shorthand and its parts. -/
  | parts {type : TokenType} {readers : List (String × (Data → Except Fault String))}
    {parts : List (String × Piece)} :
    PartReaders type readers → partPieces e.references e.value readers = .ok parts →
    Makes e type (shorthand parts)
  /-- The properties of a font. -/
  | font {members : Members Data} {ps : List Property} :
    e.value = .object members → typographyProperties e.references members = .ok ps →
    Makes e .typography ps
  /-- The points of a curve. -/
  | curve {texts : List String} :
    pointTexts e.value = .ok texts →
    Makes e .cubicBezier [whole (curve
      (texts.zipIdx.map fun (text, i) => orUse e.references (.index i) text))]
  /-- The stops of a gradient or the layers of a shadow. -/
  | items {type : TokenType} {write : Option ReferenceTree → Data → Except Fault (List Piece)}
    {ds : List Data} {values : List (List Piece)} :
    ItemWriter type write → e.value = .list ds → within e.references write ds = .ok values →
    Makes e type [whole (separated ", " values)]
  /-- One text. -/
  | text {type : TokenType} {s : String} :
    wholeText type e.value = .ok s → Makes e type [whole [.text s]]

theorem makes_of_properties {type : TokenType} {e : Entry} {ps : List Property}
    (h : properties type e = .ok ps) : Makes e type ps := by
  cases type with
  | color => exact .renditions h
  | border =>
    simp only [properties, bind_eq_ok, pure_eq_ok] at h
    obtain ⟨parts, hparts, rfl⟩ := h
    exact .parts .border hparts
  | transition =>
    simp only [properties, bind_eq_ok, pure_eq_ok] at h
    obtain ⟨parts, hparts, rfl⟩ := h
    exact .parts .transition hparts
  | typography =>
    cases hvalue : e.value with
    | object members =>
      simp only [properties, hvalue] at h
      exact .font hvalue h
    | _ =>
      simp only [properties, hvalue, pure_eq_ok] at h
      subst h
      exact .text (by rw [hvalue]; rfl)
  | cubicBezier =>
    simp only [properties, bind_eq_ok, pure_eq_ok] at h
    obtain ⟨texts, htexts, rfl⟩ := h
    exact .curve htexts
  | gradient =>
    simp only [properties, bind_eq_ok, pure_eq_ok] at h
    obtain ⟨ds, hds, stops, hstops, rfl⟩ := h
    exact .items .gradient (items_eq_ok.mp hds) hstops
  | shadow =>
    simp only [properties, bind_eq_ok, pure_eq_ok] at h
    obtain ⟨ds, hds, layers, hlayers, rfl⟩ := h
    exact .items .shadow (items_eq_ok.mp hds) hlayers
  | boolean | fontFamily | number =>
    simp only [properties, bind_eq_ok, pure_eq_ok] at h
    obtain ⟨x, hx, rfl⟩ := h
    exact .text (bind_eq_ok.mpr ⟨x, hx, rfl⟩)
  | dimension | duration | fontWeight | link | string | strokeStyle =>
    obtain rfl := Except.ok.inj h
    exact .text rfl

/-- What the custom properties of a value are. -/
theorem properties_eq_ok_iff {type : TokenType} {e : Entry} {ps : List Property} :
    properties type e = .ok ps ↔ Makes e type ps := by
  refine ⟨makes_of_properties, fun h => ?_⟩
  cases h with
  | renditions h => exact h
  | parts hreaders hparts =>
    cases hreaders <;> exact bind_eq_ok.mpr ⟨_, hparts, rfl⟩
  | font hvalue hfont => simpa only [properties, hvalue] using hfont
  | curve htexts => exact bind_eq_ok.mpr ⟨_, htexts, rfl⟩
  | items hwriter hvalue hvalues =>
    have hds := items_eq_ok.mpr hvalue
    cases hwriter <;> exact bind_eq_ok.mpr ⟨_, hds, bind_eq_ok.mpr ⟨_, hvalues, rfl⟩⟩
  | text htext =>
    cases type with
    | boolean | fontFamily | number =>
      obtain ⟨x, hx, heq⟩ := bind_eq_ok.mp htext
      obtain rfl := Except.ok.inj heq
      exact bind_eq_ok.mpr ⟨x, hx, rfl⟩
    | dimension | duration | fontWeight | link | string | strokeStyle =>
      obtain rfl := Except.ok.inj htext
      rfl
    | typography =>
      cases hvalue : e.value with
      | object members => simp [wholeText, hvalue] at htext
      | _ =>
        rw [hvalue] at htext
        obtain rfl := Except.ok.inj htext
        simp only [properties, hvalue]
        rfl
    | border | color | cubicBezier | gradient | shadow | transition => cases htext

/-- The parts of a shorthand are read by how parts are written. -/
theorem PartReaders.textAt_eq {type : TokenType}
    {readers : List (String × (Data → Except Fault String))} (h : PartReaders type readers) :
    ∀ p ∈ readers, textAt type [.field p.1] = p.2 := by
  cases h
  all_goals
    simp only [borderParts, transitionParts, List.forall_mem_cons, List.not_mem_nil, false_imp_iff,
      implies_true, and_true]
    exact ⟨rfl, rfl, rfl⟩

theorem ItemWriter.plain {type : TokenType}
    {write : Option ReferenceTree → Data → Except Fault (List Piece)} (h : ItemWriter type write)
    (i : Nat) {d : Data} {ps : List Piece} (hps : write references d = .ok ps) :
    ∃ qs, write none d = .ok qs ∧
      List.Forall₂ (Stands references d fun steps => textAt type (.index i :: steps)) ps qs := by
  cases h with
  | gradient => exact stop_plain hps rfl
  | shadow =>
    refine layer_plain hps rfl ?_
    simp only [layerLengths, List.forall_mem_cons, List.not_mem_nil, false_imp_iff, implies_true,
      and_true]
    exact ⟨fun _ => rfl, fun _ => rfl, fun _ => rfl, fun _ => rfl⟩

/-- Without references a value has the same custom properties, but with the texts of the parts in
the places of uses. -/
theorem exists_plain {type : TokenType} {e : Entry} {ps : List Property}
    (hnames : type = .typography → ∀ members, e.value = .object members →
      (Members.names members).Nodup) (h : properties type e = .ok ps) :
    ∃ qs, properties type e.plain = .ok qs ∧
      List.Forall₂ (Follows e.references e.value (textAt type)) ps qs := by
  simp only [properties_eq_ok_iff] at h ⊢
  cases h with
  | renditions h =>
    refine ⟨ps, .renditions h, List.forall₂_same.mpr fun p hp => ⟨rfl, rfl, ?_⟩⟩
    obtain ⟨r, -, d, s, -, -, rfl⟩ := mem_colorProperties h hp
    exact .cons (.text s) .nil
  | parts hreaders hparts =>
    obtain ⟨parts', hparts', hall⟩ := partPieces_plain (textAt type) hparts hreaders.textAt_eq
    exact ⟨_, .parts hreaders hparts', follows_shorthand hall⟩
  | @font members _ hvalue hfont =>
    have hmembers : ∀ m ∈ members, (Data.object members).at? [.field m.1] = some m.2 := by
      intro m hm
      simp [Data.at?, (Members.get?_eq_some_iff (hnames rfl members hvalue)).mpr hm]
    have hread : ∀ name, textAt .typography [.field name] = typographyText name := fun _ => rfl
    obtain ⟨qs, hqs, hall⟩ := typographyProperties_plain hmembers hfont hread
    exact ⟨qs, .font hvalue hqs, hvalue ▸ hall⟩
  | curve htexts =>
    refine ⟨_, .curve htexts, follows_whole (stands_curve (points_plain htexts fun i d => ?_))⟩
    simp only [textAt]
    cases scalar d <;> rfl
  | items hwriter hvalue hvalues =>
    obtain ⟨values', hvalues', hall⟩ := within_plain (textAt type) hvalues
      fun i d ps hps => hwriter.plain i hps
    exact ⟨_, .items hwriter hvalue hvalues', hvalue ▸ follows_whole (stands_separated hall)⟩
  | text htext => exact ⟨_, .text htext, follows_text _⟩

/-! ## Which parts have custom properties -/

/-- Whether a custom property is meant for common screens. -/
def Property.isCommon (p : Property) : Bool := p.variant = none || p.variant = some "srgb"

/-- The parts of a value that have custom properties when it is no use as a whole. -/
def literalParts (type : TokenType) (d : Data) : List (Option String) :=
  match type, d with
  | .border, _ => none :: borderParts.map fun p => some p.1
  | .transition, _ => none :: transitionParts.map fun p => some p.1
  | .typography, .object members => members.map fun m => some (kebab m.1)
  | _, _ => [none]

/-- The parts of a value that have custom properties; the whole is among them unless it is an object
with the properties of a font. -/
def entryParts (type : TokenType) (e : Entry) : List (Option String) :=
  if (e.reference.bind useOf?).isSome then [none] else literalParts type e.value

theorem parts_shorthand {parts : List (String × Piece)} :
    ((shorthand parts).filter Property.isCommon).map Property.part =
      none :: parts.map fun p => some p.1 := by
  have hcommon : ∀ p ∈ shorthand parts, p.isCommon = true := by
    rw [shorthand, List.forall_mem_cons, List.forall_mem_map]
    exact ⟨rfl, fun _ _ => rfl⟩
  rw [List.filter_eq_self.mpr hcommon, shorthand, List.map_cons, List.map_map]
  rfl

theorem names_partPieces {readers : List (String × (Data → Except Fault String))}
    {parts : List (String × Piece)} (h : partPieces references value readers = .ok parts) :
    parts.map Prod.fst = readers.map Prod.fst := by
  refine (forall₂_map_eq.mp ((partPieces_eq_ok_iff.mp h).imp ?_)).symm
  rintro reader _ ⟨d, s, -, -, rfl⟩
  rfl

theorem parts_typographyProperties {members : Members Data} {ps : List Property}
    (h : typographyProperties references members = .ok ps) :
    (ps.filter Property.isCommon).map Property.part = members.map fun m => some (kebab m.1) := by
  have hall := typographyProperties_eq_ok_iff.mp h
  have hcommon : ∀ p ∈ ps, p.isCommon = true := by
    intro p hp
    obtain ⟨m, -, s, -, rfl⟩ := exists_left hall hp
    rfl
  rw [List.filter_eq_self.mpr hcommon]
  refine (forall₂_map_eq.mp (hall.imp ?_)).symm
  rintro m _ ⟨s, -, rfl⟩
  rfl

/-- Of the renditions of a colour one is meant for common screens. -/
theorem parts_colorProperties {variants : Members Data} {ps : List Property}
    (h : colorProperties variants = .ok ps) :
    (ps.filter Property.isCommon).map Property.part = [none] := by
  have hparts : ps.map (fun p => (p.part, p.variant)) =
      Color.renditions.map fun r => (none, some r.1) := by
    refine map_eq_map_of_mapM (fun r p hp => ?_) h
    dsimp only at hp
    split at hp
    · simp only [bind_eq_ok, pure_eq_ok] at hp
      obtain ⟨s, -, rfl⟩ := hp
      rfl
    · simp at hp
  obtain ⟨a, b, rfl⟩ : ∃ a b, ps = [a, b] := by
    rw [← List.length_eq_two]
    simpa [Color.renditions] using congrArg List.length hparts
  simp only [Color.renditions, List.map_cons, List.map_nil, List.cons.injEq, Prod.mk.injEq,
    and_true] at hparts
  obtain ⟨⟨hpart, hsrgb⟩, -, hp3⟩ := hparts
  have ha : a.isCommon = true := by simp [Property.isCommon, hsrgb]
  have hb : ¬ b.isCommon = true := by simp [Property.isCommon, hp3]
  rw [List.filter_cons_of_pos ha, List.filter_cons_of_neg hb]
  simp [hpart]

/-- A value that is written as one text has one custom property, for the whole of it. -/
theorem literalParts_of_wholeText {type : TokenType} {d : Data} {s : String}
    (h : wholeText type d = .ok s) : literalParts type d = [none] := by
  cases type with
  | border | transition => cases h
  | typography =>
    cases d with
    | object members => cases h
    | _ => rfl
  | _ => rfl

/-- The parts with custom properties for common screens depend on the type and the shape of the
value only. -/
theorem parts_properties {type : TokenType} {e : Entry} {ps : List Property}
    (h : properties type e = .ok ps) :
    (ps.filter Property.isCommon).map Property.part = literalParts type e.value := by
  cases properties_eq_ok_iff.mp h with
  | renditions h => exact parts_colorProperties h
  | parts hreaders hparts =>
    have hnames := congrArg (List.map some) (names_partPieces hparts)
    rw [List.map_map, List.map_map] at hnames
    cases hreaders <;> exact parts_shorthand.trans (congrArg _ hnames)
  | font hvalue hfont =>
    rw [hvalue]
    exact parts_typographyProperties hfont
  | curve => rfl
  | items hwriter => cases hwriter <;> rfl
  | text htext => exact (literalParts_of_wholeText htext).symm

theorem parts_entryProperties {type : TokenType} {e : Entry} {ps : List Property}
    (h : entryProperties type e = .ok ps) :
    (ps.filter Property.isCommon).map Property.part = entryParts type e := by
  rw [entryProperties] at h
  rw [entryParts]
  split at h
  · rename_i piece hpiece
    obtain rfl := Except.ok.inj h
    rw [hpiece]
    rfl
  · rename_i hnone
    rw [hnone]
    exact parts_properties h

/-! ## Custom properties that are put together from others -/

theorem mem_separated {separator : String} {values : List (List Piece)} {piece : Piece}
    (h : piece ∈ separated separator values) :
    piece = .text separator ∨ ∃ v ∈ values, piece ∈ v := by
  rw [separated] at h
  induction values with
  | nil => simp [List.intercalate] at h
  | cons v values ih =>
    cases values with
    | nil => exact .inr ⟨v, by simp, by simpa [List.intercalate] using h⟩
    | cons v' values =>
      rw [List.intercalate_cons_cons, List.mem_append, List.mem_append, List.mem_singleton] at h
      rcases h with (h | h) | h
      · exact .inr ⟨v, List.mem_cons_self, h⟩
      · exact .inl h
      · exact (ih h).imp_right fun ⟨u, hu, hpiece⟩ => ⟨u, List.mem_cons_of_mem _ hu, hpiece⟩

/-- Pieces that are not put together from the parts of a value. -/
def Partless (pieces : List Piece) : Prop := ∀ name, .part name ∉ pieces

theorem partless_text (s : String) : Partless [.text s] := fun name h => by simp at h

theorem partless_orUse (references : Option ReferenceTree) (step : Step) (text : String) :
    Partless [orUse references step text] := by
  intro name h
  rcases orUse_cases references step text with htext | ⟨r, -, -, huse⟩
  · simp [htext] at h
  · simp [huse] at h

theorem partless_cons {piece : Piece} {pieces : List Piece} :
    Partless (piece :: pieces) ↔ Partless [piece] ∧ Partless pieces := by
  simp only [Partless, List.mem_cons, List.not_mem_nil, or_false, not_or, forall_and]

theorem partless_append {as bs : List Piece} : Partless (as ++ bs) ↔ Partless as ∧ Partless bs := by
  simp only [Partless, List.mem_append, not_or, forall_and]

theorem partless_separated {separator : String} {values : List (List Piece)}
    (h : ∀ v ∈ values, Partless v) : Partless (separated separator values) := by
  intro name hname
  rcases mem_separated hname with hname | ⟨v, hv, hname⟩
  · cases hname
  · exact h v hv name hname

theorem partless_stop {d : Data} {ps : List Piece} (h : stop references d = .ok ps) :
    Partless ps := by
  simp only [stop, bind_eq_ok, pure_eq_ok] at h
  obtain ⟨_, -, _, -, _, -, _, -, _, -, rfl⟩ := h
  exact partless_cons.mpr ⟨partless_orUse _ _ _, partless_text _⟩

theorem partless_layer {d : Data} {ps : List Piece} (h : layer references d = .ok ps) :
    Partless ps := by
  obtain ⟨members, _, color, rfl, -, -, rfl⟩ := layer_eq_ok_iff.mp h
  refine partless_separated fun v hv => ?_
  obtain ⟨piece, hpiece, rfl⟩ := List.mem_map.mp hv
  obtain rfl | ⟨name, d, -, rfl⟩ | rfl := mem_layerWords hpiece
  · exact partless_text _
  · exact partless_orUse _ _ _
  · exact partless_orUse _ _ _

theorem ItemWriter.partless {type : TokenType}
    {write : Option ReferenceTree → Data → Except Fault (List Piece)} (h : ItemWriter type write)
    {d : Data} {ps : List Piece} (hps : write references d = .ok ps) : Partless ps := by
  cases h with
  | gradient => exact partless_stop hps
  | shadow => exact partless_layer hps

theorem partless_within {f : Option ReferenceTree → Data → Except Fault (List Piece)}
    {ds : List Data} {ps : List (List Piece)} (h : within references f ds = .ok ps)
    (hf : ∀ references d ps, f references d = .ok ps → Partless ps) : ∀ v ∈ ps, Partless v := by
  intro v hv
  obtain ⟨x, -, hx⟩ := exists_of_mem_mapM h hv
  exact hf _ _ _ hx

theorem partless_partPieces {readers : List (String × (Data → Except Fault String))}
    {parts : List (String × Piece)} (h : partPieces references value readers = .ok parts) :
    ∀ p ∈ parts, Partless [p.2] := by
  intro p hp
  obtain ⟨reader, -, d, s, -, -, rfl⟩ := exists_left (partPieces_eq_ok_iff.mp h) hp
  exact partless_orUse _ _ _

/-- A shorthand is put together from its parts, and each of these has a custom property that is not. -/
theorem part_of_shorthand {parts : List (String × Piece)} (hparts : ∀ p ∈ parts, Partless [p.2])
    {p : Property} (hp : p ∈ shorthand parts) {name : String} (hname : .part name ∈ p.value) :
    p.part = none ∧
      ∃ q ∈ shorthand parts, q.part = some name ∧ q.isCommon = true ∧ Partless q.value := by
  rcases List.mem_cons.mp hp with rfl | hp
  · rcases mem_separated hname with hname | ⟨v, hv, hname⟩
    · cases hname
    · obtain ⟨part, hpart, rfl⟩ := List.mem_map.mp hv
      obtain rfl : name = part.1 := by simpa using hname
      exact ⟨rfl, forPart part.1 part.2, List.mem_cons_of_mem _ (List.mem_map_of_mem hpart), rfl,
        rfl, hparts part hpart⟩
  · obtain ⟨part, hpart, rfl⟩ := List.mem_map.mp hp
    exact absurd hname (hparts part hpart name)

theorem partless_typographyProperties {members : Members Data} {ps : List Property}
    (h : typographyProperties references members = .ok ps) : ∀ p ∈ ps, Partless p.value := by
  intro p hp
  obtain ⟨m, -, s, -, rfl⟩ := exists_left (typographyProperties_eq_ok_iff.mp h) hp
  exact partless_orUse _ _ _

theorem partless_curve {points : List Piece} (h : ∀ p ∈ points, Partless [p]) :
    Partless (curve points) := by
  rw [curve, List.cons_append, partless_cons, partless_append]
  refine ⟨partless_text _, partless_separated fun v hv => ?_, partless_text _⟩
  obtain ⟨p, hp, rfl⟩ := List.mem_map.mp hv
  exact h p hp

/-- Only the custom property for the whole of a value is put together from parts, and each of these
has a custom property of its own. -/
theorem part_of_properties {type : TokenType} {e : Entry} {ps : List Property}
    (h : properties type e = .ok ps) {p : Property} (hp : p ∈ ps) {name : String}
    (hname : .part name ∈ p.value) :
    p.part = none ∧ ∃ q ∈ ps, q.part = some name ∧ q.isCommon = true ∧ Partless q.value := by
  -- only shorthands are put together from parts
  cases properties_eq_ok_iff.mp h with
  | parts hreaders hparts => exact part_of_shorthand (partless_partPieces hparts) hp hname
  | renditions h =>
    obtain ⟨r, -, d, s, -, -, rfl⟩ := mem_colorProperties h hp
    exact absurd hname (partless_text s name)
  | font hvalue hfont => exact absurd hname (partless_typographyProperties hfont p hp name)
  | curve htexts =>
    rw [List.mem_singleton.mp hp] at hname
    refine absurd hname (partless_curve (fun q hq => ?_) name)
    obtain ⟨x, hx, rfl⟩ := List.mem_map.mp hq
    exact partless_orUse _ _ _
  | items hwriter hvalue hvalues =>
    rw [List.mem_singleton.mp hp] at hname
    exact absurd hname
      (partless_separated (partless_within hvalues fun _ _ _ => hwriter.partless) name)
  | text htext =>
    rw [List.mem_singleton.mp hp] at hname
    exact absurd hname (partless_text _ name)

end Css

end DesignTokens
