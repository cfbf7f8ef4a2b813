import DesignTokens.Proofs.Outcome
import DesignTokens.Proofs.Value.Rereading

/-!
# How gradients fail

The stops of a gradient are gone through twice: first for their form and their positions, and then
for their colours.  So a stop without a proper form or position is the failure of the gradient even
if an earlier stop has a colour that cannot be read.

## Main statement

* `gradient_outcome`: which stop a gradient fails with, and what it is when it does not fail.
-/

namespace DesignTokens.Grammar

open Outcome

variable {stop : Tree}

/-! ## Stops -/

/-- A stop of a gradient is an object with a colour and a position, and the position is a number or
a reference.  What its colour is does not count. -/
inductive StopFits (stop : Tree) : Prop where
  | number {color position : Tree} {n : Scalar} : stop.get? "color" = some color →
    stop.get? "position" = some position → position.number? = some n → StopFits stop
  | reference {color position : Tree} {s : String} {r : Reference} :
    stop.get? "color" = some color → stop.get? "position" = some position →
    position.text? = some s → Reference.parse? s = some r → StopFits stop

/-- What is reported about a stop that does not fit. -/
inductive StopIssue (stop : Tree) : Issue → Prop where
  /-- The stop is no object. -/
  | kind : stop.isMapping = false → StopIssue stop (.ofNode (.expected .object stop.kind) stop)
  /-- It has no colour. -/
  | color : stop.isMapping = true → stop.get? "color" = none →
    StopIssue stop (.ofNode (.missingPart "color") stop)
  /-- It has a colour, but no position. -/
  | position {color : Tree} : stop.get? "color" = some color → stop.get? "position" = none →
    StopIssue stop (.ofNode (.missingPart "position") stop)
  /-- The position begins like a reference and is none. -/
  | reference {color position : Tree} {s : String} : stop.get? "color" = some color →
    stop.get? "position" = some position → position.text? = some s →
    Reference.isOpenedBy s = true → Reference.parse? s = none →
    StopIssue stop (.ofNode (.invalidReference s) position)
  /-- The position is something else than a number. -/
  | number {color position : Tree} : stop.get? "color" = some color →
    stop.get? "position" = some position → position.number? = none →
    (∀ s, position.text? = some s → Reference.isOpenedBy s = false) →
    StopIssue stop (.ofNode (.expected .number position.kind) position)

theorem isOpenedBy_of_parse? {s : String} {r : Reference} (h : Reference.parse? s = some r) :
    Reference.isOpenedBy s = true := by
  unfold Reference.parse? Reference.parseChars? at h
  split at h
  · rename_i hs
    rw [Reference.isOpenedBy, hs]
    rfl
  · cases h

/-- A node with members is a mapping. -/
theorem isMapping_of_get? {name : String} {t : Tree} (h : stop.get? name = some t) :
    stop.isMapping = true := by
  cases stop with
  | mapping => rfl
  | _ => cases h

theorem number?_of_text? {position : Tree} {s : String} (h : position.text? = some s) :
    position.number? = none := by
  cases position with
  | scalar v span =>
    cases v with
    | text => rfl
    | _ => cases h
  | _ => cases h

/-! ## Positions -/

/-- The position of a number is read as this number. -/
theorem value_number_of_number? {position : Tree} {n : Scalar} (h : position.number? = some n) :
    value .number position = .ok (.scalar n) := by
  have htext : position.text? = none := by
    cases htext : position.text? with
    | none => rfl
    | some s => rw [number?_of_text? htext] at h; cases h
  have hhole : hole? (some [.number]) false position = .ok none := by rw [hole?, htext]
  show orHole .number number position = _
  rw [orHole, hhole]
  show number position = _
  rw [number, h]

theorem value_number_of_parse? {position : Tree} {s : String} {r : Reference}
    (htext : position.text? = some s) (hparse : Reference.parse? s = some r) :
    value .number position = .ok (.hole ⟨r, position.span, some [.number], false⟩) := by
  have hhole : hole? (some [.number]) false position =
      .ok (some ⟨r, position.span, some [.number], false⟩) := by
    simp only [hole?, htext, isOpenedBy_of_parse? hparse, hparse]
    rfl
  show orHole .number number position = _
  rw [orHole, hhole]
  rfl

/-- Once a stop has its parts, only its position is looked at. -/
theorem stopPosition_of_parts {color position : Tree} (hcolor : stop.get? "color" = some color)
    (hposition : stop.get? "position" = some position) :
    stopPosition stop = (value .number position).map (("position", ·)) := by
  have hobject : requireObject stop = .ok () := by
    rw [requireObject, isMapping_of_get? hcolor]
    rfl
  have hrequire : require stop ["color", "position"] = .ok () := by
    rw [require_eq_ok]
    simp [hcolor, hposition]
  rw [stopPosition, hobject, hrequire]
  show readPart stop "position" (value .number) = _
  rw [readPart, part_eq_ok.mpr hposition]
  cases hvalue : value .number position <;> simp [hvalue, bind, Except.bind, Except.map, pure, Except.pure]

/-- A stop that fits has its position read. -/
theorem stopPosition_of_fits (h : StopFits stop) : ∃ color position v,
    stop.get? "color" = some color ∧ stop.get? "position" = some position ∧
      value .number position = .ok v ∧ stopPosition stop = .ok ("position", v) := by
  cases h with
  | @number color position n hcolor hposition hnumber =>
    have hvalue := value_number_of_number? hnumber
    refine ⟨color, position, _, hcolor, hposition, hvalue, ?_⟩
    rw [stopPosition_of_parts hcolor hposition, hvalue]
    rfl
  | @reference color position s r hcolor hposition htext hparse =>
    have hvalue := value_number_of_parse? htext hparse
    refine ⟨color, position, _, hcolor, hposition, hvalue, ?_⟩
    rw [stopPosition_of_parts hcolor hposition, hvalue]
    rfl

/-- What is reported about a stop is the failure of its position. -/
theorem stopPosition_of_issue {i : Issue} (h : StopIssue stop i) :
    stopPosition stop = .error (.issue i) := by
  have hhas (name : String) : stop.has name = (stop.get? name).isSome := by
    rw [Tree.has, Tree.get?, Option.isSome_map]
  cases h with
  | kind hkind =>
    rw [stopPosition, requireObject, hkind]
    rfl
  | color hobject hcolor =>
    rw [stopPosition, requireObject, hobject, require, hhas, hcolor]
    rfl
  | position hcolor hposition =>
    rw [stopPosition, requireObject, isMapping_of_get? hcolor, require, require, hhas, hhas, hcolor,
      hposition]
    rfl
  | @reference color position s hcolor hposition htext hopened hparse =>
    have hhole : hole? (some [.number]) false position = fail (.invalidReference s) position := by
      simp only [hole?, htext, hopened, hparse]
      rfl
    rw [stopPosition_of_parts hcolor hposition, value, orHole, hhole]
    rfl
  | @number color position hcolor hposition hnumber hclosed =>
    rw [stopPosition_of_parts hcolor hposition, value, orHole, hole?_of_closed hclosed]
    show (number position).map _ = _
    rw [number, hnumber]
    rfl

/-- Nothing is reported about a stop that fits. -/
theorem StopIssue.not_fits {i : Issue} (h : StopIssue stop i) : ¬ StopFits stop := by
  intro hfits
  obtain ⟨_, _, _, _, _, _, hok⟩ := stopPosition_of_fits hfits
  rw [stopPosition_of_issue h] at hok
  cases hok

/-- A stop that does not fit has something to be reported. -/
theorem exists_stopIssue (h : ¬ StopFits stop) : ∃ i, StopIssue stop i := by
  cases hobject : stop.isMapping with
  | false => exact ⟨_, .kind hobject⟩
  | true =>
    cases hcolor : stop.get? "color" with
    | none => exact ⟨_, .color hobject hcolor⟩
    | some color =>
      cases hposition : stop.get? "position" with
      | none => exact ⟨_, .position hcolor hposition⟩
      | some position =>
        cases hnumber : position.number? with
        | some n => exact absurd (.number hcolor hposition hnumber) h
        | none =>
          by_cases hclosed : ∀ s, position.text? = some s → Reference.isOpenedBy s = false
          · exact ⟨_, .number hcolor hposition hnumber hclosed⟩
          · push Not at hclosed
            obtain ⟨s, htext, hopened⟩ := hclosed
            cases hparse : Reference.parse? s with
            | some r => exact absurd (.reference hcolor hposition htext hparse) h
            | none => exact ⟨_, .reference hcolor hposition htext (by simpa using hopened) hparse⟩

/-! ## Gradients -/

/-- The colour of a stop can be read. -/
def ColorReads (stop : Tree) : Prop :=
  ∃ color v, stop.get? "color" = some color ∧ value .color color = .ok v

/-- The stop of a gradient as it is read: its own colour and its own position. -/
def ReadsStop (stop : Tree) (v : Template) : Prop :=
  ∃ color position c p, stop.get? "color" = some color ∧ stop.get? "position" = some position ∧
    value .color color = .ok c ∧ value .number position = .ok p ∧
    v = .object [("color", c), ("position", p)]

theorem value_gradient (items : List Tree) (span : Span) :
    value .gradient (.sequence items span) = (do
      let positions ← items.mapM stopPosition
      let colors ← items.mapM fun stop => readPart stop "color" (value .color)
      return .list (List.zipWith (fun color position => .object [color, position]) colors
        positions)) := by
  have hvalue : value .gradient (.sequence items span) = gradient (.sequence items span) := rfl
  rw [hvalue, gradient_eq]
  rfl

theorem readPart_eq_error_iff {name : String} {read : Reader} {part : Tree}
    (h : stop.get? name = some part) {e : Failure} :
    readPart stop name read = .error e ↔ read part = .error e := by
  rw [readPart, part_eq_ok.mpr h]
  cases hread : read part <;> simp [hread, bind, Except.bind, pure, Except.pure]

/-- Every list either has the property throughout or has a first item without it. -/
theorem exists_first {α : Type} {p : α → Prop} {xs : List α} (h : ∃ x ∈ xs, ¬ p x) :
    ∃ before x after, xs = before ++ x :: after ∧ (∀ y ∈ before, p y) ∧ ¬ p x := by
  induction xs with
  | nil => simp at h
  | cons x xs ih =>
    by_cases hx : p x
    · obtain ⟨before, y, after, rfl, hbefore, hy⟩ := ih (by simpa [hx] using h)
      exact ⟨x :: before, y, after, rfl, List.forall_mem_cons.mpr ⟨hx, hbefore⟩, hy⟩
    · exact ⟨[], x, xs, rfl, by simp, hx⟩

/-- Colours and positions of stops make stops, one by one. -/
theorem readsStop_zipWith {items : List Tree} {positions colors : List (String × Template)}
    (hpositions : List.Forall₂ (fun stop m => stopPosition stop = .ok m) items positions)
    (hcolors : List.Forall₂ (fun stop m => readPart stop "color" (value .color) = .ok m) items
      colors)
    (hfits : ∀ stop ∈ items, StopFits stop) :
    List.Forall₂ ReadsStop items
      (List.zipWith (fun color position => Template.object [color, position]) colors positions) := by
  induction hpositions generalizing colors with
  | nil => cases hcolors; exact .nil
  | @cons stop m items positions hposition _ ih =>
    cases hcolors with
    | cons hcolor hcolors =>
      obtain ⟨hstop, hfits⟩ := List.forall_mem_cons.mp hfits
      obtain ⟨_, position, p, -, hget, hp, hm⟩ := stopPosition_of_fits hstop
      obtain rfl := Except.ok.inj (hposition.symm.trans hm)
      obtain ⟨color, hpart, c, hc, rfl⟩ := readPart_eq_ok.mp hcolor
      exact .cons ⟨color, position, c, p, hpart, hget, hc, hp, rfl⟩ (ih hcolors hfits)

section

variable {items : List Tree} {span : Span}

/-- A gradient fails with the first stop that does not fit. -/
theorem gradient_of_issue {before after : List Tree} {i : Issue}
    (hsplit : items = before ++ stop :: after) (hbefore : ∀ s ∈ before, StopFits s)
    (h : StopIssue stop i) : value .gradient (.sequence items span) = .error (.issue i) := by
  have hpositions : items.mapM stopPosition = .error (.issue i) := by
    refine mapM_eq_error_iff.mpr ⟨before, stop, after, hsplit, fun s hs => ?_,
      stopPosition_of_issue h⟩
    obtain ⟨_, _, _, _, _, _, hs⟩ := stopPosition_of_fits (hbefore s hs)
    exact ⟨_, hs⟩
  rw [value_gradient, hpositions]
  rfl

variable (hfits : ∀ stop ∈ items, StopFits stop)

include hfits

/-- The colours of stops that fit decide what becomes of them. -/
theorem exists_positions : ∃ positions, items.mapM stopPosition = .ok positions ∧
    List.Forall₂ (fun stop m => stopPosition stop = .ok m) items positions := by
  obtain ⟨positions, hall⟩ := exists_forall₂ (R := fun stop m => stopPosition stop = .ok m)
    fun stop hstop => by
      obtain ⟨_, _, _, _, _, _, hm⟩ := stopPosition_of_fits (hfits stop hstop)
      exact ⟨_, hm⟩
  exact ⟨positions, mapM_eq_ok_iff.mpr hall, hall⟩

theorem gradient_eq_error_iff {e : Failure} :
    value .gradient (.sequence items span) = .error e ↔ ∃ before stop after color,
      items = before ++ stop :: after ∧ (∀ s ∈ before, ColorReads s) ∧
        stop.get? "color" = some color ∧ value .color color = .error e := by
  obtain ⟨positions, hpositions, -⟩ := exists_positions hfits
  -- all positions can be read, so what fails is the colours
  have hcolors : value .gradient (.sequence items span) = .error e ↔
      items.mapM (fun stop => readPart stop "color" (value .color)) = .error e := by
    rw [value_gradient, hpositions]
    cases items.mapM (fun stop => readPart stop "color" (value .color)) <;>
      simp [bind, Except.bind, pure, Except.pure]
  have hreads (s : Tree) : (∃ m, readPart s "color" (value .color) = .ok m) ↔ ColorReads s := by
    constructor
    · rintro ⟨m, hm⟩
      obtain ⟨color, hget, v, hv, -⟩ := readPart_eq_ok.mp hm
      exact ⟨color, v, hget, hv⟩
    · rintro ⟨color, v, hget, hv⟩
      exact ⟨_, readPart_eq_ok.mpr ⟨color, hget, v, hv, rfl⟩⟩
  rw [hcolors, mapM_eq_error_iff]
  simp only [hreads]
  constructor
  · rintro ⟨before, stop, after, hsplit, hbefore, herror⟩
    obtain ⟨color, _, _, hget, -⟩ :=
      stopPosition_of_fits (hfits stop (by simp [hsplit]))
    exact ⟨before, stop, after, color, hsplit, hbefore, hget,
      (readPart_eq_error_iff hget).mp herror⟩
  · rintro ⟨before, stop, after, color, hsplit, hbefore, hget, herror⟩
    exact ⟨before, stop, after, hsplit, hbefore, (readPart_eq_error_iff hget).mpr herror⟩

theorem gradient_of_colors (hcolors : ∀ stop ∈ items, ColorReads stop) : ∃ stops,
    value .gradient (.sequence items span) = .ok (.list stops) ∧
      List.Forall₂ ReadsStop items stops := by
  obtain ⟨positions, hpositions, hall⟩ := exists_positions hfits
  obtain ⟨colors, hcolors⟩ :=
    exists_forall₂ (R := fun stop m => readPart stop "color" (value .color) = .ok m)
      fun stop hstop => by
        obtain ⟨color, v, hget, hv⟩ := hcolors stop hstop
        exact ⟨_, readPart_eq_ok.mpr ⟨color, hget, v, hv, rfl⟩⟩
  refine ⟨_, ?_, readsStop_zipWith hall hcolors hfits⟩
  rw [value_gradient, hpositions, mapM_eq_ok_iff.mpr hcolors]
  rfl

end

/-- Whatever the colours of its stops are, a gradient with a stop that does not fit fails with what
is to be reported about the first such stop.  Otherwise it fails exactly when the colour of a stop
cannot be read, with the failure of the first such colour.  Otherwise it has one object for each
stop, in order, with the colour and the position of this stop. -/
theorem gradient_outcome (items : List Tree) (span : Span) :
    ((∃ stop ∈ items, ¬ StopFits stop) → ∃ before stop after i,
      items = before ++ stop :: after ∧ (∀ s ∈ before, StopFits s) ∧ ¬ StopFits stop ∧
        StopIssue stop i ∧ value .gradient (.sequence items span) = .error (.issue i)) ∧
    ((∀ stop ∈ items, StopFits stop) →
      (∀ e, value .gradient (.sequence items span) = .error e ↔ ∃ before stop after color,
        items = before ++ stop :: after ∧ (∀ s ∈ before, ColorReads s) ∧
          stop.get? "color" = some color ∧ value .color color = .error e) ∧
      ((∀ stop ∈ items, ColorReads stop) → ∃ stops,
        value .gradient (.sequence items span) = .ok (.list stops) ∧
          List.Forall₂ ReadsStop items stops)) := by
  refine ⟨fun hsome => ?_, fun hfits => ⟨fun e => gradient_eq_error_iff hfits,
    gradient_of_colors hfits⟩⟩
  obtain ⟨before, stop, after, hsplit, hbefore, hstop⟩ := exists_first hsome
  obtain ⟨i, hi⟩ := exists_stopIssue hstop
  exact ⟨before, stop, after, i, hsplit, hbefore, hstop, hi, gradient_of_issue hsplit hbefore hi⟩

/-- A stop with a colour and a position. -/
def stopOf (color position : Data) : Tree :=
  (Data.object [("color", color), ("position", position)]).tree

/-- For instance, a position that is a word counts before a number for a colour in front of it;
without that stop the colour counts, and without this one too the gradient is read. -/
theorem gradient_outcome_stops :
    let inked := stopOf (.text "\x7bink\x7d") (.int 0)
    let colorless := stopOf (.int 7) (.text "\x7bmiddle\x7d")
    let placeless := stopOf (.text "\x7bink\x7d") (.text "end")
    ((∃ stop ∈ [inked, colorless, placeless], ¬ StopFits stop) ∧ ∃ before stop after i,
      [inked, colorless, placeless] = before ++ stop :: after ∧ (∀ s ∈ before, StopFits s) ∧
        ¬ StopFits stop ∧ StopIssue stop i ∧
        value .gradient (.sequence [inked, colorless, placeless] .origin) = .error (.issue i)) ∧
    ((∀ stop ∈ [inked, colorless], StopFits stop) ∧
      value .gradient (.sequence [inked, colorless] .origin) =
        .error (.issue (.ofNode (.expected .string .number) (Data.int 7).tree))) ∧
    (∀ stop ∈ [inked], StopFits stop) ∧ (∀ stop ∈ [inked], ColorReads stop) ∧ ∃ stops,
      value .gradient (.sequence [inked] .origin) = .ok (.list stops) ∧
        List.Forall₂ ReadsStop [inked] stops := by
  intro inked colorless placeless
  have hinked : StopFits inked := .number rfl rfl rfl
  have hparse : Reference.parse? "\x7bmiddle\x7d" = some ⟨"middle", none⟩ := by decide +kernel
  have hcolorless : StopFits colorless := .reference rfl rfl rfl hparse
  have hplaceless : ¬ StopFits placeless := by
    refine StopIssue.not_fits (.number rfl rfl rfl fun s hs => ?_)
    obtain rfl : "end" = s := Option.some.inj hs
    decide +kernel
  have hreads : ColorReads inked := ⟨_, _, rfl, by rfl⟩
  have hsome : ∃ stop ∈ [inked, colorless, placeless], ¬ StopFits stop :=
    ⟨placeless, by simp, hplaceless⟩
  have htwo : ∀ stop ∈ [inked, colorless], StopFits stop := by simp [hinked, hcolorless]
  have hone : ∀ stop ∈ [inked], StopFits stop := by simp [hinked]
  have hcolors : ∀ stop ∈ [inked], ColorReads stop := by simp [hreads]
  refine ⟨⟨hsome, (gradient_outcome _ .origin).1 hsome⟩, ⟨htwo, ?_⟩, hone, hcolors,
    ((gradient_outcome _ .origin).2 hone).2 hcolors⟩
  exact (((gradient_outcome _ .origin).2 htwo).1 _).mpr
    ⟨[inked], colorless, [], _, rfl, by simp [hreads], rfl, rfl⟩

end DesignTokens.Grammar
