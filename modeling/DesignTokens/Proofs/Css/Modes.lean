import DesignTokens.Proofs.Css.Reading
import DesignTokens.Proofs.Tree.OfData

/-!
# Values of modes

A style sheet declares the values of a mode under a selector.  What is read there is the value of the
mode (`mode_values`), unless a token that is used on the way has a value of its own in the mode: a
reference without a mode means the default value of its target, but under the selector it is read as
the value in the mode (`mode_value_differs`).
-/

namespace DesignTokens.Css

open Outcome Output Resolution Relation

/-! ## The block of a mode -/

/-- The lines for the custom properties of a mode. -/
def Options.lines (o : Options) (ds : List Declaration) (mode : String) : List Item :=
  (ds.filter (o.shows mode)).map (Declaration.item o.naming)

/-- A style sheet with one selector for a mode declares there the custom properties of the mode. -/
theorem build_selector {o : Options} {mode selector : String}
    (hselectors : o.modeSelectors = [⟨mode, [selector], none⟩]) (hnamed : ∀ path, o.naming path ≠ "")
    {t : Table} {ds : List Declaration} (hds : tableDeclarations t = .ok ds)
    (hnames : o.Unambiguous ds mode) :
    ∃ wide, build [plugin o] t = .ok [⟨o.filename, sheetText (
      .block rootSelector (o.lines ds defaultMode) :: wide ++
        if (o.lines ds mode).isEmpty then [] else [selectorBlock selector (o.lines ds mode)])⟩] := by
  refine ⟨o.wideBlock (sheetStore [o] ds), ?_⟩
  have hroot : o.rootBlock (sheetStore [o] ds) = .block rootSelector (o.lines ds defaultMode) := by
    rw [Options.rootBlock_eq, block_eq hnamed hnames.root]
    rfl
  have hmode : o.modeBlocks (sheetStore [o] ds) ⟨mode, [selector], none⟩ =
      if (o.lines ds mode).isEmpty then [] else [selectorBlock selector (o.lines ds mode)] := by
    have hlines : o.block (sheetStore [o] ds) mode = o.lines ds mode := block_eq hnamed hnames.own
    rw [← hlines]
    rfl
  rw [build_single o hds, Options.file, Options.blocks, hselectors, hroot, List.flatMap_cons,
    List.flatMap_nil, List.append_nil, hmode]

/-- The declarations of a token that has one entry without references only. -/
theorem tokenDeclarations_plain {tok : Token} {e : Entry} {qs : List Property}
    (h : properties tok.type e.plain = .ok qs) (mode : String) :
    tokenDeclarations { tok with modes := [(mode, e.plain)] } =
      .ok (qs.map (⟨tok.id, mode, ·⟩)) := by
  have hentry : entryProperties tok.type e.plain = .ok qs := h
  simp only [tokenDeclarations, List.mapM_cons, List.mapM_nil, hentry]
  exact congrArg Except.ok (List.append_nil _)

theorem Options.declares_of_exclude {o : Options} (h : o.exclude = []) (id : String) :
    o.declares id = true := by
  rw [declares, h]
  rfl

/-- In the style sheet of a document with distinct keys, with one selector for a mode and without
exclusions, the lines under the selector are the custom properties of the mode.  With the values
under the selector, or else in the root block, in the place of all uses, they have the texts of the
values in this mode without references, provided that the names are unambiguous, that no token used
on the way has a value of its own in the mode, and that it has the text for itself that is written
in the place of the reference to it. -/
theorem mode_values {d : Document} (hd : d.root.WellKeyed) {t : Table} (ht : d.table = .ok t)
    {ds : List Declaration} (hds : tableDeclarations t = .ok ds) {o : Options}
    {mode selector : String} (hselectors : o.modeSelectors = [⟨mode, [selector], none⟩])
    (hexclude : o.exclude = []) (hnamed : ∀ path, o.naming path ≠ "")
    (hnames : o.Unambiguous ds mode) :
    (∃ wide, build [plugin o] t = .ok [⟨o.filename, sheetText (
      .block rootSelector (o.lines ds defaultMode) :: wide ++
        if (o.lines ds mode).isEmpty then [] else [selectorBlock selector (o.lines ds mode)])⟩]) ∧
    ∀ p ∈ t.tokens, ∀ e, (mode, e) ∈ p.2.modes →
      (∀ b, TransGen (UsesSlot ds) ⟨p.1, mode⟩ b → mode = defaultMode ∨
        ∀ q ∈ t.tokens, q.1 = b.token → mode ∉ q.2.modes.names) →
      (∀ q ∈ t.tokens, ∀ m ∈ q.2.modes, ReflTransGen (UsesSlot ds) ⟨p.1, mode⟩ ⟨q.1, m.1⟩ →
        WrittenAlike t q.2.type m.2) →
      ∃ plain, tokenDeclarations { p.2 with modes := [(mode, e.plain)] } = .ok plain ∧
        ∀ shown ∈ ds, shown.token = p.1 → o.shows mode shown = true →
          ∃ own ∈ plain, o.shows mode own = true ∧ own.name o.naming = shown.name o.naming ∧
            ∃ s, Expands (o.cascade ds mode) (shown.words o.naming) s ∧
              Expands (o.cascade plain mode) (own.words o.naming) s := by
  have hl := exists_linked hd ht
  refine ⟨build_selector hselectors hnamed hds hnames, fun p hp e he hothers halike => ?_⟩
  have hdeclares := Options.declares_of_exclude hexclude
  have hseen : ∀ b, ReflTransGen (UsesSlot ds) ⟨p.1, mode⟩ b →
      Sees (o.cascade ds mode) o.naming ds b := by
    intro b hb shown hshown htoken hmode hcommon
    have hshows : o.shows b.mode shown = true :=
      Options.shows_iff.mpr ⟨hmode, hcommon, hdeclares _⟩
    rcases reflTransGen_iff_eq_or_transGen.mp hb with rfl | hb
    · exact cascade_own hnames hshown hshows
    · have hdefault : b.mode = defaultMode := by
        obtain ⟨_, -, huses⟩ := TransGen.tail'_iff.mp hb
        exact huses.1
      rcases hothers b hb with rfl | hnone
      · exact cascade_own hnames hshown (hdefault ▸ hshows)
      · refine cascade_root hnames hshown (hdefault ▸ hshows) fun other hother hshows' heq => ?_
        obtain ⟨q, hq, hid, f, hf, -⟩ := (mem_tableDeclarations hds).mp hother
        refine hnone q hq ?_ (List.mem_map.mpr ⟨_, hf, (Options.shows_iff.mp hshows').1⟩)
        rw [← htoken, ← heq, hid, hl.id_eq q hq]
  obtain ⟨qs, hqs, hall⟩ :=
    readsPlain hl hds ⟨p.1, mode⟩ hseen halike p hp (mode, e) he rfl
  refine ⟨_, tokenDeclarations_plain hqs mode, fun shown hshown htoken hshows => ?_⟩
  obtain ⟨hmode, hcommon, -⟩ := Options.shows_iff.mp hshows
  obtain ⟨q, hq, hqcommon, hpart, s, hexpands, hreads⟩ := hall shown hshown htoken hmode hcommon
  refine ⟨_, List.mem_map_of_mem hq, ?_, ?_, s, hexpands, hreads.expands (hdeclares _)⟩
  · exact Options.shows_iff.mpr ⟨rfl, hqcommon, hdeclares _⟩
  · rw [Declaration.name, Declaration.name, hpart, htoken, hl.id_eq p hp]

/-- The style sheet with a selector for the dark mode. -/
def darkSheet : Options := { Options.standard with modeSelectors := [⟨"dark", [".dark"], none⟩] }

/-- A document with a time, a movement that refers to it, and one that is this movement in the dark
mode. -/
def slowInTheDark : Document where
  root :=
    let movement (time : String) : Data := .object [("duration", .text time),
      ("timingFunction", .list [.int 0, .int 0, .int 1, .int 1])]
    (Data.object [
      ("time", .object [("$type", .text "duration"), ("$value", .text "2s")]),
      ("fade", .object [("$type", .text "transition"), ("$value", movement "\x7btime\x7d")]),
      ("appear", .object [("$type", .text "transition"), ("$value", movement "1s"),
        ("$extensions", .object [("mode", .object [("dark", .text "\x7bfade\x7d")])])])]).tree
  source := ""
  format := .data
  filename := Document.dataName

/-- For instance, in the dark the movement is read as what it is in the table. -/
theorem mode_values_movement : ∃ t ds, slowInTheDark.root.WellKeyed ∧
    slowInTheDark.table = .ok t ∧ tableDeclarations t = .ok ds ∧
    darkSheet.Unambiguous ds "dark" ∧ ∃ p ∈ t.tokens, ∃ e, ("dark", e) ∈ p.2.modes ∧
      UsesSlot ds ⟨p.1, "dark"⟩ ⟨"fade", defaultMode⟩ ∧
      ∃ plain, tokenDeclarations { p.2 with modes := [("dark", e.plain)] } = .ok plain ∧
        ∀ shown ∈ ds, shown.token = p.1 → darkSheet.shows "dark" shown = true →
          ∃ own ∈ plain, darkSheet.shows "dark" own = true ∧
            own.name variableName = shown.name variableName ∧
            ∃ s, Expands (darkSheet.cascade ds "dark") (shown.words variableName) s ∧
              Expands (darkSheet.cascade plain "dark") (own.words variableName) s := by
  have hkeyed : slowInTheDark.root.WellKeyed := by decide +kernel
  obtain ⟨t, ds, ht, hds, hnames, htypes, hothers, p, hp, hdark, d, hd, htoken, hmode, huse⟩ :=
    exists_declared slowInTheDark (fun t ds => darkSheet.Unambiguous ds "dark" ∧
      (∀ p ∈ t.tokens, p.2.type ≠ .typography ∧ p.2.type ≠ .color) ∧
      (∀ d ∈ ds, ∀ p ∈ t.tokens, .token p.1 ∈ d.property.value → "dark" ∉ p.2.modes.names) ∧
      ∃ p ∈ t.tokens, "dark" ∈ p.2.modes.names ∧ ∃ d ∈ ds, d.token = p.1 ∧ d.mode = "dark" ∧
        .token "fade" ∈ d.property.value) (by decide +kernel)
  obtain ⟨⟨_, e⟩, he, rfl⟩ := List.mem_map.mp hdark
  refine ⟨t, ds, hkeyed, ht, hds, hnames, p, hp, e, he, ⟨rfl, d, hd, htoken, hmode, huse⟩, ?_⟩
  refine (mode_values hkeyed ht hds rfl rfl variableName_ne_empty hnames).2 p hp e he
    (fun b hb => .inr fun q hq hname => ?_) fun q hq m hm _ => ⟨?_, ?_⟩
  · obtain ⟨_, -, -, d, hd, -, -, huse⟩ := TransGen.tail'_iff.mp hb
    exact hothers d hd q hq (hname ▸ huse)
  · exact fun r _ _ target htarget _ _ _ htype => absurd htype (htypes _ htarget).1
  · exact fun tree steps r _ _ _ target other hleads =>
      ⟨fun hcolor => absurd hcolor (htypes _ hleads.token).2,
        fun _ htype => absurd htype (htypes _ hq).1⟩

/-- A document with a number of two values, and another number that is the first one in the dark. -/
def twoInTheDark : Document where
  root :=
    let number (value : Int) (dark : Data) : Data := .object [("$type", .text "number"),
      ("$value", .int value), ("$extensions", .object [("mode", .object [("dark", dark)])])]
    (Data.object [("a", number 1 (.int 2)), ("b", number 5 (.text "\x7ba\x7d"))]).tree
  source := ""
  format := .data
  filename := Document.dataName

/-- In the dark the second number is the first one's usual value, but it is read as the first one's
value in the dark. -/
theorem mode_value_differs : ∃ t ds, twoInTheDark.root.WellKeyed ∧ twoInTheDark.table = .ok t ∧
    tableDeclarations t = .ok ds ∧ darkSheet.Unambiguous ds "dark" ∧
    ∃ p ∈ t.tokens, ∃ e, ("dark", e) ∈ p.2.modes ∧ WrittenAlike t p.2.type e ∧
      ∃ plain, tokenDeclarations { p.2 with modes := [("dark", e.plain)] } = .ok plain ∧
        ∃ shown ∈ ds, shown.token = p.1 ∧ darkSheet.shows "dark" shown = true ∧
          Expands (darkSheet.cascade ds "dark") (shown.words variableName) "2" ∧
          ∀ own ∈ plain, own.name variableName = shown.name variableName →
            Expands (darkSheet.cascade plain "dark") (own.words variableName) "1" := by
  have hkeyed : twoInTheDark.root.WellKeyed := by decide +kernel
  obtain ⟨t, ds, ht, hds, hnames, htypes, ⟨shown, hshown, htoken, hshows, hwords⟩, hscope, p, hp,
      hid, ⟨_, e⟩, he, rfl, htexts⟩ :=
    exists_declared twoInTheDark (fun t ds => darkSheet.Unambiguous ds "dark" ∧
      (∀ p ∈ t.tokens, p.2.type = .number) ∧
      (∃ d ∈ ds, d.token = "b" ∧ darkSheet.shows "dark" d = true ∧
        d.words variableName = [.use "--a"]) ∧
      darkSheet.cascade ds "dark" "--a" = some [.text "2"] ∧
      ∃ p ∈ t.tokens, p.1 = "b" ∧ ∃ m ∈ p.2.modes, m.1 = "dark" ∧
        ((tokenDeclarations { p.2 with modes := [("dark", m.2.plain)] }).toOption.any fun plain =>
          ∀ d ∈ plain, d.words variableName = [.text "1"]) = true) (by decide +kernel)
  obtain ⟨plain, hplain, htexts⟩ := (Option.any_eq_true _ _).mp htexts
  refine ⟨t, ds, hkeyed, ht, hds, hnames, p, hp, e, he, ⟨?_, ?_⟩, plain,
    toOption_eq_some.mp hplain, shown, hshown, htoken.trans hid.symm, hshows, ?_, ?_⟩
  · intro r _ _ target htarget _ _ _ htype
    rw [htypes _ htarget] at htype
    cases htype
  · intro tree steps r _ _ _ target other hleads
    rw [htypes _ hleads.token, htypes _ hp]
    exact ⟨fun hcolor => by simp at hcolor, fun _ htype => by simp at htype⟩
  · rw [hwords]
    exact .ofUse hscope (.ofText "2")
  · intro own hin _
    rw [of_decide_eq_true htexts own hin]
    exact .ofText "1"

end DesignTokens.Css
