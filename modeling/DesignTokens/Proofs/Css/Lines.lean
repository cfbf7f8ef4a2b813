import DesignTokens.Proofs.Css.Uses
import DesignTokens.Proofs.OneLine

/-!
# Lines of style sheets

A style sheet puts every declaration on a line of its own, and nothing in names and values is
escaped.  Between the line that opens the block of the default mode and the next line that closes a
block there is one line for each declaration exactly when no name and no value has a line feed in
it; this is so when no path of a token and no text of a value has one.

## Main statement

* `rootLines_eq_iff`: when the declarations of a style sheet are read back line by line.
-/

namespace DesignTokens

/-- No text in data and no name of a member has a line feed in it. -/
inductive Data.Unbroken : Data → Prop where
  | null : Unbroken .null
  | scalar (s : Scalar) : (∀ t, s = .text t → OneLine t) → Unbroken (.scalar s)
  | list (items : List Data) : (∀ d ∈ items, Unbroken d) → Unbroken (.list items)
  | object (members : Members Data) : (∀ m ∈ members, OneLine m.1) →
      (∀ m ∈ members, Unbroken m.2) → Unbroken (.object members)

namespace Data.Unbroken

theorem text {s : String} (h : (Data.text s).Unbroken) : OneLine s := by
  cases h with
  | scalar _ ht => exact ht s rfl

theorem item {ds : List Data} (h : (Data.list ds).Unbroken) {d : Data} (hd : d ∈ ds) :
    d.Unbroken := by
  cases h with
  | list _ hitems => exact hitems d hd

theorem member {members : Members Data} (h : (Data.object members).Unbroken) {m : String × Data}
    (hm : m ∈ members) : OneLine m.1 ∧ m.2.Unbroken := by
  cases h with
  | object _ hnames hmembers => exact ⟨hnames m hm, hmembers m hm⟩

theorem plain {d : Data} (h : d.Unbroken) : OneLine d.plain := by
  refine oneLine_plain ?_
  rintro s rfl
  exact h.text

end Data.Unbroken

namespace Color

/-! ## Colours -/

theorem oneLine_decimalText (n : Int) (decimals : Nat) : OneLine (decimalText n decimals) := by
  have hnat : ∀ n : Nat, '\n' ∉ (toString n).toList := fun n => oneLine_int n
  -- zeros are put in front of the decimals and taken away behind them
  have hfront : ∀ k n : Nat, '\n' ∉ List.replicate k '0' ++ (toString n).toList := by
    intro k n h
    rcases List.mem_append.mp h with hzero | hdigit
    · exact absurd (List.eq_of_mem_replicate hzero) (by decide)
    · exact hnat n hdigit
  have hback : ∀ s : List Char, '\n' ∉ s → '\n' ∉ (s.reverse.dropWhile (· = '0')).reverse := by
    intro s hs h
    exact hs (List.mem_reverse.mp ((List.dropWhile_sublist _).mem (List.mem_reverse.mp h)))
  have hsign : OneLine (if n < 0 then "-" else "") := by split <;> decide
  rw [decimalText]
  split
  · exact oneLine_append.mpr ⟨hsign, hnat _⟩
  · simp only [oneLine_append, oneLine_ofList]
    exact ⟨⟨⟨hsign, hnat _⟩, by decide⟩, hback _ (hfront _ _)⟩

theorem oneLine_numberText (v : Float) : OneLine (numberText v) := oneLine_decimalText _ _

theorem oneLine_alphaText (alpha : Float) : OneLine (alphaText alpha) := by
  rw [alphaText]
  split_ifs
  · rw [oneLine_append]
    exact ⟨by decide, oneLine_numberText alpha⟩
  · decide
  · decide

/-- A colour is written on one line. -/
theorem oneLine_cssText {g : Gamut} {d : Data} {s : String} (h : cssText g d = .ok s) :
    OneLine s := by
  simp only [cssText, screenText, Outcome.bind_eq_ok, Outcome.pure_eq_ok] at h
  obtain ⟨c, -, p, -, q, -, rfl⟩ := h
  have hwords : ∀ t : Triple, OneLine (" ".intercalate (t.toList.map numberText)) := by
    refine fun t => oneLine_intercalate (by decide) fun s hs => ?_
    obtain ⟨v, -, rfl⟩ := List.mem_map.mp hs
    exact oneLine_numberText v
  have halpha := oneLine_alphaText p.alpha
  cases g <;> simp only [oneLine_append, hwords, halpha, and_true] <;> decide

end Color

namespace Css

open Outcome Output Output.Fragments Resolution

/-! ## Values -/

theorem unbroken_of_member {name : String} {d part : Data} (hd : d.Unbroken)
    (h : member name d = .ok part) : part.Unbroken := by
  cases d with
  | object members =>
    rw [member] at h
    split at h
    · rename_i hget
      obtain rfl := Except.ok.inj h
      exact (hd.member (Members.mem_of_get? hget)).2
    · simp at h
  | _ => simp [member] at h

theorem unbroken_of_items {d : Data} {ds : List Data} (hd : d.Unbroken) (h : items d = .ok ds) :
    ∀ x ∈ ds, x.Unbroken := by
  rw [items_eq_ok] at h
  subst h
  exact fun x => hd.item

theorem unbroken_of_scalar {d : Data} {s : Scalar} (hd : d.Unbroken) (h : scalar d = .ok s) :
    (Data.scalar s).Unbroken := by
  cases d with
  | scalar s' =>
    obtain rfl := Except.ok.inj h
    exact hd
  | _ => simp [scalar] at h

theorem oneLine_strokeText {d : Data} (hd : d.Unbroken) : OneLine (strokeText d) := by
  unfold strokeText
  split
  · exact hd.text
  · decide

theorem oneLine_numberText {s : Scalar} (hs : (Data.scalar s).Unbroken) :
    OneLine (numberText s) := by
  cases s with
  | float x => exact x.oneLine_briefText
  | _ => exact hs.plain

theorem oneLine_percentText {s : Scalar} {t : String} (h : percentText s = .ok t) :
    OneLine t := by
  have hpercent : ∀ x : Binary64, OneLine (x.briefText ++ "%") := fun x =>
    oneLine_append.mpr ⟨x.oneLine_briefText, by decide⟩
  unfold percentText at h
  split at h
  · obtain rfl := Except.ok.inj h
    exact hpercent _
  · split at h
    · obtain rfl := Except.ok.inj h
      exact hpercent _
    · simp at h

theorem oneLine_familiesText {names : List String} (h : ∀ name ∈ names, OneLine name) :
    OneLine (familiesText names) := by
  refine oneLine_intercalate (by decide) fun s hs => ?_
  obtain ⟨name, hname, rfl⟩ := List.mem_map.mp hs
  rw [familyText_eq]
  split
  · rw [oneLine_append, oneLine_append]
    exact ⟨⟨by decide, h name hname⟩, by decide⟩
  · exact h name hname

theorem oneLine_names {d : Data} (hd : d.Unbroken) {ns : List String} (h : names d = .ok ns) :
    ∀ name ∈ ns, OneLine name := by
  simp only [names, bind_eq_ok] at h
  obtain ⟨ds, hds, h⟩ := h
  intro name hname
  obtain ⟨x, hx, hname⟩ := exists_of_mem_mapM h hname
  have hxd := unbroken_of_items hd hds x hx
  split at hname
  · obtain rfl := Except.ok.inj hname
    exact hxd.text
  · simp at hname

theorem oneLine_pointTexts {d : Data} (hd : d.Unbroken) {texts : List String}
    (h : pointTexts d = .ok texts) : ∀ s ∈ texts, OneLine s := by
  simp only [pointTexts, bind_eq_ok] at h
  obtain ⟨ds, hds, h⟩ := h
  intro s hs
  obtain ⟨x, hx, hs⟩ := exists_of_mem_mapM h hs
  simp only [bind_eq_ok, pure_eq_ok] at hs
  obtain ⟨p, hp, rfl⟩ := hs
  exact oneLine_numberText (unbroken_of_scalar (unbroken_of_items hd hds x hx) hp)

theorem oneLine_curveText {points : List String} (h : ∀ s ∈ points, OneLine s) :
    OneLine (curveText points) := by
  rw [curveText, oneLine_append, oneLine_append]
  exact ⟨⟨by decide, oneLine_intercalate (by decide) h⟩, by decide⟩

theorem oneLine_typographyText {name : String} {d : Data} (hd : d.Unbroken) {s : String}
    (h : typographyText name d = .ok s) : OneLine s := by
  unfold typographyText at h
  split at h
  · simp only [bind_eq_ok, pure_eq_ok] at h
    obtain ⟨ns, hns, rfl⟩ := h
    exact oneLine_familiesText (oneLine_names hd hns)
  · split at h
    · obtain rfl := Except.ok.inj h
      exact oneLine_numberText hd
    · obtain rfl := Except.ok.inj h
      exact hd.plain

/-! ## Pieces -/

/-- The texts and the names of parts in pieces have no line feeds in them. -/
def Unbroken (pieces : List Piece) : Prop :=
  ∀ s, .text s ∈ pieces ∨ .part s ∈ pieces → OneLine s

theorem unbroken_text {s : String} : Unbroken [.text s] ↔ OneLine s := by
  simp [Unbroken]

theorem unbroken_part {name : String} : Unbroken [.part name] ↔ OneLine name := by
  simp [Unbroken]

theorem unbroken_token (path : String) : Unbroken [.token path] := by
  simp [Unbroken]

theorem unbroken_append {as bs : List Piece} :
    Unbroken (as ++ bs) ↔ Unbroken as ∧ Unbroken bs := by
  simp only [Unbroken, List.mem_append]
  grind

theorem unbroken_cons {piece : Piece} {pieces : List Piece} :
    Unbroken (piece :: pieces) ↔ Unbroken [piece] ∧ Unbroken pieces :=
  @unbroken_append [piece] pieces

theorem unbroken_orUse {references : Option ReferenceTree} {step : Step} {text : String}
    (h : OneLine text) : Unbroken [orUse references step text] := by
  rcases orUse_cases references step text with htext | ⟨r, -, -, huse⟩
  · rwa [htext, unbroken_text]
  · rw [huse]
    exact unbroken_token _

theorem unbroken_separated {separator : String} (hseparator : OneLine separator)
    {values : List (List Piece)} (h : ∀ v ∈ values, Unbroken v) :
    Unbroken (separated separator values) := by
  rintro s (hs | hs)
  · rcases mem_separated hs with heq | ⟨v, hv, hs⟩
    · rwa [Piece.text.inj heq]
    · exact h v hv s (.inl hs)
  · rcases mem_separated hs with heq | ⟨v, hv, hs⟩
    · cases heq
    · exact h v hv s (.inr hs)

variable {references : Option ReferenceTree}

theorem unbroken_stop {d : Data} {ps : List Piece} (h : stop references d = .ok ps) :
    Unbroken ps := by
  simp only [stop, bind_eq_ok, pure_eq_ok] at h
  obtain ⟨_, -, color, hcolor, _, -, _, -, position, hposition, rfl⟩ := h
  refine unbroken_cons.mpr ⟨unbroken_orUse (Color.oneLine_cssText hcolor), ?_⟩
  rw [unbroken_text, oneLine_append]
  exact ⟨by decide, oneLine_percentText hposition⟩

theorem unbroken_layer {d : Data} (hd : d.Unbroken) {ps : List Piece}
    (h : layer references d = .ok ps) : Unbroken ps := by
  obtain ⟨members, _, color, rfl, -, hcolor, rfl⟩ := layer_eq_ok_iff.mp h
  refine unbroken_separated (by decide) fun v hv => ?_
  obtain ⟨piece, hpiece, rfl⟩ := List.mem_map.mp hv
  obtain rfl | ⟨name, d, hget, rfl⟩ | rfl := mem_layerWords hpiece
  · exact unbroken_text.mpr (by decide)
  · exact unbroken_orUse (hd.member (Members.mem_of_get? hget)).2.plain
  · exact unbroken_orUse (Color.oneLine_cssText hcolor)

theorem unbroken_item {type : TokenType}
    {write : Option ReferenceTree → Data → Except Fault (List Piece)} (h : ItemWriter type write)
    {d : Data} (hd : d.Unbroken) {ps : List Piece} (hps : write references d = .ok ps) :
    Unbroken ps := by
  cases h with
  | gradient => exact unbroken_stop hps
  | shadow => exact unbroken_layer hd hps

theorem unbroken_within {f : Option ReferenceTree → Data → Except Fault (List Piece)}
    {ds : List Data} (hds : ∀ d ∈ ds, d.Unbroken) {ps : List (List Piece)}
    (h : within references f ds = .ok ps)
    (hf : ∀ references d ps, d.Unbroken → f references d = .ok ps → Unbroken ps) :
    ∀ v ∈ ps, Unbroken v := by
  intro v hv
  obtain ⟨⟨d, i⟩, hd, hv⟩ := exists_of_mem_mapM h hv
  exact hf _ d v (hds d (List.fst_mem_of_mem_zipIdx hd)) hv

theorem unbroken_curve {points : List Piece} (h : ∀ p ∈ points, Unbroken [p]) :
    Unbroken (curve points) := by
  rw [curve, List.cons_append, unbroken_cons, unbroken_append]
  refine ⟨unbroken_text.mpr (by decide), unbroken_separated (by decide) fun v hv => ?_,
    unbroken_text.mpr (by decide)⟩
  obtain ⟨p, hp, rfl⟩ := List.mem_map.mp hv
  exact h p hp

/-! ## Custom properties -/

/-- A custom property for a part with a name on one line, or for the whole, and with such a
value. -/
structure Property.Unbroken (p : Property) : Prop where
  part : ∀ name, p.part = some name → OneLine name
  value : Css.Unbroken p.value

theorem unbroken_whole {pieces : List Piece} (h : Unbroken pieces) : (whole pieces).Unbroken :=
  ⟨by simp [whole], h⟩

theorem unbroken_forPart {name : String} {piece : Piece} (hname : OneLine name)
    (hpiece : Unbroken [piece]) : (forPart name piece).Unbroken :=
  ⟨fun _ hother => Option.some.inj hother ▸ hname, hpiece⟩

theorem unbroken_partPieces {value : Data} (hvalue : value.Unbroken)
    {readers : List (String × (Data → Except Fault String))}
    (hreaders : ∀ r ∈ readers, OneLine r.1 ∧ ∀ d s, d.Unbroken → r.2 d = .ok s → OneLine s)
    {parts : List (String × Piece)} (h : partPieces references value readers = .ok parts) :
    ∀ p ∈ parts, OneLine p.1 ∧ Unbroken [p.2] := by
  intro p hp
  obtain ⟨reader, hreader, d, s, hd, hs, rfl⟩ := exists_left (partPieces_eq_ok_iff.mp h) hp
  obtain ⟨hname, hread⟩ := hreaders reader hreader
  exact ⟨hname, unbroken_orUse (hread d s (unbroken_of_member hvalue hd) hs)⟩

theorem unbroken_shorthand {parts : List (String × Piece)}
    (h : ∀ p ∈ parts, OneLine p.1 ∧ Unbroken [p.2]) : ∀ p ∈ shorthand parts, p.Unbroken := by
  rw [shorthand, List.forall_mem_cons, List.forall_mem_map]
  refine ⟨unbroken_whole (unbroken_separated (by decide) fun v hv => ?_), fun p hp =>
    unbroken_forPart (h p hp).1 (h p hp).2⟩
  obtain ⟨p, hp, rfl⟩ := List.mem_map.mp hv
  exact unbroken_part.mpr (h p hp).1

theorem unbroken_typographyProperties {members : Members Data}
    (hmembers : ∀ m ∈ members, OneLine m.1 ∧ m.2.Unbroken) {ps : List Property}
    (h : typographyProperties references members = .ok ps) : ∀ p ∈ ps, p.Unbroken := by
  intro p hp
  obtain ⟨m, hm, s, hs, rfl⟩ := exists_left (typographyProperties_eq_ok_iff.mp h) hp
  obtain ⟨hname, hd⟩ := hmembers m hm
  exact unbroken_forPart (oneLine_kebab hname) (unbroken_orUse (oneLine_typographyText hd hs))

/-- The parts of a shorthand have names on one line, and are read as texts on one line. -/
theorem oneLine_readers {type : TokenType}
    {readers : List (String × (Data → Except Fault String))} (hreaders : PartReaders type readers) :
    ∀ r ∈ readers, OneLine r.1 ∧ ∀ d s, d.Unbroken → r.2 d = .ok s → OneLine s := by
  have hplain : ∀ (d : Data) (s : String), d.Unbroken →
      (.ok d.plain : Except Fault String) = .ok s → OneLine s := by
    intro d s hd h
    exact Except.ok.inj h ▸ hd.plain
  have hcolor : ∀ (d : Data) (s : String), d.Unbroken → colorText d = .ok s → OneLine s :=
    fun d s _ h => Color.oneLine_cssText h
  have hstroke : ∀ (d : Data) (s : String), d.Unbroken →
      (.ok (strokeText d) : Except Fault String) = .ok s → OneLine s := by
    intro d s hd h
    exact Except.ok.inj h ▸ oneLine_strokeText hd
  have hcurve : ∀ (d : Data) (s : String), d.Unbroken →
      (do return curveText (← pointTexts d) : Except Fault String) = .ok s → OneLine s := by
    intro d s hd h
    simp only [bind_eq_ok, pure_eq_ok] at h
    obtain ⟨points, hpoints, rfl⟩ := h
    exact oneLine_curveText (oneLine_pointTexts hd hpoints)
  cases hreaders
  all_goals
    simp only [borderParts, transitionParts, List.forall_mem_cons, List.not_mem_nil, false_imp_iff,
      implies_true, and_true]
  case border => exact ⟨⟨by decide, hplain⟩, ⟨by decide, hcolor⟩, ⟨by decide, hstroke⟩⟩
  case transition => exact ⟨⟨by decide, hplain⟩, ⟨by decide, hplain⟩, ⟨by decide, hcurve⟩⟩

/-- The text of a value whose texts are on one line is on one line. -/
theorem oneLine_wholeText {type : TokenType} {d : Data} (hd : d.Unbroken) {s : String}
    (h : wholeText type d = .ok s) : OneLine s := by
  cases type with
  | boolean =>
    obtain ⟨_, -, h⟩ := bind_eq_ok.mp h
    rw [← Except.ok.inj h]
    split <;> decide
  | fontFamily =>
    obtain ⟨ns, hns, h⟩ := bind_eq_ok.mp h
    exact Except.ok.inj h ▸ oneLine_familiesText (oneLine_names hd hns)
  | number =>
    obtain ⟨n, hn, h⟩ := bind_eq_ok.mp h
    exact Except.ok.inj h ▸ oneLine_numberText (unbroken_of_scalar hd hn)
  | link =>
    rw [← Except.ok.inj h, linkText, oneLine_append, oneLine_append]
    exact ⟨⟨by decide, hd.plain⟩, by decide⟩
  | strokeStyle => exact Except.ok.inj h ▸ oneLine_strokeText hd
  | dimension | duration | fontWeight | string => exact Except.ok.inj h ▸ hd.plain
  | typography =>
    cases d with
    | object members => cases h
    | _ => exact Except.ok.inj h ▸ hd.plain
  | border | color | cubicBezier | gradient | shadow | transition => cases h

/-- The custom properties of a value whose texts are on one line are on one line. -/
theorem unbroken_properties {type : TokenType} {e : Entry} (he : e.value.Unbroken)
    {ps : List Property} (h : properties type e = .ok ps) : ∀ p ∈ ps, p.Unbroken := by
  have hone {pieces : List Piece} (hpieces : Unbroken pieces) :
      ∀ p ∈ [whole pieces], p.Unbroken :=
    fun p hp => List.mem_singleton.mp hp ▸ unbroken_whole hpieces
  cases properties_eq_ok_iff.mp h with
  | renditions h =>
    intro p hp
    obtain ⟨r, -, d, s, -, hs, rfl⟩ := mem_colorProperties h hp
    exact ⟨by simp, unbroken_text.mpr (Color.oneLine_cssText hs)⟩
  | parts hreaders hparts =>
    exact unbroken_shorthand (unbroken_partPieces he (oneLine_readers hreaders) hparts)
  | font hvalue hfont =>
    exact unbroken_typographyProperties (fun m hm => (hvalue ▸ he).member hm) hfont
  | curve htexts =>
    refine hone (unbroken_curve fun p hp => ?_)
    obtain ⟨⟨s, i⟩, hs, rfl⟩ := List.mem_map.mp hp
    exact unbroken_orUse (oneLine_pointTexts he htexts s (List.fst_mem_of_mem_zipIdx hs))
  | items hwriter hvalue hvalues =>
    refine hone (unbroken_separated (by decide) ?_)
    exact unbroken_within (fun d hd => (hvalue ▸ he).item hd) hvalues
      fun _ _ _ hd => unbroken_item hwriter hd
  | text htext => exact hone (unbroken_text.mpr (oneLine_wholeText he htext))

/-! ## Declarations -/

/-- The custom properties of tokens in their default mode are on one line when all paths and the
texts of the values are. -/
theorem oneLine_declaration {t : Table} (hl : Linked t) {ds : List Declaration}
    (hds : tableDeclarations t = .ok ds) (hpaths : ∀ p ∈ t.tokens, OneLine p.1)
    (hvalues : ∀ p ∈ t.tokens, ∀ e, (defaultMode, e) ∈ p.2.modes → e.value.Unbroken)
    {d : Declaration} (hd : d ∈ ds) (hmode : d.mode = defaultMode) :
    OneLine (d.name variableName) ∧ OneLine (wordsText (d.words variableName)) := by
  obtain ⟨p, hp, htoken, e, he, ps, hps, hin⟩ := (mem_tableDeclarations hds).mp hd
  have hown : OneLine (variableName d.token) := by
    rw [htoken, hl.id_eq p hp]
    exact oneLine_variableName (hpaths p hp)
  have hproperty : d.property.Unbroken := by
    rw [entryProperties] at hps
    split at hps
    · rename_i piece hpiece
      obtain ⟨r, -, huse⟩ := Option.bind_eq_some_iff.mp hpiece
      obtain ⟨-, rfl⟩ := useOf?_eq_some.mp huse
      obtain rfl := Except.ok.inj hps
      exact List.mem_singleton.mp hin ▸ unbroken_whole (unbroken_token _)
    · exact unbroken_properties (hvalues p hp e (hmode ▸ he)) hps _ hin
  refine ⟨oneLine_partName hown hproperty.part, oneLine_join.mpr fun s hs => ?_⟩
  obtain ⟨word, hword, rfl⟩ := List.mem_map.mp hs
  obtain ⟨piece, hpiece, rfl⟩ := List.mem_map.mp hword
  have huse : ∀ name, OneLine name → OneLine (Word.use name).render := by
    intro name hname
    rw [Word.render, oneLine_append, oneLine_append]
    exact ⟨⟨by decide, hname⟩, by decide⟩
  cases piece with
  | text s => exact hproperty.value s (.inl hpiece)
  | part name =>
    have hname := hproperty.value name (.inr hpiece)
    exact huse _ (oneLine_partName hown fun _ heq => Option.some.inj heq ▸ hname)
  | token path =>
    -- whatever is used is the custom property of a token
    obtain ⟨tok, htok⟩ := exists_used hl hds hd hpiece
    exact huse _ (oneLine_variableName (hpaths _ htok))

/-! ## Reading the block of the default mode -/

/-- The line that declares the custom property of a fragment. -/
def declarationLine (f : Fragment) : String := "  " ++ f.name ++ ": " ++ f.value ++ ";"

/-- The fragments of the default mode for common screens. -/
def rootFragments (store : Fragments) : List Fragment :=
  (store.select ⟨format, none, some defaultMode, none⟩).filter isCommon

/-- The lines between the one that opens the first block of the whole document and the next one that
closes a block. -/
def rootLines (text : String) : List String :=
  ((Text.lines text).dropWhile (· ≠ rootSelector ++ " \x7b")).tail.takeWhile (· ≠ "\x7d")

theorem oneLine_declarationLine {f : Fragment} :
    OneLine (declarationLine f) ↔ OneLine f.name ∧ OneLine f.value := by
  have hpad : OneLine "  " := by decide
  have hcolon : OneLine ": " := by decide
  have hend : OneLine ";" := by decide
  simp [declarationLine, hpad, hcolon, hend]

theorem itemLines_declarations (fs : List Fragment) :
    itemLines 2 (fs.map declaration) = fs.map declarationLine := by
  rw [itemLines_map_declaration]
  apply List.map_congr_left
  intro f _
  simp only [declarationLine, String.append_assoc]
  rfl

/-- The lines that a style sheet begins with. -/
def openingLines (fs : List Fragment) : List String :=
  banner ++ "" :: (rootSelector ++ " \x7b") :: fs.map declarationLine ++ ["\x7d"]

theorem exists_sheetText (store : Fragments) : ∃ rest : List String,
    sheetText (Options.standard.blocks store) =
      "\n".intercalate (openingLines (rootFragments store) ++ rest) ++ "\n" := by
  have hincludes : (fun f => isCommon f && Options.standard.includes f) = isCommon := by
    funext f
    exact Bool.and_true _
  have hroot : (Options.standard.rootBlock store).lines 0 =
      (rootSelector ++ " \x7b") :: (rootFragments store).map declarationLine ++ ["\x7d"] := by
    rw [Options.rootBlock, Options.declarations, hincludes, Item.lines]
    show indented 0 _ :: itemLines 2 ((rootFragments store).map declaration) ++ _ = _
    rw [itemLines_declarations]
    rfl
  refine ⟨(Options.standard.wideBlock store ++ Options.standard.modeSelectors.flatMap
    (Options.standard.modeBlocks store)).flatMap fun b => "" :: b.lines 0, ?_⟩
  rw [sheetText, Options.blocks, List.cons_append, List.flatMap_cons, hroot, openingLines]
  simp only [List.append_assoc, List.cons_append]

/-- Declarations that are on one line are read back. -/
theorem rootLines_eq {fs : List Fragment} (hfs : ∀ f ∈ fs, OneLine (declarationLine f))
    (rest : List String) :
    rootLines ("\n".intercalate (openingLines fs ++ rest) ++ "\n") = fs.map declarationLine := by
  have hopening : ∀ l ∈ openingLines fs, OneLine l := by
    have hbanner : ∀ l ∈ banner, OneLine l := by decide
    simp only [openingLines, List.forall_mem_append, List.forall_mem_cons, List.forall_mem_map]
    exact ⟨⟨hbanner, by decide, by decide, hfs⟩, by decide, by simp⟩
  obtain ⟨more, hlines⟩ := Text.lines_intercalate hopening (by simp [openingLines]) rest
  -- a declaration begins with a blank, so it does not close the block
  have hdeclaration : ∀ l ∈ fs.map declarationLine, decide (l ≠ "\x7d") = true := by
    intro l hl
    obtain ⟨f, -, rfl⟩ := List.mem_map.mp hl
    refine decide_eq_true fun heq => ?_
    have hhead := congrArg (fun s => s.toList.head?) heq
    simp [declarationLine] at hhead
  have hlist : openingLines fs ++ more =
      (banner ++ [""]) ++
        (rootSelector ++ " \x7b") :: (fs.map declarationLine ++ "\x7d" :: more) := by
    simp [openingLines]
  have hskip : ∀ l ∈ banner ++ [""], decide (l ≠ rootSelector ++ " \x7b") = true := by decide
  rw [rootLines, hlines, hlist, List.dropWhile_append_of_pos hskip,
    List.dropWhile_cons_of_neg (by simp), List.tail_cons,
    List.takeWhile_append_of_pos hdeclaration, List.takeWhile_cons_of_neg (by simp),
    List.append_nil]

/-- The declarations of a style sheet are read back exactly when they are on one line each. -/
theorem rootLines_sheetText (store : Fragments) :
    rootLines (sheetText (Options.standard.blocks store)) =
        (rootFragments store).map declarationLine ↔
      ∀ f ∈ rootFragments store, OneLine f.name ∧ OneLine f.value := by
  constructor
  · intro hread f hf
    -- every line that is read is a line
    have hline : declarationLine f ∈ rootLines (sheetText (Options.standard.blocks store)) :=
      hread ▸ List.mem_map_of_mem hf
    exact oneLine_declarationLine.mp (Text.oneLine_of_mem_lines ((List.dropWhile_sublist _).mem
      (List.mem_of_mem_tail ((List.takeWhile_sublist _).mem hline))))
  · intro hone
    obtain ⟨rest, hrest⟩ := exists_sheetText store
    rw [hrest]
    exact rootLines_eq (fun f hf => oneLine_declarationLine.mpr (hone f hf)) rest

/-- The fragments of the default mode are on one line when all paths and the texts of the values
are. -/
theorem oneLine_rootFragments {t : Table} (hl : Linked t) {ds : List Declaration}
    (hds : tableDeclarations t = .ok ds) (hpaths : ∀ p ∈ t.tokens, OneLine p.1)
    (hvalues : ∀ p ∈ t.tokens, ∀ e, (defaultMode, e) ∈ p.2.modes → e.value.Unbroken)
    {f : Fragment} (hf : f ∈ rootFragments (sheetStore [.standard] ds)) :
    OneLine f.name ∧ OneLine f.value := by
  have hf := (List.mem_filter.mp hf).1
  rw [select, List.mem_filter] at hf
  obtain ⟨hf, haccepts⟩ := hf
  obtain ⟨d, hd, rfl⟩ := List.mem_map.mp (mem_of_mem_setAll hf)
  have hmode : d.mode = defaultMode := by
    simp only [Query.accepts, Bool.and_eq_true, Option.all_some, decide_eq_true_eq] at haccepts
    exact haccepts.1.2.symm
  have hname := name_fragment variableName_ne_empty d
  have hone := oneLine_declaration hl hds hpaths hvalues hd hmode
  rw [← hname] at hone
  exact hone

/-- In the style sheet of a document with distinct keys there is, between the line that opens the
block of the default mode and the next line that closes a block, one line for each custom property
of the mode, in their order, exactly when none of them has a line feed in its name or its value.
This is so when no path of a token and no text in a value of the mode has one. -/
theorem rootLines_eq_iff {d : Document} (hd : d.root.WellKeyed) {t : Table} (ht : d.table = .ok t)
    {store : Fragments} (hstore : fragments [plugin .standard] t = .ok store) :
    ∃ text, build [plugin .standard] t = .ok [⟨"index.css", text⟩] ∧
      (rootLines text = (rootFragments store).map declarationLine ↔
        ∀ f ∈ rootFragments store, OneLine f.name ∧ OneLine f.value) ∧
      ((∀ p ∈ t.tokens, OneLine p.1 ∧
          ∀ e, (defaultMode, e) ∈ p.2.modes → e.value.Unbroken) →
        rootLines text = (rootFragments store).map declarationLine) := by
  obtain ⟨ds, hds⟩ : ∃ ds, tableDeclarations t = .ok ds := by
    cases hds : tableDeclarations t with
    | ok ds => exact ⟨ds, rfl⟩
    | error fault =>
      have hfault := fragments_plugin_error (List.cons_ne_nil Options.standard []) hds
      rw [List.map_singleton, hstore] at hfault
      cases hfault
  obtain rfl : store = sheetStore [.standard] ds :=
    Except.ok.inj (hstore.symm.trans (fragments_plugin [.standard] hds))
  have hread := rootLines_sheetText (sheetStore [.standard] ds)
  refine ⟨_, build_single .standard hds, hread, fun hone => hread.mpr fun f hf => ?_⟩
  exact oneLine_rootFragments (exists_linked hd ht) hds (fun p hp => (hone p hp).1)
    (fun p hp => (hone p hp).2) hf

/-- A document with a text. -/
def wording (text : String) : Document where
  root := (Data.object [
    ("s", .object [("$type", .text "string"), ("$value", .text text)])]).tree
  source := ""
  format := .data
  filename := Document.dataName

/-- For instance, a semicolon and a brace in a text stay on its line. -/
theorem rootLines_wording : ∃ t store text, (wording "a; \x7d").root.WellKeyed ∧
    (wording "a; \x7d").table = .ok t ∧ fragments [plugin .standard] t = .ok store ∧
    (∀ p ∈ t.tokens, OneLine p.1 ∧ ∀ e, (defaultMode, e) ∈ p.2.modes → e.value.Unbroken) ∧
    build [plugin .standard] t = .ok [⟨"index.css", text⟩] ∧
    (rootFragments store).map declarationLine = ["  --s: a; \x7d;"] ∧
    rootLines text = ["  --s: a; \x7d;"] := by
  have hkeyed : (wording "a; \x7d").root.WellKeyed := by decide +kernel
  obtain ⟨t, ds, ht, hds, htokens, hlines⟩ := exists_declared (wording "a; \x7d") (fun t ds =>
    (∀ p ∈ t.tokens, OneLine p.1 ∧ ∀ m ∈ p.2.modes,
      (scalar m.2.value).toOption = some (.text "a; \x7d")) ∧
    (rootFragments (sheetStore [.standard] ds)).map declarationLine = ["  --s: a; \x7d;"])
    (by decide +kernel)
  have hone : ∀ p ∈ t.tokens, OneLine p.1 ∧
      ∀ e, (defaultMode, e) ∈ p.2.modes → e.value.Unbroken := by
    intro p hp
    refine ⟨(htokens p hp).1, fun e he => ?_⟩
    obtain ⟨value, references, reference, variants⟩ := e
    have hvalue := toOption_eq_some.mp ((htokens p hp).2 _ he)
    cases value with
    | scalar s =>
      obtain rfl := Except.ok.inj hvalue
      refine .scalar _ fun text htext => ?_
      rw [← Scalar.text.inj htext]
      decide
    | _ => simp [scalar] at hvalue
  have hstore := fragments_plugin [.standard] hds
  obtain ⟨text, hbuild, -, hread⟩ := rootLines_eq_iff hkeyed ht hstore
  exact ⟨t, _, text, hkeyed, ht, hstore, hone, hbuild, hlines, (hread hone).trans hlines⟩

/-- A line feed in a text adds a declaration of its own. -/
theorem rootLines_added : ∃ t store text, (wording "red;\n  --other: 1").root.WellKeyed ∧
    (wording "red;\n  --other: 1").table = .ok t ∧
    fragments [plugin .standard] t = .ok store ∧
    build [plugin .standard] t = .ok [⟨"index.css", text⟩] ∧
    (rootFragments store).map declarationLine = ["  --s: red;\n  --other: 1;"] ∧
    rootLines text = ["  --s: red;", "  --other: 1;"] := by
  have hkeyed : (wording "red;\n  --other: 1").root.WellKeyed := by decide +kernel
  obtain ⟨t, ds, ht, hds, hlines, hread⟩ := exists_declared (wording "red;\n  --other: 1")
    (fun _ ds =>
      (rootFragments (sheetStore [.standard] ds)).map declarationLine =
        ["  --s: red;\n  --other: 1;"] ∧
      rootLines (sheetText (Options.standard.blocks (sheetStore [.standard] ds))) =
        ["  --s: red;", "  --other: 1;"]) (by decide +kernel)
  exact ⟨t, _, _, hkeyed, ht, fragments_plugin [.standard] hds, build_single .standard hds, hlines,
    hread⟩

end Css

end DesignTokens
