import DesignTokens.Document
import DesignTokens.Proofs.Json.Repetition
import DesignTokens.Proofs.Json.Spelling

/-!
# Documents of JSON

A JSON text has to pass the strict reader, but its document comes from the reader of YAML, under the
version that happens to hold.  For a portable text the two agree: the document holds what the strict
reader reads.

## Main statement

* `Document.readJson_data`
-/

namespace DesignTokens

/-- No object that is written in a text repeats a name. -/
def Json.RepeatsNoName (text : String) : Prop :=
  ∃ written, readText id text.toList = .ok written ∧ written.tree.WellKeyed

namespace Document

variable {limits : Limits} {text : String} {d : Data}

theorem checkSize_eq_ok (h : (text.length : Int) ≤ limits.size) :
    limits.checkSize text.length = .ok () :=
  if_neg (by omega)

/-- The tree of a portable JSON text is what the text says in JSON, under either version of YAML. -/
theorem treeOfText_of_json (version : Yaml.Version) (format : Format) (h : Json.read text = .ok d)
    (hkeys : Json.RepeatsNoName text) (hwithin : d.Within limits)
    (hportable : Json.Portable text.toList) :
    ∃ root, treeOfText limits version format text = (.ok root, version) ∧ root.data = d := by
  obtain ⟨written, hwritten, hkeyed⟩ := hkeys
  obtain rfl : written = d := Except.ok.inj ((Json.read_of_written hwritten hkeyed).symm.trans h)
  obtain ⟨w, r, kinds, htext, hw, hspells, hvalue⟩ :=
    Json.spells_of_readText hwritten hkeyed hportable
  have hacceptable := List.all_eq_true.mp hportable.acceptable
  rw [htext] at hacceptable
  obtain ⟨g, root, hgraph, t, ht, hdata⟩ :=
    Yaml.readGraph_of_spells hw hspells (hvalue version) hacceptable
  have htree : Tree.ofGraph g version limits root = .ok t :=
    Tree.ofGraph_of_expands ht (hdata ▸ hwithin)
  refine ⟨t, ?_, hdata⟩
  unfold treeOfText
  rw [htext, hgraph]
  exact congrArg (·, version) htree

theorem readJson_eq (version : Yaml.Version) (filename : String) (h : Json.read text = .ok d)
    (hsize : (text.length : Int) ≤ limits.size) :
    readJson limits version filename text = readAs .json limits version filename text := by
  rw [readJson, checkSize_eq_ok hsize]
  dsimp only
  rw [h]

/-- A portable JSON text within the limits becomes a document of what it says in JSON, whichever
version of YAML holds, and the version stays. -/
theorem readJson_data (version : Yaml.Version) (filename : String)
    (h : Json.read text = .ok d) (hkeys : Json.RepeatsNoName text)
    (hsize : (text.length : Int) ≤ limits.size) (hwithin : d.Within limits)
    (hportable : Json.Portable text.toList) :
    ∃ root, readJson limits version filename text = (.ok ⟨root, text, .json, filename⟩, version) ∧
      root.data = d := by
  obtain ⟨root, htree, hdata⟩ := treeOfText_of_json version .json h hkeys hwithin hportable
  refine ⟨root, ?_, hdata⟩
  rw [readJson_eq version filename h hsize, readAs, htree]
  rfl

/-- A text with a value of each kind, and with a blank between a key and its colon. -/
def kindsText : String := "[1, 1.0, true, null, \"1\\n\", \x7b\"a\" : -2\x7d]"

/-- What `kindsText` says. -/
def kinds : Data :=
  .list [.int 1, .float ⟨0x3FF0000000000000⟩, .bool true, .null, .text "1\n",
    .object [("a", .int (-2))]]

theorem readJson_data_kinds :
    ∃ root, readJson .standard .v11 "<string>" kindsText =
        (.ok ⟨root, kindsText, .json, "<string>"⟩, .v11) ∧ root.data = kinds :=
  @readJson_data .standard _ _ .v11 "<string>"
    (Outcome.toOption_eq_some.mp (by decide +kernel))
    ⟨kinds, Outcome.toOption_eq_some.mp (by decide +kernel), by decide +kernel⟩ (by decide +kernel)
    ⟨by decide +kernel, by decide +kernel⟩ ⟨by decide +kernel, by decide +kernel, by decide +kernel⟩

/-- An object of JSON with a line break between its key and its colon. -/
def brokenKey : String := "\x7b\"a\"\n: 1\x7d"

/-- JSON allows a line break between a key and its colon and YAML does not, so a text may be JSON and
yet be no document. -/
theorem readJson_data_not_brokenKey :
    ¬ ∀ (text : String) (d : Data), Json.read text = .ok d → Json.RepeatsNoName text →
      (text.length : Int) ≤ Limits.standard.size → d.Within .standard →
      ∃ root, readJson .standard .v12 "<string>" text =
          (.ok ⟨root, text, .json, "<string>"⟩, .v12) ∧ root.data = d := by
  intro hall
  let d : Data := .object [("a", .int 1)]
  have hwritten : Json.readText id brokenKey.toList = .ok d :=
    Outcome.toOption_eq_some.mp (by decide +kernel)
  have hkeyed : d.tree.WellKeyed := by decide +kernel
  obtain ⟨root, hread, -⟩ := hall brokenKey d (Json.read_of_written hwritten hkeyed)
    ⟨d, hwritten, hkeyed⟩ (by decide +kernel) ⟨by decide +kernel, by decide +kernel⟩
  have hfails : (readJson .standard .v12 "<string>" brokenKey).1.toOption.isNone = true := by
    decide +kernel
  rw [hread] at hfails
  cases hfails

end Document

end DesignTokens
