import DesignTokens.Proofs.Document.Json
import DesignTokens.Proofs.Json.Printing
import DesignTokens.Proofs.Resolution.Content
import DesignTokens.Proofs.Session

/-!
# Documents of structured data

There are two ways from structured data to a document: the data is written as JSON and read again, or
it is wrapped as it is.  With portable data both lead to trees with the same content, and so to the
same table up to places.  Data that is not portable may be read as something else.

## Main statement

* `Setup.rendered_wrapped`
-/

namespace DesignTokens

open Outcome

variable {d : Data}

namespace Document

variable {limits : Limits}

/-- Portable data that is written within the limits is read as the data. -/
theorem readRendered_eq_ok (version : Yaml.Version) (hkeyed : d.tree.WellKeyed)
    (hportable : d.isPortable = true)
    (hsize : ((Json.indented d).length : Int) ≤ limits.size) (hwithin : d.Within limits) :
    ∃ root, readRendered limits version d =
        (.ok ⟨root, Json.indented d, .data, dataName⟩, version) ∧ root.data = d := by
  have hwritten := Json.readText_indented hportable
  have hread := Json.read_of_written hwritten hkeyed
  obtain ⟨root, htree, hdata⟩ := treeOfText_of_json version .json hread ⟨d, hwritten, hkeyed⟩
    hwithin (Json.portable_indented hportable)
  refine ⟨root, ?_, hdata⟩
  rw [readRendered, readJson_eq version dataName hread hsize, readAs, htree]
  rfl

theorem ofData_eq_ok (hwithin : d.Within limits) :
    ofData limits d = .ok ⟨d.tree, "", .data, dataName⟩ := by
  rw [ofData, Tree.ofData_eq_ok hwithin]
  rfl

end Document

namespace Setup

variable {s : Setup} {r w : Document}

theorem table_content (hr : r.root.WellKeyed) (h : r.root.SameContent w.root) :
    CarriesOver Table.SameContent (s.table r) (s.table w) := by
  intro t ht
  obtain ⟨u, hu, htu⟩ := Resolution.table_content hr h t (mapError_eq_ok.mp ht)
  exact ⟨u, mapError_eq_ok.mpr hu, htu⟩

/-- Documents with the same content have both no table, or the same one up to places. -/
theorem table_rel (hr : r.root.WellKeyed) (h : r.root.SameContent w.root) :
    Option.Rel Table.SameContent (s.table r).toOption (s.table w).toOption :=
  rel_toOption (table_content hr h)
    ((table_content (h.wellKeyed hr) h.symm).imp fun _ _ => Eq.symm)

/-- Portable data within the limits becomes a document whether it is written and read again or
wrapped as it is, with the same content, and with the same table up to places. -/
theorem rendered_wrapped (version : Yaml.Version) (hkeyed : d.tree.WellKeyed)
    (hportable : d.isPortable = true)
    (hsize : ((Json.indented d).length : Int) ≤ s.limits.size) (hwithin : d.Within s.limits) :
    ∃ r w, s.read version (.data d true) = (.ok r, version) ∧
      s.read version (.data d false) = (.ok w, version) ∧
      r.root.SameContent w.root ∧
      Option.Rel Table.SameContent (s.parse version (.data d true)).1.toOption
        (s.parse version (.data d false)).1.toOption := by
  obtain ⟨root, hrendered, hdata⟩ :=
    Document.readRendered_eq_ok version hkeyed hportable hsize hwithin
  have hread : s.read version (.data d true) =
      (.ok ⟨root, Json.indented d, .data, Document.dataName⟩, version) := by
    rw [read, Input.read, hrendered]
    rfl
  have hwrap : s.read version (.data d false) =
      (.ok ⟨d.tree, "", .data, Document.dataName⟩, version) := by
    rw [read, Input.read, Document.ofData_eq_ok hwithin]
    rfl
  have hsame : root.SameContent d.tree := Tree.sameContent_tree hdata
  refine ⟨_, _, hread, hwrap, hsame, ?_⟩
  rw [parse, parse, hread, hwrap]
  exact table_rel (hsame.symm.wellKeyed hkeyed) hsame

/-- A token and an alias to it, with a text beyond ASCII. -/
def portableData : Data :=
  .object [("a", .object [("$type", .text "number"), ("$value", .float ⟨0x3FB999999999999A⟩),
      ("$description", .text "é\n\u2028")]),
    ("b", .object [("$value", .text "\x7ba\x7d")])]

theorem rendered_wrapped_portableData :
    ∃ r w, standard.read .v12 (.data portableData true) = (.ok r, .v12) ∧
      standard.read .v12 (.data portableData false) = (.ok w, .v12) ∧
      r.root.SameContent w.root ∧
      Option.Rel Table.SameContent (standard.parse .v12 (.data portableData true)).1.toOption
        (standard.parse .v12 (.data portableData false)).1.toOption :=
  rendered_wrapped .v12 (by decide +kernel) (by decide +kernel) (by decide +kernel)
    ⟨by decide +kernel, by decide +kernel⟩

/-- Data with a next-line character, which is written as it is. -/
def nextLineData : Data := .object [("a", .text "x\u0085y")]

/-- YAML takes a next-line character in a string for a line break and reads a blank, so data that is
written and read again may not be the data. -/
theorem rendered_wrapped_not_nextLine :
    ¬ ∀ d : Data, d.tree.WellKeyed →
      ((Json.indented d).length : Int) ≤ standard.limits.size → d.Within standard.limits →
      ∃ r w, standard.read .v12 (.data d true) = (.ok r, .v12) ∧
        standard.read .v12 (.data d false) = (.ok w, .v12) ∧ r.root.SameContent w.root := by
  intro hall
  obtain ⟨r, w, hr, hw, hsame⟩ := hall nextLineData (by decide +kernel) (by decide +kernel)
    ⟨by decide +kernel, by decide +kernel⟩
  have hdiffer : (standard.read .v12 (.data nextLineData true)).1.toOption.map (·.root.data) ≠
      (standard.read .v12 (.data nextLineData false)).1.toOption.map (·.root.data) := by
    decide +kernel
  rw [hr, hw] at hdiffer
  exact hdiffer (congrArg some hsame)

end Setup

end DesignTokens
