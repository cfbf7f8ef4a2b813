import DesignTokens.Pipeline
import DesignTokens.Proofs.Yaml.Graph

/-!
# What a reader remembers

A reader that reads one input after the other remembers a version of YAML and nothing else.  As long
as no text declares a version, its outcomes are those of readers that have read nothing before
(`outcomes_without_version`).  A declared version reaches the texts after it (`remembers_version`).
-/

namespace DesignTokens

open Yaml

/-! ## The version after a text -/

/-- The text of an input declares a version. -/
def Input.DeclaresVersion (i : Input) : Prop := Yaml.DeclaresVersion (i.source false).text.toList

namespace Document

theorem treeOfText_version (limits : Limits) (version : Version) (format : Format)
    (text : String) :
    (treeOfText limits version format text).2 = (readGraph version text.toList).2 := by
  unfold treeOfText
  split <;> simp [*]

variable {limits : Limits} {filename text : String}

/-- The version stays the usual one, unless the text declares another. -/
theorem readAs_version {format : Format} (h : ¬ Yaml.DeclaresVersion text.toList) :
    (readAs format limits .v12 filename text).2 = .v12 := by
  have hgraph := readGraph_version .v12 text.toList
  simpa [readAs, treeOfText_version, h] using hgraph

theorem readYaml_version (h : ¬ Yaml.DeclaresVersion text.toList) :
    (readYaml limits .v12 filename text).2 = .v12 := by
  unfold readYaml
  split
  · rfl
  · exact readAs_version h

theorem readJson_version (h : ¬ Yaml.DeclaresVersion text.toList) :
    (readJson limits .v12 filename text).2 = .v12 := by
  unfold readJson
  split
  · rfl
  · split
    · rfl
    · exact readAs_version h

theorem readText_version (h : ¬ Yaml.DeclaresVersion text.toList) :
    (readText limits .v12 filename text).2 = .v12 := by
  unfold readText
  split
  · exact readJson_version h
  · exact readYaml_version h

end Document

theorem Input.read_version {limits : Limits} {i : Input} (h : ¬ i.DeclaresVersion) :
    (i.read limits .v12).2 = .v12 := by
  cases i with
  | text filename content => exact Document.readText_version h
  | json filename content => exact Document.readJson_version h
  | yaml filename content => exact Document.readYaml_version h
  | data content rendered =>
    cases rendered with
    | true => exact Document.readJson_version h
    | false => rfl

/-! ## One input after the other -/

namespace Setup

/-- The outcomes of inputs one after the other, each with the version that holds after the ones
before it. -/
def outcomes {α : Type} (step : Version → Input → α × Version) : Version → List Input → List α
  | _, [] => []
  | version, i :: rest => (step version i).1 :: outcomes step (step version i).2 rest

/-- The documents of inputs that one reader reads one after the other. -/
def readAll (s : Setup) (inputs : List Input) : List (Except Error Document) :=
  outcomes s.read .v12 inputs

/-- The tables of inputs that one reader reads one after the other. -/
def parseAll (s : Setup) (inputs : List Input) : List (Except Error Table) :=
  outcomes s.parse .v12 inputs

/-- Steps that keep a version lead to the outcomes of single steps. -/
theorem getElem?_outcomes {α : Type} {step : Version → Input → α × Version} {version : Version}
    {inputs : List Input} {n : Nat} (h : ∀ i ∈ inputs.take n, (step version i).2 = version) :
    (outcomes step version inputs)[n]? = inputs[n]?.map fun i => (step version i).1 := by
  induction inputs generalizing n with
  | nil => rfl
  | cons i rest ih =>
    cases n with
    | zero => rfl
    | succ n =>
      rw [List.take_succ_cons, List.forall_mem_cons] at h
      rw [outcomes, List.getElem?_cons_succ, List.getElem?_cons_succ, h.1]
      exact ih h.2

/-- When no input before declares a version, the outcome of an input is that of a reader that has
read nothing before. -/
theorem outcomes_without_version (s : Setup) (inputs : List Input) (n : Nat)
    (h : ∀ i ∈ inputs.take n, ¬ i.DeclaresVersion) :
    (s.readAll inputs)[n]? = inputs[n]?.map s.readOnce ∧
      (s.parseAll inputs)[n]? = inputs[n]?.map s.parseOnce :=
  ⟨getElem?_outcomes fun i hi => Input.read_version (h i hi),
    getElem?_outcomes fun i hi => Input.read_version (h i hi)⟩

/-- The usual limits, and reports without colours. -/
def standard : Setup := ⟨.standard, false⟩

/-- A text with a word that is a truth value in one version only. -/
def wordInput : Input := .yaml Document.textName "a: yes\n"

theorem outcomes_without_version_word :
    (∀ i ∈ [wordInput, wordInput].take 1, ¬ i.DeclaresVersion) ∧
      (standard.readAll [wordInput, wordInput])[1]? = some (standard.readOnce wordInput) ∧
      (standard.parseAll [wordInput, wordInput])[1]? = some (standard.parseOnce wordInput) := by
  have hnone : ∀ i ∈ [wordInput, wordInput].take 1, ¬ i.DeclaresVersion := by
    intro i hi
    obtain rfl : i = wordInput := by simpa using hi
    exact not_declaresVersion (by decide +kernel)
  exact ⟨hnone, outcomes_without_version standard [wordInput, wordInput] 1 hnone⟩

/-- A text that declares an earlier version. -/
def declaringInput : Input := .yaml Document.textName "%YAML 1.1\n---\na: 1\n"

/-- Whether the member of a document is a text. -/
def hasText (d : Except Error Document) : Bool :=
  match d with
  | .ok d => ((d.root.get? "a").bind Tree.text?).isSome
  | .error _ => false

/-- The version that a text declares decides what a word means in the text after it. -/
theorem remembers_version : (standard.readAll [declaringInput, wordInput])[1]? ≠
    some (standard.readOnce wordInput) := by
  intro h
  have htext := congrArg (Option.map hasText) h
  revert htext
  decide +kernel

end Setup

end DesignTokens
