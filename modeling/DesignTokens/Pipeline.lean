import DesignTokens.Draft.Discovery
import DesignTokens.Draft.Inference
import DesignTokens.Resolution
import DesignTokens.Session

/-!
# From documents to tables

The steps from a document to its table, one after the other: tokens are found, types are taken over
from references, values are read, references are resolved.  The first failure ends the run.
-/

namespace DesignTokens

namespace Document

def table (d : Document) : Except Failure Table := do
  let found ← Discovery.inDocument d.root
  match Inference.infer found.drafts with
  | (_, some failure) => throw failure
  | (drafts, none) => do
    -- all values are read before the first reference is looked up
    let readings ← drafts.mapM fun draft => do return ⟨draft, ← draft.values⟩
    Resolution.resolve readings found.groups

/-- The text that problems of a document refer to. -/
def problemSource (color : Bool) (d : Document) : Source := ⟨d.source, some d.filename, color⟩

end Document

namespace Setup

/-- The table of a document, or a report of what is wrong with it. -/
def table (s : Setup) (d : Document) : Except Error Table :=
  d.table.mapError (d.problemSource s.color).explain

/-- Reads an input and makes the table of its document. -/
def parse (s : Setup) (version : Yaml.Version) (input : Input) : Except Error Table × Yaml.Version :=
  let (document, version) := s.read version input
  (document >>= s.table, version)

/-- Makes the table of an input with a reader that has read nothing before. -/
def parseOnce (s : Setup) (input : Input) : Except Error Table :=
  (s.parse .v12 input).1

end Setup

end DesignTokens
