import DesignTokens.Yaml.Cursor

/-!
# Tokens of YAML

The tokens that a text is made of, each with the place where it starts and the place where it ends.
-/

namespace DesignTokens.Yaml

/-! ## Versions -/

/-- The versions of the language that have rules. -/
inductive Version where
  /-- Version 1.1. -/
  | v11
  /-- Version 1.2, which holds where no version is declared. -/
  | v12
deriving DecidableEq

def Version.ofNumbers? (major minor : Nat) : Option Version :=
  if (major, minor) = (1, 1) then some .v11
  else if (major, minor) = (1, 2) then some .v12
  else none

/-! ## Tokens -/

/-- A declaration in front of a document. -/
inductive Directive where
  /-- The version of the language, by its two numbers. -/
  | version (major minor : Nat)
  /-- The text that a tag handle stands for. -/
  | handle (handle expansion : String)
  /-- A declaration that means nothing here. -/
  | other

/-- A tag as it is written. -/
inductive TagText where
  /-- A whole tag. -/
  | verbatim (tag : String)
  /-- A handle, and what follows it. -/
  | shorthand (handle suffix : String)

inductive TokenKind where
  | textStart
  | textEnd
  /-- A declaration. -/
  | directive (d : Directive)
  /-- Three hyphens. -/
  | documentStart
  /-- Three points. -/
  | documentEnd
  /-- A sequence starts by indentation. -/
  | blockSequenceStart
  /-- A mapping starts by indentation. -/
  | blockMappingStart
  /-- A collection ends by indentation. -/
  | blockEnd
  /-- An opening square bracket. -/
  | sequenceOpen
  /-- An opening curly bracket. -/
  | mappingOpen
  /-- A closing square bracket. -/
  | sequenceClose
  /-- A closing curly bracket. -/
  | mappingClose
  /-- A key follows. -/
  | key
  /-- A value follows. -/
  | value
  /-- An entry of a sequence by indentation follows. -/
  | blockEntry
  /-- A comma. -/
  | flowEntry
  /-- A reference to an anchor. -/
  | alias (name : String)
  /-- A name for the node that follows. -/
  | anchor (name : String)
  /-- A tag for the node that follows. -/
  | tag (tag : TagText)
  /-- A scalar; `plain` says that it has neither quotation marks nor an indicator. -/
  | scalar (text : String) (plain : Bool)

/-- How messages name the kinds of tokens. -/
def TokenKind.name : TokenKind → String
  | .textStart => "<stream start>"
  | .textEnd => "<stream end>"
  | .directive _ => "<directive>"
  | .documentStart => "<document start>"
  | .documentEnd => "<document end>"
  | .blockSequenceStart => "<block sequence start>"
  | .blockMappingStart => "<block mapping start>"
  | .blockEnd => "<block end>"
  | .sequenceOpen => "["
  | .mappingOpen => "\x7b"
  | .sequenceClose => "]"
  | .mappingClose => "\x7d"
  | .key => "?"
  | .value => ":"
  | .blockEntry => "-"
  | .flowEntry => ","
  | .alias _ => "<alias>"
  | .anchor _ => "<anchor>"
  | .tag _ => "<tag>"
  | .scalar .. => "<scalar>"

/-- A token and its place. -/
structure Token where
  /-- What the token is. -/
  kind : TokenKind
  /-- The place where it starts. -/
  start : Mark
  /-- The place after its end. -/
  stop : Mark

end DesignTokens.Yaml
