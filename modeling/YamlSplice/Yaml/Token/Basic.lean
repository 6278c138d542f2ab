/-
  YamlSplice.Yaml.Token.Basic — the tokens of a document.

  Indentation is told by tokens that open and close block collections. A simple key is preceded by
  a key token although nothing stands for it in the text.
-/

import YamlSplice.Text.Basic

namespace YamlSplice.Yaml

/-- A line before a document that starts with a percent sign. -/
inductive Directive where
  | version (major : Nat)
  /-- A handle, and what it stands for in tags. -/
  | handle (name meaning : Text)
  | other
  deriving DecidableEq, Repr

inductive Token where
  | streamEnd
  | directive (d : Directive)
  | documentStart
  | documentEnd
  | blockSequenceStart
  | blockMappingStart
  | blockEnd
  | flowSequenceStart
  | flowSequenceEnd
  | flowMappingStart
  | flowMappingEnd
  | blockEntry
  | flowEntry
  | key
  | value
  | alias (name : Text)
  | anchor (name : Text)
  /-- A tag by its suffix, behind a handle or on its own. -/
  | tag (handle : Option Text) (suffix : Text)
  | scalar (text : Text) (plain : Bool)
  deriving DecidableEq, Repr

end YamlSplice.Yaml
