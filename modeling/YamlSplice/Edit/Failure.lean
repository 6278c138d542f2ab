/-
  YamlSplice.Edit.Failure — why an edit was refused, and the messages.

  A failure is a cause: what was asked for and what stood in the way. The wording is in `message`
  alone.
-/

import YamlSplice.Value.Display
import YamlSplice.Json.Fault
import YamlSplice.Yaml.Fault

namespace YamlSplice

/-- Why a setting was refused: the value is of no use for a choice, or is not one of the known
    spellings of yes and no. -/
inductive SettingCause where
  | notChoice
  | unknownSpelling
  deriving DecidableEq, Repr

inductive SettingFault where
  /-- The settings are not a mapping. -/
  | notMapping
  /-- The setting of this name, as it was spelled. -/
  | field (name : Text) (cause : SettingCause)
  deriving DecidableEq, Repr

inductive Failure where
  /-- The text is not a YAML document. -/
  | notYaml (text : Text)
  /-- A scalar of the document does not have the value that its tag promises. -/
  | badScalar (fault : Yaml.ScalarFault)
  /-- The updates are not a JSON document. -/
  | notJson (json : Text) (fault : Json.Fault)
  | updatesNotObject (json : Text)
  /-- The document has the key, but no line of the text starts with it. -/
  | keyNotLocated (key text : Text)
  /-- No line of the block shows how far its elements are indented. -/
  | noIndent (key block : Text)
  /-- Only keys that are text can be located. -/
  | keyNotText
  | documentNotMapping (key : Text) (type : ValueType)
  /-- No update can ask for the value. -/
  | unsupportedValue (value : Value)
  /-- The current value of a key can be neither replaced nor merged. -/
  | unsupportedCurrent (key : Text) (type : ValueType)
  /-- An entry cannot be written because of a part of it. -/
  | unwritableEntry (key : Text) (value part : Value)
  | unwritable (value part : Value)
  | badSettings (faults : List SettingFault)

namespace Failure

/-- What is said of the part of a value that cannot be written. -/
def unwritablePart (part : Value) : Text :=
  "('cannot represent an object', ".toList ++ part.shown ++ [')']

/-- The wording of a failure. -/
def message : Failure → Text
  | notYaml text => "failed to parse YAML '".toList ++ text ++ ['\'']
  | badScalar _ => "a scalar has no value of its type".toList
  | notJson json fault =>
    "failed to parse update JSON '".toList ++ json ++ "': ".toList ++ fault.message json
  | updatesNotObject json => "update JSON '".toList ++ json ++ "' is not an object".toList
  | keyNotLocated key text =>
    "failed to match key ".toList ++ key ++ " in current YAML: ".toList ++ text
  | noIndent key block =>
    "failed to match indentation for elements of key ".toList ++ key ++ ": ".toList ++ block
  | keyNotText => "only keys that are text can be located".toList
  | documentNotMapping key type =>
    "cannot update key ".toList ++ key ++ " in YAML document of type ".toList ++ type.name
  | unsupportedValue value =>
    "cannot update YAML with value (".toList ++ value.shown ++ ") of type ".toList ++ value.type.name
  | unsupportedCurrent key type =>
    "cannot update current YAML key ".toList ++ key ++ " of type ".toList ++ type.name
  | unwritableEntry key value part =>
    "failed to create YAML for \x7b".toList ++ key ++ ": ".toList ++ value.shown ++ "\x7d: ".toList
      ++ unwritablePart part
  | unwritable value part =>
    "failed to create YAML for '".toList ++ value.shown ++ "': ".toList ++ unwritablePart part
  | badSettings _ => "the settings are not valid".toList

end Failure
end YamlSplice
