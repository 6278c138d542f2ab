/-
  YamlSplice.Operations — what the library does.

  Every operation takes the settings as they were given and refuses bad ones before anything else;
  only updates in JSON are read before the settings.
-/

import YamlSplice.Edit.Stream.Update
import YamlSplice.Json.Decode
import YamlSplice.Yaml.Graph.Value
import YamlSplice.Yaml.Write

namespace YamlSplice

/-- A fault of a document as a failure of the operation on it. -/
def Failure.ofFault (text : Text) : Yaml.Fault → Failure
  | .malformed => .notYaml text
  | .scalar fault => .badScalar fault

/-- Reading and writing YAML. -/
def Format.yaml : Format where
  read text := (Yaml.read text).mapError (Failure.ofFault text)
  write := Yaml.write

/-- The value of a document. -/
def readValue (text : Text) : Except Failure Value := Format.yaml.read text

/-- The updates of a JSON object. -/
def updatesOfJson (json : Text) : Run (List (Value × Value)) := do
  match Json.decode json with
  | .error fault => Run.fail (.notJson json fault)
  | .ok (.map updates) =>
    Run.note (.decoded updates.length)
    return updates
  | .ok _ => Run.fail (.updatesNotObject json)

/-- Sets, merges or removes one key of a document. -/
def editKey (key value : Value) (text : Text) (given : Value) : Run Text := do
  let settings ← Run.ofExcept (Settings.ofValue given)
  Edit.apply Format.yaml settings.keepIndent key value text

/-- Makes updates in a document, in order. -/
def editDocument (updates : List (Value × Value)) (text : Text) (given : Value) : Run Text := do
  let settings ← Run.ofExcept (Settings.ofValue given)
  Edit.applyAll Format.yaml settings.keepIndent updates text

/-- Makes updates in a text of several documents, in order. -/
def editStream (updates : List (Value × Value)) (text : Text) (given : Value) : Run Text := do
  let settings ← Run.ofExcept (Settings.ofValue given)
  Edit.applyToStream Format.yaml settings updates text

/-- Makes the updates of a JSON object in a document. -/
def editByJson (json text : Text) (given : Value) : Run Text := do
  let updates ← updatesOfJson json
  editDocument updates text given

/-- An entry of a mapping as text. -/
def writeEntry (key value : Value) (given : Value) : Except Failure Text := do
  let settings ← Settings.ofValue given
  Render.entry Format.yaml settings.keepIndent key value

/-- A value as text. -/
def writeValue (value : Value) (given : Value) : Except Failure Text := do
  let settings ← Settings.ofValue given
  Render.value Format.yaml settings.keepIndent value

/-- A document read and written again. Dates, moments and sets that it shares stay shared. -/
def reformat (text : Text) (given : Value) : Except Failure Text := do
  let reading ← (Yaml.readShared text).mapError (Failure.ofFault text)
  let settings ← Settings.ofValue given
  let format := { Format.yaml with write := fun value => Yaml.writeShared value reading.origins }
  Render.value format settings.keepIndent reading.value

end YamlSplice
