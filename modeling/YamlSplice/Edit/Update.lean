/-
  YamlSplice.Edit.Update — setting, merging and removing one key of a document.

  The document is read to see whether it has the key and what the key holds; the change is then
  made in the text alone. An equal value leaves the text as it is. A simple value replaces the
  region of its key, a mapping is merged into a mapping key by key, in the block below the key
  taken to the margin. A new key goes to the end, before the blank lines there.
  - `applyAll_nil` / `applyAll_cons`: updates are made one after the other.
-/

import YamlSplice.Edit.Run
import YamlSplice.Edit.Render
import YamlSplice.Edit.Region
import YamlSplice.Edit.Margin
import YamlSplice.Value.Agreement

namespace YamlSplice.Edit

/-- The region of a key in a text that has to hold it. -/
def regionOf (key : Value) (text : Text) : Except Failure Region :=
  match key with
  | .str name =>
    match Region.ofKey? name text with
    | some region => .ok region
    | none => .error (.keyNotLocated name text)
  | _ => .error .keyNotText

/-- The text with `addition` at its end, before the blank lines there. -/
def append (text addition : Text) : Text :=
  match Text.trailingNewlines text with
  | [] => text ++ addition
  | _ :: blankLines => Text.dropTrailingNewlines text ++ '\n' :: addition ++ blankLines

/-- The text of a document without values, with an addition. -/
def fillEmpty (text addition : Text) : Text := (if text = ['\n'] then [] else text) ++ addition

variable (format : Format) (keep : Bool)

/-- Puts a value into the region of its key. -/
def replaceValue (key : Value) (value : Value) (region : Region) (text : Text) : Except Failure Text :=
  match key with
  | .str name => (Render.entryKeepingKey format keep name value).map (Region.splice region text)
  | _ => .error .keyNotText

mutual

/-- Sets a key of a document to a value, or removes it if the value is absent. -/
def apply (key : Value) (value : Value) (text : Text) : Run Text := do
  let name := key.written
  let whole := Text.closeLine text
  let current ← Run.ofExcept (format.read whole)
  match current with
  | .null =>
    match value.treatment with
    | .remove => return text
    | _ =>
      Run.note (.fillingEmpty name)
      return fillEmpty whole (← Run.ofExcept (Render.entry format keep key value))
  | .map entries =>
    match value.treatment, Value.valueUnder? entries key with
    | .remove, none => return text
    | .remove, some _ =>
      Run.note (.deleting name)
      return Region.splice (← Run.ofExcept (regionOf key whole)) whole []
    | .refuse, _ => Run.fail (.unsupportedValue value)
    | _, none =>
      Run.note (.appending name)
      return append whole (← Run.ofExcept (Render.entry format keep key value))
    | treatment, some existing =>
      if Value.agrees existing value then
        Run.note (.unchanged name)
        return text
      else
        let region ← Run.ofExcept (regionOf key whole)
        if treatment = .replace ∨ existing.treatment = .replace ∨ existing.treatment = .remove then
          Run.note (.replacing name)
          Run.ofExcept (replaceValue format keep key value region whole)
        else if existing.treatment = .merge then
          match value with
          | .map updates =>
            Run.note (.merging updates.length name)
            let block ← Margin.change name region.value (applyAll updates)
            return Region.splice region whole (name ++ ':' :: '\n' :: block)
          | _ => Run.fail (.unsupportedValue value)
        else Run.fail (.unsupportedCurrent name existing.type)
  | other => Run.fail (.documentNotMapping name other.type)

/-- Makes updates in order, each in the text that the one before left. -/
def applyAll : List (Value × Value) → Text → Run Text
  | [], text => pure text
  | (key, value) :: rest, text => do
    let changed ← apply key value text
    applyAll rest changed

end

/-! ## Sequences of updates -/

theorem applyAll_nil (text : Text) : applyAll format keep [] text = pure text := by
  simp [applyAll]

theorem applyAll_cons (key value : Value) (rest : List (Value × Value)) (text : Text) :
    applyAll format keep ((key, value) :: rest) text =
      apply format keep key value text >>= applyAll format keep rest := by
  simp only [applyAll]

end YamlSplice.Edit
