/-
  YamlSplice.Edit.Stream.Update — updates of a text that may hold several documents.

  A key is updated in the first document that holds it, or else in the document that takes new
  keys. With the choice for every document it is updated in all documents that hold anything, or
  if there are none, in the one that takes new keys. Which documents these are is found out anew
  for every key, except that the place for new keys is that of the text as it was given.
-/

import YamlSplice.Edit.Update
import YamlSplice.Edit.Stream.Basic

namespace YamlSplice.Edit

variable (format : Format) (settings : Settings)

/-- The first document that holds a key; documents behind it are not read. -/
def holder? (key : Value) : Nat → List Document → Except Failure (Option Nat)
  | _, [] => .ok none
  | i, d :: later => do
    match ← format.read d.body with
    | .map entries =>
      match Value.valueUnder? entries key with
      | some _ => return some i
      | none => holder? key (i + 1) later
    | _ => holder? key (i + 1) later

/-- The documents that hold anything; all are read. -/
def filledFrom : Nat → List Document → Except Failure (List Nat)
  | _, [] => .ok []
  | i, d :: later => do
    match ← format.read d.body with
    | .null => filledFrom (i + 1) later
    | _ => return i :: (← filledFrom (i + 1) later)

/-- The documents in which a key is to be updated; `place` is the one for new keys. -/
def targets (key : Value) (place : Nat) (documents : List Document) : Except Failure (List Nat) :=
  if settings.everyDocument then do
    match ← filledFrom format 0 documents with
    | [] => return [place]
    | found => return found
  else do
    return [(← holder? format key 0 documents).getD place]

/-- Updates a key in one document. -/
def applyAt (key value : Value) (documents : List Document) (i : Nat) : Run (List Document) := do
  Run.note (.updatingDocument key.written i)
  match documents[i]? with
  | none => return documents
  | some d =>
    let body ← apply format settings.keepIndent key value d.body
    return documents.set i { d with body }

/-- Updates a key in several documents, in order. -/
def applyEach (key value : Value) : List Nat → List Document → Run (List Document)
  | [], documents => pure documents
  | i :: rest, documents => do
    let changed ← applyAt format settings key value documents i
    applyEach key value rest changed

/-- Makes updates in the documents of a stream, in order. -/
def applyInTurn (place : Nat) : List (Value × Value) → List Document → Run (List Document)
  | [], documents => pure documents
  | (key, value) :: rest, documents => do
    let found ← Run.ofExcept (targets format settings key place documents)
    let changed ← applyEach format settings key value found documents
    applyInTurn place rest changed

/-- Makes updates in a text that may hold several documents. -/
def applyToStream (updates : List (Value × Value)) (text : Text) : Run Text := do
  let documents := Stream.split text
  let place := (Stream.placeForNew? documents).getD 0
  return Stream.join (← applyInTurn format settings place updates documents)

end YamlSplice.Edit
