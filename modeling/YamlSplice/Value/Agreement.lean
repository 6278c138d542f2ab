/-
  YamlSplice.Value.Agreement — keys found by their written form, and values that need no update.

  A key of a document may have been read as a number or a truth value although an update names it
  by text, so keys are compared by the form they were written in. A current value agrees with a
  desired one if writing the desired one would change nothing.
-/

import YamlSplice.Value.Equality
import YamlSplice.Value.Display

namespace YamlSplice.Value

/-- The form a key has in a document: truth values in small letters. -/
def keyText : Value → Text
  | bool b => (if b then "true" else "false").toList
  | key => written key

/-- A key of a document is the key that an update names. -/
def isCalled (candidate key : Value) : Bool :=
  (same candidate key && candidate.type == key.type) || keyText candidate == written key

/-- The value of a key: an entry whose key has the type of the sought one comes first, else the
    first whose key reads the same. -/
def valueUnder? (entries : List (Value × Value)) (key : Value) : Option Value :=
  let found := entries.filter fun e => isCalled e.1 key
  match found.find? (fun e => e.1.type == key.type) with
  | some e => some e.2
  | none => found.head?.map (·.2)

mutual

/-- The current value is what an update asks for. Truth values never equal numbers, tuples count as
    lists, and mapping keys are compared by their written form. -/
def agrees (current : Value) : Value → Bool
  | bool b =>
    match current with
    | bool a => a == b
    | _ => false
  | map desired =>
    match current with
    | map entries => entries.length == desired.length && agreesEntries entries desired
    | _ => false
  | list desired =>
    match current with
    | list items | tuple items => agreesItems items desired
    | _ => false
  | tuple desired =>
    match current with
    | list items | tuple items => agreesItems items desired
    | _ => false
  | int n =>
    match current with
    | int _ | float _ => same current (int n)
    | _ => false
  | float x =>
    match current with
    | int _ | float _ => same current (float x)
    | _ => false
  | desired => current.type == desired.type && same current desired

/-- Items agree in pairs, with none left over. -/
def agreesItems : List Value → List Value → Bool
  | [], [] => true
  | c :: cs, d :: ds => agrees c d && agreesItems cs ds
  | _, _ => false

/-- Every desired entry is found, and agrees. -/
def agreesEntries (entries : List (Value × Value)) : List (Value × Value) → Bool
  | [] => true
  | (k, v) :: rest =>
    (match valueUnder? entries k with
      | some existing => agrees existing v
      | none => false) && agreesEntries entries rest

end

end YamlSplice.Value
