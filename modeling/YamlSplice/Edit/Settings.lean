/-
  YamlSplice.Edit.Settings — the choices of a caller, and how they are read.

  Settings come as a mapping in which each has two spellings; the spelling with capitals wins, and
  the other is then not looked at. Unknown names are ignored. A choice is a truth value, the
  number 0 or 1, or one of the known words in any case of letters.
-/

import YamlSplice.Edit.Failure
import YamlSplice.Value.Equality

namespace YamlSplice

structure Settings where
  /-- Sequences stay two columns to the right of their key. -/
  keepIndent : Bool := false
  /-- A stream update applies to every document. -/
  everyDocument : Bool := false
  deriving DecidableEq, Repr

namespace Settings

/-- The words for no and for yes. -/
def noWords : List Text := ["0", "off", "f", "false", "n", "no"].map String.toList

def yesWords : List Text := ["1", "on", "t", "true", "y", "yes"].map String.toList

/-- A choice spelled as a word, in any case of ASCII letters. -/
def choiceOfWord (word : Text) : Except SettingCause Bool :=
  let small := Text.lowerAscii word
  if noWords.contains small then .ok false
  else if yesWords.contains small then .ok true
  else .error .unknownSpelling

/-- A choice given as a whole number. Numbers of more than 64 bits are of no use. -/
def choiceOfInt (n : Int) : Except SettingCause Bool :=
  if n = 0 then .ok false
  else if n = 1 then .ok true
  else if -0x8000000000000000 ≤ n ∧ n < 0x8000000000000000 then .error .unknownSpelling
  else .error .notChoice

/-- The whole number that a quantity is, if it is one. -/
def wholeNumber? : Quantity → Option Int
  | .finite m q =>
    if 0 ≤ q then some (m * Nat.pow 2 q.toNat)
    else if m % Nat.pow 2 (-q).toNat = 0 then some (m / Nat.pow 2 (-q).toNat) else none
  | .infinite _ => none

/-- A choice. -/
def choice : Value → Except SettingCause Bool
  | .bool b => .ok b
  | .int n => choiceOfInt n
  | .float x =>
    match (Quantity.ofFloat? x).bind wholeNumber? with
    | some n => choiceOfInt n
    | none => .error .notChoice
  | .str word => choiceOfWord word
  | .bytes content => choiceOfWord (content.map fun b => Char.ofNat b.toNat)
  | _ => .error .notChoice

/-- The value under a name, first come first served. -/
def lookup (entries : List (Value × Value)) (name : Text) : Option Value :=
  (entries.find? fun e =>
    match e.1 with
    | .str s => s == name
    | _ => false).map (·.2)

/-- One setting by its two spellings, the first of which wins. -/
def field (entries : List (Value × Value)) (first second : Text) : Except SettingFault Bool :=
  let read (name : Text) (value : Value) : Except SettingFault Bool :=
    match choice value with
    | .ok b => .ok b
    | .error cause => .error (.field name cause)
  match lookup entries first with
  | some value => read first value
  | none =>
    match lookup entries second with
    | some value => read second value
    | none => .ok false

/-- The settings of a mapping; every fault is reported, in the order of the settings. -/
def ofEntries (entries : List (Value × Value)) : Except (List SettingFault) Settings :=
  match field entries "keepArrayIndent".toList "keep_array_indent".toList,
    field entries "updateAll".toList "update_all".toList with
  | .ok keep, .ok every => .ok ⟨keep, every⟩
  | .error a, .error b => .error [a, b]
  | .error a, .ok _ => .error [a]
  | .ok _, .error b => .error [b]

/-- The settings that a value gives; the absent value gives none. -/
def ofValue : Value → Except Failure Settings
  | .null => .ok {}
  | .map entries =>
    match ofEntries entries with
    | .ok settings => .ok settings
    | .error faults => .error (.badSettings faults)
  | _ => .error (.badSettings [.notMapping])

end Settings
end YamlSplice
