/-
  YamlSplice.Yaml.Outline — a value as tagged nodes to be written.

  Scalars have their text, collections their parts in order. A mapping stands for a set by absent
  values. A node that may be shared, a date, a moment or a set, can be labelled by where it comes
  from; nodes of one label are one node, written once and referred to afterwards.
-/

import YamlSplice.Yaml.Tag
import YamlSplice.Text.Base64
import YamlSplice.Decimal.Notation
import YamlSplice.Value.Basic

namespace YamlSplice.Yaml

inductive Outline where
  /-- `literal` asks for a literal block. -/
  | scalar (tag : Tag) (text : Text) (literal : Bool) (label : Option Nat)
  | sequence (items : List Outline)
  | mapping (isSet : Bool) (entries : List (Outline × Outline)) (label : Option Nat)
  deriving Inhabited

namespace Outline

/-! ## Scalars -/

/-- The text of a floating-point number: a number without a point gets one in front of its exponent,
    and the special ones have words with a point. -/
def floatText (x : Float) : Text :=
  match Decimal.ofFloat x with
  | ['n', 'a', 'n'] => ".nan".toList
  | ['i', 'n', 'f'] => ".inf".toList
  | ['-', 'i', 'n', 'f'] => "-.inf".toList
  | text =>
    if text.contains '.' then text
    else text.flatMap fun c => if c == 'e' then ['.', '0', 'e'] else [c]

/-- A scalar without label. -/
def plain (tag : Tag) (text : Text) : Outline := scalar tag text false none

/-! ## Values -/

/-- The next label, if labels are given. -/
def nextLabel : StateT (List Nat) (Except Value) (Option Nat) := do
  match ← get with
  | [] => return none
  | label :: more =>
    set more
    return some label

mutual

/-- The nodes of a value; labels are given for the dates, moments and sets in their order. The error
    is the part that cannot be written. -/
def ofValue : Value → StateT (List Nat) (Except Value) Outline
  | .null => return plain .null "null".toList
  | .bool b => return plain .bool (if b then "true".toList else "false".toList)
  | .int n => return plain .int (Text.ofInt n)
  | .float x => return plain .float (floatText x)
  | .str text => return plain .str text
  | .bytes content => return scalar .binary (Text.Base64.encode content) true none
  | .date d => do return scalar .timestamp d.isoText false (← nextLabel)
  | .moment t => do return scalar .timestamp (t.isoText ' ') false (← nextLabel)
  | .list items => do return sequence (← ofItems items)
  | .tuple items => do return sequence (← ofItems items)
  | .map entries => do return mapping false (← ofEntries entries) none
  | .set members => do
    let label ← nextLabel
    return mapping true (← ofMembers members) label
  | .foreign name => throw (.foreign name)
  | .back shape => throw (.back shape)

def ofItems : List Value → StateT (List Nat) (Except Value) (List Outline)
  | [] => return []
  | x :: rest => do
    let node ← ofValue x
    return node :: (← ofItems rest)

def ofEntries : List (Value × Value) → StateT (List Nat) (Except Value) (List (Outline × Outline))
  | [] => return []
  | (k, v) :: rest => do
    let key ← ofValue k
    let value ← ofValue v
    return (key, value) :: (← ofEntries rest)

def ofMembers : List Value → StateT (List Nat) (Except Value) (List (Outline × Outline))
  | [] => return []
  | x :: rest => do
    let key ← ofValue x
    return (key, plain .null "null".toList) :: (← ofMembers rest)

end

/-! ## Shared nodes -/

/-- Labels met so far, and those met more than once in the order in which this came out. -/
structure Sharing where
  met : List Nat := []
  shared : List Nat := []

/-- Meets a label; `true` says that it was met before. -/
def Sharing.meet (s : Sharing) : Option Nat → Sharing × Bool
  | none => (s, false)
  | some label =>
    if s.met.contains label then
      (if s.shared.contains label then s else { s with shared := s.shared ++ [label] }, true)
    else ({ s with met := label :: s.met }, false)

mutual

/-- Meets the labels of a node; what is inside a node is met only once. -/
def meet : Outline → Sharing → Sharing
  | scalar _ _ _ label, s => (s.meet label).1
  | sequence items, s => meetItems items s
  | mapping _ entries label, s =>
    let (s, again) := s.meet label
    if again then s else meetEntries entries s

def meetItems : List Outline → Sharing → Sharing
  | [], s => s
  | x :: rest, s => meetItems rest (meet x s)

def meetEntries : List (Outline × Outline) → Sharing → Sharing
  | [], s => s
  | (k, v) :: rest, s => meetEntries rest (meet v (meet k s))

end

/-- The labels of an outline that are met more than once. -/
def sharedLabels (o : Outline) : List Nat := (meet o {}).shared

end Outline
end YamlSplice.Yaml
