/-
  YamlSplice.Value.Basic — the values that documents hold and that updates ask for.

  Mappings keep the order in which their keys first arrived. A value of a class that no rule knows
  is carried by name only. A document may refer back to a collection that encloses the reference;
  such a place is a `back` value, which equals nothing.
-/

import YamlSplice.Text.Basic
import YamlSplice.Calendar

namespace YamlSplice

/-- What a reference back to an enclosing collection leads to. -/
inductive Shape where
  | sequence
  | mapping
  deriving DecidableEq, Repr

inductive Value where
  | null
  | bool (b : Bool)
  | int (n : Int)
  | float (x : Float)
  | str (text : Text)
  | date (d : Date)
  | moment (t : DateTime)
  | bytes (content : List UInt8)
  | list (items : List Value)
  | tuple (items : List Value)
  | map (entries : List (Value × Value))
  | set (members : List Value)
  | foreign (name : Text)
  | back (shape : Shape)
  deriving Inhabited

/-- How an update treats a value. -/
inductive Treatment where
  /-- Scalars and sequences, replaced as a whole. -/
  | replace
  /-- Mappings, merged key by key. -/
  | merge
  /-- The absent value, which asks for a key to be removed. -/
  | remove
  | refuse
  deriving DecidableEq, Repr

/-- The type of a value, by which unlike values are told apart. -/
inductive ValueType where
  | null | bool | int | float | str | date | moment | bytes | list | tuple | map | set | foreign
  deriving DecidableEq, Repr

namespace Value

def type : Value → ValueType
  | null => .null
  | bool _ => .bool
  | int _ => .int
  | float _ => .float
  | str _ => .str
  | date _ => .date
  | moment _ => .moment
  | bytes _ => .bytes
  | list _ => .list
  | tuple _ => .tuple
  | map _ => .map
  | set _ => .set
  | foreign _ => .foreign
  | back .sequence => .list
  | back .mapping => .map

/-- How an update treats the value. -/
def treatment : Value → Treatment
  | null => .remove
  | bool _ | int _ | float _ | str _ | date _ | moment _ | list _ | tuple _ | back .sequence => .replace
  | map _ | back .mapping => .merge
  | bytes _ | set _ | foreign _ => .refuse

end Value

/-- The name of a type in messages. -/
def ValueType.name : ValueType → Text
  | .null => "NoneType".toList
  | .bool => "bool".toList
  | .int => "int".toList
  | .float => "float".toList
  | .str => "str".toList
  | .date => "date".toList
  | .moment => "datetime".toList
  | .bytes => "bytes".toList
  | .list => "list".toList
  | .tuple => "tuple".toList
  | .map => "dict".toList
  | .set => "set".toList
  | .foreign => "Opaque".toList

end YamlSplice
