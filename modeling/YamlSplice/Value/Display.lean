/-
  YamlSplice.Value.Display — values in messages, and the written form of keys.

  `shown` is the form that tells types apart: text in quotes, dates and moments by their parts,
  collections in brackets. `written` is the plain form, in which text stands for itself and a date
  is written with hyphens.
-/

import YamlSplice.Value.Basic
import YamlSplice.Decimal.Notation
import YamlSplice.Text.Quoted

namespace YamlSplice

/-- Numbers between commas. -/
def commaNumbers (ns : List Nat) : Text := Text.glue ", ".toList (ns.map Text.ofNat)

/-- A date by its parts. -/
def Date.shown (d : Date) : Text :=
  "datetime.date(".toList ++ commaNumbers [d.year, d.month, d.day] ++ [')']

/-- An offset in whole days, rounded down, and the seconds above them. -/
def offsetShown (offset : Int) : Text :=
  if offset = 0 then "datetime.timezone.utc".toList
  else
    let days := Int.fdiv offset 86400
    let seconds := offset - days * 86400
    let parts := (if days = 0 then [] else ["days=".toList ++ Text.ofInt days])
      ++ (if seconds = 0 then [] else ["seconds=".toList ++ Text.ofInt seconds])
    "datetime.timezone(datetime.timedelta(".toList ++ Text.glue ", ".toList parts ++ "))".toList

/-- A moment by its parts; seconds are left out if they and the microseconds are zero. -/
def DateTime.shown (t : DateTime) : Text :=
  let small :=
    if t.micro ≠ 0 then [t.second, t.micro] else if t.second ≠ 0 then [t.second] else []
  "datetime.datetime(".toList
    ++ commaNumbers ([t.date.year, t.date.month, t.date.day, t.hour, t.minute] ++ small)
    ++ (t.offset.map fun o => ", tzinfo=".toList ++ offsetShown o).getD [] ++ [')']

namespace Value

mutual

/-- The form of a value that shows its type. -/
def shown : Value → Text
  | null => "None".toList
  | bool b => (if b then "True" else "False").toList
  | int n => Text.ofInt n
  | float x => Decimal.ofFloat x
  | str text => Text.quoted text
  | date d => d.shown
  | moment t => t.shown
  | bytes content => Text.quotedBytes content
  | list items => '[' :: Text.glue ", ".toList (shownItems items) ++ [']']
  | tuple items =>
    match shownItems items with
    | [only] => '(' :: only ++ ",)".toList
    | all => '(' :: Text.glue ", ".toList all ++ [')']
  | map entries => '{' :: Text.glue ", ".toList (shownEntries entries) ++ ['}']
  | set members =>
    match shownItems members with
    | [] => "set()".toList
    | all => '{' :: Text.glue ", ".toList all ++ ['}']
  | foreign name => "<opaque ".toList ++ name ++ ['>']
  | back .sequence => "[...]".toList
  | back .mapping => '{' :: "...".toList ++ ['}']

def shownItems : List Value → List Text
  | [] => []
  | x :: rest => shown x :: shownItems rest

def shownEntries : List (Value × Value) → List Text
  | [] => []
  | (k, v) :: rest => (shown k ++ ": ".toList ++ shown v) :: shownEntries rest

end

/-- The plain form of a value. -/
def written : Value → Text
  | str text => text
  | date d => d.isoText
  | moment t => t.isoText ' '
  | value => shown value

end Value
end YamlSplice
