/-
  YamlSplice.Proofs.Reading.Rows — texts made of whole rows of a mapping.

  A reader reads a block mapping row by row. What a row is, is left to the reader; the edits rely on
  two rules alone (`RowReading`): whole rows are read as the mapping of their entries, and whole rows
  may stand below each other, if the lower ones start as a row does.
-/

import YamlSplice.Edit.Render
import YamlSplice.Yaml.Character

namespace YamlSplice

namespace Value

/-- The value of a document that holds a mapping, or nothing if the mapping would be empty. -/
def Holds (loaded : Value) (entries : List (Value × Value)) : Prop :=
  loaded = .map entries ∨ loaded = .null ∧ entries = []

end Value

/-- A text of the rows of a mapping, from the first column on. -/
abbrev RowText := Text → List (Value × Value) → Prop

/-- The text starts as a row does: not with white space, a comment, a directive, or the mark of a
    document. -/
def Text.startsRow : Text → Bool
  | [] => true
  | c :: rest =>
    !(Yaml.isWhite c || Yaml.isBreak c || c == '#' || c == '%' || c == '\uFEFF')
      && !Yaml.atDocumentMark (c :: rest)

/-- How rows are read. -/
structure RowReading (format : Format) (Rows : RowText) : Prop where
  read {text : Text} {rows : List (Value × Value)} :
    Rows text rows → ∃ loaded, format.read text = .ok loaded ∧ loaded.Holds (Value.ofPairs rows)
  append {above below : Text} {rows more : List (Value × Value)} :
    Rows above rows → Rows below more → below.startsRow = true → Rows (above ++ below) (rows ++ more)

end YamlSplice
