/-
  YamlSplice.Edit.Stream.Basic — a text as a sequence of documents.

  A document starts behind a separator line: three hyphens, which blanks and anything else on the
  line may follow. The first document has no separator. New keys go into the first document, or
  into the second if the first is blank.
  - `join_split`: cutting and joining loses nothing.
  - `split_ne_nil`: there is always a first document, and it has no separator.
-/

import YamlSplice.Text.Blank

namespace YamlSplice

/-- A document of a stream and the separator line before it. -/
structure Document where
  separator : Text
  body : Text
  deriving DecidableEq, Repr

namespace Stream

/-- The line, given without its newline, separates documents. -/
def isSeparator (line : Text) : Bool :=
  match line with
  | '-' :: '-' :: '-' :: rest =>
    match rest with
    | [] => true
    | c :: _ => c == ' ' || c == '\t'
  | _ => false

/-- The text before the first separator, and the documents from there on. The last line has no
    newline, so it never separates. -/
def splitLines : List Text → Text × List Document
  | [] => ([], [])
  | [last] => (last, [])
  | line :: next :: more =>
    let (body, later) := splitLines (next :: more)
    if isSeparator line then ([], ⟨line ++ ['\n'], body⟩ :: later) else (line ++ '\n' :: body, later)

/-- The documents of a text. -/
def split (text : Text) : List Document :=
  let (body, later) := splitLines (Text.lines text)
  ⟨[], body⟩ :: later

/-- The text of documents. -/
def join (documents : List Document) : Text := documents.flatMap fun d => d.separator ++ d.body

/-- The place of the document that takes new keys; no documents have none. -/
def placeForNew? : List Document → Option Nat
  | [] => none
  | [_] => some 0
  | first :: _ => some (if Text.hasContent first.body then 0 else 1)

/-! ## Cutting and joining -/

theorem splitLines_join (ls : List Text) :
    (splitLines ls).1 ++ join (splitLines ls).2 = Text.unlines ls := by
  induction ls with
  | nil => rfl
  | cons line rest ih =>
    cases rest with
    | nil => simp [splitLines, join, Text.unlines, Text.glue]
    | cons next more =>
      unfold splitLines
      simp only [Text.unlines, Text.glue] at ih ⊢
      rw [← ih]
      split <;> simp [join]

theorem join_split (text : Text) : join (split text) = text := by
  have h := splitLines_join (Text.lines text)
  rw [Text.unlines_lines] at h
  simpa [split, join] using h

theorem split_ne_nil (text : Text) : split text ≠ [] := by simp [split]

end Stream
end YamlSplice
