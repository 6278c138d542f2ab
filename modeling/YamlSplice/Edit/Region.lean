/-
  YamlSplice.Edit.Region — the region of a text that a key and its value take up.

  A key line starts with the key, then blanks, then a colon. The value begins behind the colon, or
  on the next line if nothing but blanks is left of the key line and the next line continues it. It
  goes on over the lines that are empty or start with a space, a hyphen or a number sign, and ends
  with the newline of the last of them. The region starts at the newline before the key line.
  - `afterColon?_eq_some`: what a key line is.
  - `takeValue_isPrefix`: the value is a leading part of the text.
-/

import YamlSplice.Text.Blank

namespace YamlSplice

/-- A located key: the region from `start` to `stop`, the newline at its start if the key line is
    not the first, and the value. -/
structure Region where
  start : Nat
  stop : Nat
  lead : Text
  value : Text
  deriving DecidableEq, Repr

namespace Region

/-- A line that starts with this character continues the value above it. -/
def continues (c : Char) : Bool := c == '\n' || c == '-' || c == ' ' || c == '#'

/-- What follows the colon, if the text starts with a key line. -/
def afterColon? (key text : Text) : Option Text :=
  match Text.after? key text with
  | none => none
  | some rest =>
    match rest.dropWhile Text.isInlineBlank with
    | ':' :: more => some more
    | _ => none

/-- Leaves out the rest of the key line if it is blank and the next line continues the value. -/
def dropHeader (text : Text) : Text :=
  match text.dropWhile Text.isInlineBlank with
  | '\n' :: c :: rest => if continues c then c :: rest else text
  | _ => text

/-- The value at the start of a text: up to the newline after which no line continues it. -/
def takeValue : Text → Text
  | [] => []
  | c :: rest =>
    if c = '\n' then
      match rest with
      | [] => ['\n']
      | d :: _ => if continues d then '\n' :: takeValue rest else ['\n']
    else c :: takeValue rest

/-- The region of a key line at the start of `line`, which is `start` characters and the lead into
    the text. -/
def at? (key : Text) (start : Nat) (lead line : Text) : Option Region :=
  (afterColon? key line).map fun rest =>
    let body := dropHeader rest
    let value := takeValue body
    ⟨start, start + lead.length + (line.length - body.length) + value.length, lead, value⟩

/-- The first key line behind a newline; `text` is `start` characters into the whole. -/
def findFrom (key : Text) (start : Nat) : Text → Option Region
  | [] => none
  | c :: rest =>
    if c = '\n' then
      match at? key start ['\n'] rest with
      | some region => some region
      | none => findFrom key (start + 1) rest
    else findFrom key (start + 1) rest

/-- The region of the first key line. -/
def ofKey? (key text : Text) : Option Region :=
  match at? key 0 [] text with
  | some region => some region
  | none => findFrom key 0 text

/-- The text with another text in place of a region; the newline before it is kept. -/
def splice (region : Region) (text replacement : Text) : Text :=
  text.take region.start ++ region.lead ++ replacement ++ text.drop region.stop

/-! ## Key lines and values -/

theorem afterColon?_eq_some {key text rest : Text} (h : afterColon? key text = some rest) :
    ∃ blanks, blanks.all Text.isInlineBlank = true ∧ text = key ++ blanks ++ ':' :: rest := by
  unfold afterColon? at h
  cases hp : Text.after? key text with
  | none => simp [hp] at h
  | some tail =>
    simp only [hp] at h
    have htext : text = key ++ tail := Text.after?_eq_some_iff.mp hp
    split at h
    · next more hd =>
      cases h
      refine ⟨tail.takeWhile Text.isInlineBlank, List.all_takeWhile, ?_⟩
      rw [htext, List.append_assoc, ← hd, List.takeWhile_append_dropWhile]
    · cases h

/-- The value is a leading part of the text. -/
theorem takeValue_isPrefix (text : Text) : takeValue text <+: text := by
  induction text with
  | nil => exact List.prefix_rfl
  | cons c rest ih =>
    unfold takeValue
    split
    · next h =>
      subst h
      split
      · exact List.prefix_rfl
      · split
        · exact (List.prefix_cons_inj _).mpr ih
        · exact ⟨_, rfl⟩
    · exact (List.prefix_cons_inj _).mpr ih

end Region
end YamlSplice
