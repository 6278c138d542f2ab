/-
  YamlSplice.Text.Basic — text as a list of characters.

  Offsets, lengths and columns count code points. A line ends at a newline character and
  nowhere else: the YAML reader knows more line breaks, the edits on text know only this one.
  - `glue_pieces` / `unlines_lines`: cutting a text and joining the pieces loses nothing.
  - `pieces_glue` / `lines_unlines`: pieces that do not hold the separator are found again.
  - `after?_eq_some_iff`: what follows a leading text.
  - `dropTrailingNewlines_append`: a text is its trimmed form and its trailing newlines.
-/

namespace YamlSplice

abbrev Text := List Char

namespace Text

/-- The pieces between the separators; there is always at least one. -/
def pieces (sep : Char) : Text → List Text
  | [] => [[]]
  | c :: rest =>
    if c = sep then [] :: pieces sep rest
    else
      match pieces sep rest with
      | [] => [[c]]
      | piece :: more => (c :: piece) :: more

/-- Pieces joined by a separator. -/
def glue (sep : Text) : List Text → Text
  | [] => []
  | [piece] => piece
  | piece :: next :: more => piece ++ sep ++ glue sep (next :: more)

/-- The pieces between the newlines. -/
def lines (text : Text) : List Text := pieces '\n' text

/-- Lines joined by newlines. -/
def unlines (ls : List Text) : Text := glue ['\n'] ls

/-- What follows `lead` in a text that starts with it. -/
def after? : Text → Text → Option Text
  | [], text => some text
  | _ :: _, [] => none
  | c :: lead, d :: text => if c = d then after? lead text else none

/-- The text starts with `lead`. -/
def startsWith (text lead : Text) : Bool := (after? lead text).isSome

/-- The text ends with a newline. -/
def endsLine (text : Text) : Bool := text.getLast? == some '\n'

/-- The text with a final newline, added if it is missing. -/
def closeLine (text : Text) : Text := if endsLine text then text else text ++ ['\n']

/-- The text without its trailing newlines. -/
def dropTrailingNewlines (text : Text) : Text := (text.reverse.dropWhile (· == '\n')).reverse

/-- The run of newlines that the text ends with. -/
def trailingNewlines (text : Text) : Text := text.reverse.takeWhile (· == '\n')

/-- The decimal digits of a natural number. -/
def ofNat (n : Nat) : Text := (toString n).toList

/-- The decimal digits of an integer, behind a minus sign if it is negative. -/
def ofInt (n : Int) : Text := if n < 0 then '-' :: ofNat n.natAbs else ofNat n.natAbs

/-- The decimal digits of `n`, with zeros in front up to `width` places. -/
def padded (width n : Nat) : Text :=
  let digits := ofNat n
  List.replicate (width - digits.length) '0' ++ digits

/-- ASCII capitals become small letters; every other character stays. -/
def lowerAscii (text : Text) : Text := text.map Char.toLower

/-! ## Leading text -/

theorem after?_eq_some_iff {lead text rest : Text} : after? lead text = some rest ↔ text = lead ++ rest := by
  induction lead generalizing text with
  | nil => simp [after?, eq_comm]
  | cons c lead ih =>
    cases text with
    | nil => simp [after?]
    | cons d text =>
      by_cases h : c = d
      · subst h; simp [after?, ih]
      · simp [after?, h, Ne.symm h]

theorem startsWith_iff {text lead : Text} : startsWith text lead = true ↔ ∃ rest, text = lead ++ rest := by
  simp only [startsWith, Option.isSome_iff_exists, after?_eq_some_iff]

/-! ## Pieces and lines -/

theorem pieces_ne_nil (sep : Char) (text : Text) : pieces sep text ≠ [] := by
  cases text with
  | nil => simp [pieces]
  | cons c rest =>
    unfold pieces
    split
    · simp
    · split <;> simp

theorem glue_pieces (sep : Char) (text : Text) : glue [sep] (pieces sep text) = text := by
  induction text with
  | nil => rfl
  | cons c rest ih =>
    unfold pieces
    cases hp : pieces sep rest with
    | nil => exact absurd hp (pieces_ne_nil sep rest)
    | cons piece more =>
      rw [hp] at ih
      by_cases h : c = sep
      · simp [h, glue, ih]
      · cases more with
        | nil => simpa [h, glue] using ih
        | cons next more => simpa [h, glue] using ih

theorem pieces_of_not_mem {sep : Char} {piece : Text} (h : sep ∉ piece) :
    pieces sep piece = [piece] := by
  induction piece with
  | nil => rfl
  | cons c rest ih =>
    simp only [List.mem_cons, not_or] at h
    have hc : ¬ c = sep := fun e => h.1 e.symm
    simp [pieces, hc, ih h.2]

theorem pieces_append_sep (sep : Char) (text rest : Text) :
    pieces sep (text ++ sep :: rest) = pieces sep text ++ pieces sep rest := by
  induction text with
  | nil => simp [pieces]
  | cons c text ih =>
    by_cases hc : c = sep
    · simp [pieces, hc, ih]
    · obtain ⟨first, more, hpieces⟩ := List.exists_cons_of_ne_nil (pieces_ne_nil sep text)
      simp [pieces, hc, ih, hpieces]

theorem pieces_append_cons {sep : Char} {piece : Text} (h : sep ∉ piece) (rest : Text) :
    pieces sep (piece ++ sep :: rest) = piece :: pieces sep rest := by
  rw [pieces_append_sep, pieces_of_not_mem h]
  rfl

theorem pieces_glue {sep : Char} {ps : List Text} (hne : ps ≠ []) (h : ∀ p ∈ ps, sep ∉ p) :
    pieces sep (glue [sep] ps) = ps := by
  induction ps with
  | nil => exact absurd rfl hne
  | cons piece more ih =>
    cases more with
    | nil => simpa [glue] using pieces_of_not_mem (h piece (by simp))
    | cons next more =>
      have htail := ih (by simp) (fun p hp => h p (List.mem_cons_of_mem _ hp))
      simp only [glue, List.append_assoc, List.singleton_append]
      rw [pieces_append_cons (h piece (by simp)), htail]

theorem unlines_lines (text : Text) : unlines (lines text) = text := glue_pieces '\n' text

theorem lines_unlines {ls : List Text} (hne : ls ≠ []) (h : ∀ line ∈ ls, '\n' ∉ line) :
    lines (unlines ls) = ls := pieces_glue hne h

/-! ## Final newlines -/

theorem closeLine_of_endsLine {text : Text} (h : endsLine text = true) : closeLine text = text := if_pos h

theorem trailingNewlines_eq_replicate (text : Text) :
    trailingNewlines text = List.replicate (trailingNewlines text).length '\n' := by
  refine List.eq_replicate_iff.mpr ⟨rfl, fun c hc => ?_⟩
  have hall : (trailingNewlines text).all (· == '\n') = true := List.all_takeWhile
  simpa using List.all_eq_true.mp hall c hc

theorem dropTrailingNewlines_append (text : Text) :
    dropTrailingNewlines text ++ trailingNewlines text = text := by
  have hrev : (trailingNewlines text).reverse = trailingNewlines text := by
    rw [trailingNewlines_eq_replicate, List.reverse_replicate]
  have h := congrArg List.reverse
    (List.takeWhile_append_dropWhile (p := (· == '\n')) (l := text.reverse))
  rw [List.reverse_append, List.reverse_reverse] at h
  rw [← hrev]
  exact h

theorem dropTrailingNewlines_line {text : Text} (h : '\n' ∉ text) : dropTrailingNewlines (text ++ ['\n']) = text := by
  have hkept : text.reverse.dropWhile (· == '\n') = text.reverse := by
    cases hreverse : text.reverse with
    | nil => rfl
    | cons c rest =>
      have hmem : c ∈ text := List.mem_reverse.mp (hreverse ▸ List.mem_cons_self)
      have hne : c ≠ '\n' := fun hc => h (hc ▸ hmem)
      simp [hne]
  simp [dropTrailingNewlines, hkept]

end Text
end YamlSplice
