/-
  YamlSplice.Text.Blank — white space, as the edits on text see it, and trimming.

  Blank are the characters with the Unicode property White_Space (version 14) and the four
  information separators U+001C to U+001F. Numerals are trimmed of the property alone
  (`isSpacing`), so the separators are told apart.
  - `strip_eq_nil_iff`: trimming leaves nothing of blank text, and of no other.
-/

import YamlSplice.Text.Basic

namespace YamlSplice.Text

/-- A character with the Unicode property White_Space. -/
def isSpacing (c : Char) : Bool :=
  let n := c.toNat
  (9 ≤ n && n ≤ 13) || n == 32 || n == 0x85 || n == 0xA0 || n == 0x1680
    || (0x2000 ≤ n && n ≤ 0x200A) || n == 0x2028 || n == 0x2029 || n == 0x202F || n == 0x205F
    || n == 0x3000

/-- White space or an information separator. -/
def isBlank (c : Char) : Bool :=
  isSpacing c || (0x1C ≤ c.toNat && c.toNat ≤ 0x1F)

/-- A blank that does not end the line. -/
def isInlineBlank (c : Char) : Bool := isBlank c && c != '\n'

/-- The text without blanks at its two ends. -/
def strip (text : Text) : Text :=
  ((text.dropWhile isBlank).reverse.dropWhile isBlank).reverse

/-- Some character of the text is not blank. -/
def hasContent (text : Text) : Bool := text.any (!isBlank ·)

theorem dropWhile_eq_nil_of_all {p : Char → Bool} {text : Text} (h : text.all p = true) :
    text.dropWhile p = [] := by
  induction text with
  | nil => rfl
  | cons c rest ih =>
    simp only [List.all_cons, Bool.and_eq_true] at h
    simp [h.1, ih h.2]

theorem strip_blanks {blanks : Text} (h : ∀ b ∈ blanks, isBlank b = true) (text : Text) :
    strip (blanks ++ text) = strip text := by
  rw [strip, List.dropWhile_append_of_pos h, strip]

/-- Trimming leaves the first character that is not blank at the start. -/
theorem head?_strip {c : Char} {rest blanks : Text} (hblanks : ∀ b ∈ blanks, isBlank b = true)
    (hc : isBlank c = false) : (strip (blanks ++ c :: rest)).head? = some c := by
  have hfront : (blanks ++ c :: rest).dropWhile isBlank = c :: rest := by
    rw [List.dropWhile_append_of_pos hblanks, List.dropWhile_cons_of_neg (by simp [hc])]
  have hback : ∃ more, (rest.reverse ++ [c]).dropWhile isBlank = more ++ [c] := by
    rw [List.dropWhile_append]
    split
    · exact ⟨[], by simp [hc]⟩
    · exact ⟨_, rfl⟩
  obtain ⟨more, hmore⟩ := hback
  rw [strip, hfront, List.reverse_cons, hmore]
  simp

theorem strip_eq_nil_iff (text : Text) : strip text = [] ↔ hasContent text = false := by
  unfold strip hasContent
  constructor
  · intro h
    have h1 : ((text.dropWhile isBlank).reverse).dropWhile isBlank = [] := by
      simpa using h
    have hall : (text.dropWhile isBlank).reverse.all isBlank = true := by
      have := List.takeWhile_append_dropWhile (p := isBlank) (l := (text.dropWhile isBlank).reverse)
      rw [h1, List.append_nil] at this
      rw [← this]
      exact List.all_takeWhile
    have hdrop : (text.dropWhile isBlank).all isBlank = true := by simpa using hall
    have htext : text.all isBlank = true := by
      rw [← List.takeWhile_append_dropWhile (p := isBlank) (l := text), List.all_append, hdrop,
        List.all_takeWhile]
      rfl
    simpa [List.any_eq_false] using htext
  · intro h
    have hall : text.all isBlank = true := by simpa [List.any_eq_false] using h
    simp [dropWhile_eq_nil_of_all hall]

end YamlSplice.Text
