/-
  YamlSplice.Proofs.Yaml.Cursor — moving over lines and blanks.

  - `skip_inline`: characters of a line move the column.
  - `content`: the next character that is neither blank nor part of a comment. It is the same from
    every place between two characters of content (`content_spaces`, `content_newline`,
    `content_comment`).
-/

import YamlSplice.Yaml.Token.Lexer

namespace YamlSplice.Yaml

/-- A character of a line that takes a column. -/
def isInline (c : Char) : Bool := !isBreak c && c != '\uFEFF'

namespace Cursor

theorem next_inline {c : Cursor} {x : Char} {rest : Text} (h : c.rest = x :: rest) (hx : isInline x = true) :
    c.next = ⟨rest, c.index + 1, c.line, c.column + 1⟩ := by
  simp only [isInline, Bool.and_eq_true, Bool.not_eq_true', bne_iff_ne, ne_eq] at hx
  simp [next, h, hx.1, hx.2]

/-- Characters of a line are passed over column by column. -/
theorem skip_inline {c : Cursor} {s rest : Text} (h : c.rest = s ++ rest) (hs : ∀ x ∈ s, isInline x = true) :
    c.skip s.length = ⟨rest, c.index + s.length, c.line, c.column + s.length⟩ := by
  induction s generalizing c with
  | nil => simp only [List.nil_append] at h; simp [skip, ← h]
  | cons x s ih =>
    have hnext := next_inline h (hs x List.mem_cons_self)
    rw [List.length_cons, skip, hnext, ih rfl fun y hy => hs y (List.mem_cons_of_mem _ hy)]
    simp only [Cursor.mk.injEq, true_and]
    omega

theorem next_newline {c : Cursor} {rest : Text} (h : c.rest = '\n' :: rest) :
    c.next = ⟨rest, c.index + 1, c.line + 1, 0⟩ := by
  simp [next, h, isBreak]

theorem takeBreak_newline {c : Cursor} {rest : Text} (h : c.rest = '\n' :: rest) :
    c.takeBreak = (['\n'], ⟨rest, c.index + 1, c.line + 1, 0⟩) := by
  rw [← next_newline h]
  simp [takeBreak, h, isBreak]

theorem takeBreak_of_not_break {c : Cursor} (h : c.rest.head?.any isBreak = false) : c.takeBreak = ([], c) := by
  cases hc : c.rest with
  | nil => simp [takeBreak, hc]
  | cons x rest =>
    have hx : isBreak x = false := by simpa [hc] using h
    have hx' : x ≠ '\r' ∧ x ≠ '\u2028' ∧ x ≠ '\u2029' := by
      refine ⟨?_, ?_, ?_⟩ <;> rintro rfl <;> revert hx <;> decide
    simp [takeBreak, hc, hx, hx']

theorem span_replicate {c : Cursor} {n : Nat} {rest : Text} (h : c.rest = List.replicate n ' ' ++ rest)
    (hrest : rest.head? ≠ some ' ') :
    c.span (· == ' ') = (List.replicate n ' ', ⟨rest, c.index + n, c.line, c.column + n⟩) := by
  have htake : c.rest.takeWhile (· == ' ') = List.replicate n ' ' := by
    rw [h, List.takeWhile_append_of_pos (by simp)]
    cases rest with
    | nil => simp
    | cons x rest =>
      have hx : (x == ' ') = false := by simpa using hrest
      simp [hx]
  have hskip := skip_inline h (fun x hx => by rw [List.eq_of_mem_replicate hx]; decide)
  rw [List.length_replicate] at hskip
  rw [span, htake, List.length_replicate, hskip]

theorem skipSpaces_replicate {c : Cursor} {n : Nat} {rest : Text} (h : c.rest = List.replicate n ' ' ++ rest)
    (hrest : rest.head? ≠ some ' ') : c.skipSpaces = ⟨rest, c.index + n, c.line, c.column + n⟩ := by
  rw [skipSpaces, skipWhile, span_replicate h hrest]

theorem skipSpaces_of_not_space {c : Cursor} (h : c.rest.head? ≠ some ' ') : c.skipSpaces = c := by
  have hrest : c.rest = List.replicate 0 ' ' ++ c.rest := by simp
  rw [skipSpaces_replicate hrest h]
  rfl

/-- Every text starts with a number of spaces. -/
theorem exists_spaces (text : Text) : ∃ n rest, text = List.replicate n ' ' ++ rest ∧ rest.head? ≠ some ' ' := by
  induction text with
  | nil => exact ⟨0, [], rfl, by simp⟩
  | cons x text ih =>
    by_cases hx : x = ' '
    · obtain ⟨n, rest, rfl, hrest⟩ := ih
      exact ⟨n + 1, rest, by simp [hx, List.replicate_succ], hrest⟩
    · exact ⟨0, x :: text, rfl, by simpa using hx⟩

theorem skip_skip (c : Cursor) (m n : Nat) : (c.skip m).skip n = c.skip (m + n) := by
  induction m generalizing c with
  | zero => simp [skip]
  | succ m ih => rw [skip, ih, Nat.succ_add]; rfl

theorem length_skip_le (c : Cursor) (n : Nat) : (c.skip n).rest.length ≤ c.rest.length := by
  rw [rest_skip, List.length_drop]
  omega

/-- Moving on does not lead back to an earlier line. -/
theorem line_skip_le (c : Cursor) (n : Nat) : c.line ≤ (c.skip n).line := by
  induction n generalizing c with
  | zero => exact Nat.le_refl _
  | succ n ih =>
    refine Nat.le_trans ?_ (ih c.next)
    unfold next
    split
    · exact Nat.le_refl _
    · split
      · exact Nat.le_succ _
      · split <;> exact Nat.le_refl _

/-- A line break takes a character at least. -/
theorem length_takeBreak_lt {c after : Cursor} {x : Char} {more : Text} (h : c.takeBreak = (x :: more, after)) :
    after.rest.length < c.rest.length := by
  have hskip : ∀ {rest : Text} {y : Char}, c.rest = y :: rest → ∀ n, (c.skip (n + 1)).rest.length < c.rest.length := by
    intro rest y hrest n
    rw [rest_skip, List.length_drop, hrest, List.length_cons]
    omega
  unfold takeBreak at h
  split at h
  · cases h
  · next y rest hrest =>
    split at h
    · cases h; exact hskip hrest 1
    · split at h
      · cases h; exact hskip hrest 0
      · split at h
        · cases h; exact hskip hrest 0
        · cases h

end Cursor

namespace Lexer

open Cursor

/-! ## The next content -/

theorem skipLines_succ (fuel : Nat) (c : Cursor) :
    skipLines (fuel + 1) c =
      if c.skipSpaces.skipComment.takeBreak.1 = [] then (c.skipSpaces.skipComment.takeBreak.2, false)
      else ((skipLines fuel c.skipSpaces.skipComment.takeBreak.2).1, true) := by
  rw [skipLines]
  split
  · next after h => simp [h]
  · next broken after hne h =>
    rw [if_neg]
    · rw [h]
    · rw [h]
      rintro rfl
      exact hne rfl

theorem exists_skipComment (c : Cursor) : ∃ n, c.skipSpaces.skipComment = c.skip n := by
  unfold skipComment
  split
  · exact ⟨_, skip_skip c _ _⟩
  · exact ⟨_, rfl⟩

theorem length_afterBreak_lt {c : Cursor} (h : c.skipSpaces.skipComment.takeBreak.1 ≠ []) :
    c.skipSpaces.skipComment.takeBreak.2.rest.length < c.rest.length := by
  obtain ⟨x, more, hx⟩ := List.exists_cons_of_ne_nil h
  have hbreak : c.skipSpaces.skipComment.takeBreak.2.rest.length < c.skipSpaces.skipComment.rest.length :=
    length_takeBreak_lt (Prod.ext hx rfl)
  obtain ⟨n, hcomment⟩ := exists_skipComment c
  have hlength := length_skip_le c n
  rw [← hcomment] at hlength
  exact Nat.lt_of_lt_of_le hbreak hlength

theorem skipLines_fuel {fuel other : Nat} {c : Cursor} (h : c.rest.length < fuel) (hother : c.rest.length < other) :
    skipLines fuel c = skipLines other c := by
  induction fuel generalizing other c with
  | zero => omega
  | succ fuel ih =>
    cases other with
    | zero => omega
    | succ other =>
      rw [skipLines_succ, skipLines_succ]
      split
      · rfl
      · next hbreak =>
        have hlength := length_afterBreak_lt hbreak
        have hrest := @ih other c.skipSpaces.skipComment.takeBreak.2 (by omega) (by omega)
        rw [hrest]

theorem exists_takeBreak (c : Cursor) : ∃ n, c.takeBreak.2 = c.skip n := by
  unfold takeBreak
  split
  · exact ⟨0, rfl⟩
  · split
    · exact ⟨2, rfl⟩
    · split
      · exact ⟨1, rfl⟩
      · split
        · exact ⟨1, rfl⟩
        · exact ⟨0, rfl⟩

theorem exists_skipLines (fuel : Nat) (c : Cursor) : ∃ n, (skipLines fuel c).1 = c.skip n := by
  induction fuel generalizing c with
  | zero => exact ⟨0, rfl⟩
  | succ fuel ih =>
    obtain ⟨n, hcomment⟩ := exists_skipComment c
    obtain ⟨m, hbreak⟩ := exists_takeBreak c.skipSpaces.skipComment
    have hnext : c.skipSpaces.skipComment.takeBreak.2 = c.skip (n + m) := by rw [hbreak, hcomment, skip_skip]
    rw [skipLines_succ]
    split
    · exact ⟨_, hnext⟩
    · obtain ⟨more, hmore⟩ := ih c.skipSpaces.skipComment.takeBreak.2
      exact ⟨n + m + more, by rw [hmore, hnext, skip_skip]⟩

/-- The place of the next content; `true` says that it is on another line. -/
def content (c : Cursor) : Cursor × Bool := skipLines (c.rest.length + 1) c

theorem content_eq (c : Cursor) :
    content c = if c.skipSpaces.skipComment.takeBreak.1 = [] then (c.skipSpaces.skipComment.takeBreak.2, false)
      else ((content c.skipSpaces.skipComment.takeBreak.2).1, true) := by
  rw [content, skipLines_succ]
  split
  · rfl
  · next hbreak => rw [content, skipLines_fuel (length_afterBreak_lt hbreak) (Nat.lt_succ_self _)]

theorem exists_content (c : Cursor) : ∃ n, (content c).1 = c.skip n := exists_skipLines _ c

theorem length_content_le (c : Cursor) : (content c).1.rest.length ≤ c.rest.length := by
  obtain ⟨n, h⟩ := exists_content c
  exact h ▸ length_skip_le c n

theorem line_content_le (c : Cursor) : c.line ≤ (content c).1.line := by
  obtain ⟨n, h⟩ := exists_content c
  exact h ▸ line_skip_le c n

/-- Content is found where it stands. -/
theorem content_of_char {c : Cursor} {x : Char} {rest : Text} (h : c.rest = x :: rest) (hspace : x ≠ ' ')
    (hcomment : x ≠ '#') (hbreak : isBreak x = false) : content c = (c, false) := by
  have hspaces : c.skipSpaces = c := skipSpaces_of_not_space (by simpa [h] using hspace)
  have hnot : c.skipComment = c := by simp [skipComment, h, hcomment]
  rw [content_eq, hspaces, hnot, takeBreak_of_not_break (by simp [h, hbreak])]
  simp

theorem content_end {c : Cursor} (h : c.rest = []) : content c = (c, false) := by
  have hspaces : c.skipSpaces = c := skipSpaces_of_not_space (by simp [h])
  have hnot : c.skipComment = c := by simp [skipComment, h]
  rw [content_eq, hspaces, hnot, takeBreak_of_not_break (by simp [h])]
  simp

theorem content_spaces {c : Cursor} {n : Nat} {rest : Text} (h : c.rest = List.replicate n ' ' ++ rest) :
    content c = content ⟨rest, c.index + n, c.line, c.column + n⟩ := by
  obtain ⟨m, tail, rfl, htail⟩ := exists_spaces rest
  have hboth : c.skipSpaces = skipSpaces ⟨List.replicate m ' ' ++ tail, c.index + n, c.line, c.column + n⟩ := by
    have hrest : c.rest = List.replicate (n + m) ' ' ++ tail := by
      rw [h, ← List.append_assoc, List.replicate_append_replicate]
    rw [skipSpaces_replicate hrest htail, skipSpaces_replicate rfl htail]
    simp [Nat.add_assoc]
  rw [content_eq, hboth, ← content_eq]

theorem content_newline {c : Cursor} {rest : Text} (h : c.rest = '\n' :: rest) :
    content c = ((content ⟨rest, c.index + 1, c.line + 1, 0⟩).1, true) := by
  have hspaces : c.skipSpaces = c := skipSpaces_of_not_space (by simp [h])
  have hnot : c.skipComment = c := by simp [skipComment, h]
  rw [content_eq, hspaces, hnot, takeBreak_newline h]
  simp

theorem content_comment {c : Cursor} {comment rest : Text} (h : c.rest = '#' :: comment ++ '\n' :: rest)
    (hcomment : ∀ x ∈ comment, isInline x = true) :
    content c = ((content ⟨rest, c.index + comment.length + 2, c.line + 1, 0⟩).1, true) := by
  have hinline : ∀ x ∈ '#' :: comment, isInline x = true := List.forall_mem_cons.mpr ⟨by decide, hcomment⟩
  have hspaces : c.skipSpaces = c := skipSpaces_of_not_space (by simp [h])
  have hskip : c.skipComment = ⟨'\n' :: rest, c.index + (comment.length + 1), c.line, c.column + (comment.length + 1)⟩ := by
    have htake : c.rest.takeWhile (!isBreak ·) = '#' :: comment := by
      rw [h, List.takeWhile_append_of_pos]
      · simp [isBreak]
      · intro x hx
        have := hinline x hx
        simp only [isInline, Bool.and_eq_true] at this
        exact this.1
    have := skip_inline h hinline
    simp only [skipComment, skipWhile, span, htake, this]
    simp [h]
  rw [content_eq, hspaces, hskip, takeBreak_newline rfl]
  simp [Nat.add_assoc]

end Lexer
end YamlSplice.Yaml
