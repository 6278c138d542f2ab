/-
  YamlSplice.Proofs.Text.Lines — texts put together of lines.

  A text is a line without newline, or a line, its newline and a text. A text is closed if it is empty
  or its last line has its newline, so that what follows it starts a line of its own.
  - `by_lines`: what holds of these two forms holds of every text.
  - `exists_lines_of_endsLine`: a text that ends with a newline is such lines alone.
-/

import YamlSplice.Proofs.Region.Locate

namespace YamlSplice.Text

/-! ## Lines -/

theorem not_mem_of_mem_pieces {sep : Char} {text piece : Text} (h : piece ∈ pieces sep text) : sep ∉ piece := by
  induction text generalizing piece with
  | nil => simp only [pieces, List.mem_singleton] at h; simp [h]
  | cons c rest ih =>
    unfold pieces at h
    split at h
    · rcases List.mem_cons.mp h with rfl | h
      · exact List.not_mem_nil
      · exact ih h
    · next hc =>
      split at h
      · next hp => exact absurd hp (pieces_ne_nil sep rest)
      · next first more hp =>
        rcases List.mem_cons.mp h with rfl | h
        · have hfirst : sep ∉ first := ih (by simp [hp])
          simp only [List.mem_cons, not_or]
          exact ⟨fun h => hc h.symm, hfirst⟩
        · exact ih (by simp [hp, h])

theorem lines_cons {line : Text} (h : '\n' ∉ line) (rest : Text) :
    lines (line ++ '\n' :: rest) = line :: lines rest := pieces_append_cons h rest

theorem lines_last {line : Text} (h : '\n' ∉ line) : lines line = [line] := pieces_of_not_mem h

/-- The first line of a text, and what follows it. -/
theorem line_inj {line other rest more : Text} (hline : '\n' ∉ line) (hother : '\n' ∉ other)
    (h : line ++ '\n' :: rest = other ++ '\n' :: more) : line = other ∧ rest = more := by
  have hlines := congrArg lines h
  rw [lines_cons hline, lines_cons hother, List.cons.injEq] at hlines
  obtain ⟨rfl, -⟩ := hlines
  exact ⟨rfl, by simpa using h⟩

/-- What a text starts with is on its first line, if it has no newline. -/
theorem exists_of_append_eq {front line rest more : Text} (h : '\n' ∉ front)
    (heq : front ++ more = line ++ '\n' :: rest) : ∃ tail, line = front ++ tail := by
  rcases List.append_eq_append_iff.mp heq with ⟨tail, hline, -⟩ | ⟨tail, hfront, htail⟩
  · exact ⟨tail, hline⟩
  · cases tail with
    | nil => exact ⟨[], by simpa using hfront.symm⟩
    | cons c tail =>
      obtain ⟨rfl, -⟩ := List.cons.inj htail
      exact absurd (by simp [hfront]) h

/-- What holds of a line without newline, and goes over from a text to the text with a line more in
    front, holds of every text. -/
@[elab_as_elim]
theorem by_lines {motive : Text → Prop} (last : ∀ line, '\n' ∉ line → motive line)
    (cons : ∀ line rest, '\n' ∉ line → motive rest → motive (line ++ '\n' :: rest)) (text : Text) : motive text := by
  rw [← unlines_lines text]
  have hline : ∀ line ∈ lines text, '\n' ∉ line := fun line h => not_mem_of_mem_pieces h
  have hne : lines text ≠ [] := pieces_ne_nil '\n' text
  generalize lines text = ls at hline hne
  induction ls with
  | nil => exact absurd rfl hne
  | cons line more ih =>
    obtain ⟨hfirst, hmore⟩ := List.forall_mem_cons.mp hline
    cases more with
    | nil => exact last line hfirst
    | cons next more =>
      have hrest := cons line _ hfirst (ih hmore (List.cons_ne_nil _ _))
      simpa [unlines, glue] using hrest

/-- Lines, each with its newline. -/
def ended (ls : List Text) : Text := ls.flatMap (· ++ ['\n'])

@[simp] theorem ended_nil : ended [] = [] := rfl

@[simp] theorem ended_cons (line : Text) (ls : List Text) : ended (line :: ls) = line ++ '\n' :: ended ls := by
  simp [ended]

theorem ended_append (ls more : List Text) : ended (ls ++ more) = ended ls ++ ended more := List.flatMap_append

theorem unlines_append {ls rest : List Text} (hne : rest ≠ []) : unlines (ls ++ rest) = ended ls ++ unlines rest := by
  induction ls with
  | nil => rfl
  | cons line ls ih =>
    obtain ⟨first, more, hmore⟩ := List.exists_cons_of_ne_nil (List.append_ne_nil_of_right_ne_nil ls hne)
    rw [ended_cons, List.append_assoc, List.cons_append, List.cons_append, ← ih, hmore]
    simp [unlines, glue]

/-- The last line has its newline too. -/
theorem ended_eq {ls : List Text} (hne : ls ≠ []) : ended ls = unlines ls ++ ['\n'] := by
  obtain ⟨front, last, rfl⟩ := (List.eq_nil_or_concat ls).resolve_left hne
  rw [List.concat_eq_append, ended_append, unlines_append (List.cons_ne_nil _ _), List.append_assoc]
  simp [unlines, glue]

theorem endsLine_ended {ls : List Text} (hne : ls ≠ []) : endsLine (ended ls) = true := by
  obtain ⟨front, last, rfl⟩ := (List.eq_nil_or_concat ls).resolve_left hne
  simp [ended, endsLine]

theorem endsLine_unlines {ls : List Text} (hne : ls ≠ []) : endsLine (unlines (ls ++ [[]])) = true := by
  have hends := endsLine_ended hne
  rw [unlines_append (List.cons_ne_nil _ _)]
  rwa [show unlines [[]] = [] from rfl, List.append_nil]

theorem eq_ended {text : Text} {ls : List Text} (h : lines text = ls ++ [[]]) : text = ended ls := by
  rw [← unlines_lines text, h, unlines_append (List.cons_ne_nil _ _)]
  exact List.append_nil _

/-- Behind the newline that ends a text there is one line more, an empty one. -/
theorem exists_lines_of_endsLine {text : Text} (h : endsLine text = true) :
    ∃ ls, ls ≠ [] ∧ lines text = ls ++ [[]] ∧ text = ended ls := by
  obtain ⟨front, rfl⟩ := endsLine_iff.mp h
  have hlines : lines (front ++ ['\n']) = lines front ++ [[]] := pieces_append_sep '\n' front []
  exact ⟨lines front, pieces_ne_nil '\n' front, hlines, eq_ended hlines⟩

/-! ## Closed texts -/

/-- The text is empty, or its last line has its newline. -/
def IsClosed (text : Text) : Prop := text = [] ∨ endsLine text = true

theorem IsClosed.nil : IsClosed [] := Or.inl rfl

theorem endsLine_line_iff {line rest : Text} : endsLine (line ++ '\n' :: rest) = true ↔ IsClosed rest := by
  cases rest with
  | nil => simp [IsClosed, endsLine]
  | cons c rest => simp [IsClosed, endsLine]

theorem isClosed_line_iff {line rest : Text} : IsClosed (line ++ '\n' :: rest) ↔ IsClosed rest := by
  have hne : line ++ '\n' :: rest ≠ [] := List.append_ne_nil_of_right_ne_nil _ (List.cons_ne_nil _ _)
  exact (or_iff_right hne).trans endsLine_line_iff

theorem IsClosed.eq_nil {line : Text} (h : IsClosed line) (hline : '\n' ∉ line) : line = [] := by
  rcases h with h | h
  · exact h
  · exact absurd (newline_mem_of_endsLine h) hline

theorem IsClosed.append {text rest : Text} (htext : IsClosed text) (hrest : IsClosed rest) : IsClosed (text ++ rest) := by
  rcases hrest with rfl | hrest
  · rwa [List.append_nil]
  · exact Or.inr (endsLine_append hrest)

theorem IsClosed.of_suffix {text rest : Text} (h : IsClosed text) (hrest : rest <:+ text) : IsClosed rest := by
  rcases h with rfl | h
  · exact Or.inl (List.suffix_nil.mp hrest)
  · by_cases hne : rest = []
    · exact Or.inl hne
    · exact Or.inr (endsLine_of_suffix h hrest hne)

end YamlSplice.Text
