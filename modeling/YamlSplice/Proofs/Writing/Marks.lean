/-
  YamlSplice.Proofs.Writing.Marks — the marks of a written text that are moved or left out.

  List marks are moved two columns to the left, each on its line, and the mark at the end of a document is left out.
  - `outdentLists_render`: the lines of a text are moved one by one.
  - `dropDocumentEnd_render`: nothing is left out of a text in which no line is the mark.
-/

import YamlSplice.Proofs.Edit.Move
import YamlSplice.Proofs.Edit.Rows

namespace YamlSplice.Layout

open Value

/-! ## List marks moved to the left -/

/-- How far a list mark at a column is moved. -/
def shift (keep : Bool) (column : Nat) : Nat := if keep || decide (column < 2) then 0 else 2

theorem shift_le (keep : Bool) (column : Nat) : shift keep column ≤ column := by
  unfold shift
  split
  · exact Nat.zero_le column
  · next hmoved =>
    simp only [Bool.or_eq_true, decide_eq_true_eq, not_or] at hmoved
    omega

theorem shift_of_le {column : Nat} (h : 2 ≤ column) : shift false column = 2 := by
  have hmoved : ¬ column < 2 := Nat.not_lt.mpr h
  simp [shift, hmoved]

theorem shift_le_two (keep : Bool) (column : Nat) : shift keep column ≤ 2 := by
  unfold shift
  split <;> omega

/-- The line where it is moved to, if it starts with a list mark. -/
def Line.align (keep : Bool) (l : Line) : Line :=
  match l.text with
  | '-' :: ' ' :: _ => ⟨l.indent - shift keep l.indent, l.text⟩
  | _ => l

theorem Line.align_keep (l : Line) : l.align true = l := by
  unfold Line.align
  split <;> rfl

theorem Line.align_text (keep : Bool) (l : Line) : (l.align keep).text = l.text := by
  unfold Line.align
  split <;> rfl

theorem Line.align_item (keep : Bool) (column : Nat) (more : Text) :
    Line.align keep ⟨column, '-' :: ' ' :: more⟩ = ⟨column - shift keep column, '-' :: ' ' :: more⟩ := rfl

theorem Line.align_other {text : Text} (h : ∀ more, text ≠ '-' :: ' ' :: more) (keep : Bool) (column : Nat) :
    Line.align keep ⟨column, text⟩ = ⟨column, text⟩ := by
  unfold Line.align
  split
  · next more htext => exact absurd htext (h more)
  · rfl

theorem Line.align_indent_le (keep : Bool) (l : Line) : (l.align keep).indent ≤ l.indent := by
  unfold Line.align
  split
  · exact Nat.sub_le _ _
  · exact Nat.le_refl _

theorem outdentLine_content {l : Line} (h : Tidy l.text) : Render.outdentLine l.content = (l.align false).content := by
  have hfront : l.content.dropWhile (· == ' ') = l.text := by
    rw [Line.content, List.dropWhile_append_of_pos fun c hc => by simp [List.eq_of_mem_replicate hc]]
    rcases h.2 with hempty | ⟨c, rest, htext, hc⟩
    · rw [hempty]; rfl
    · rw [htext, List.dropWhile_cons_of_neg]
      rintro hspace
      rw [beq_iff_eq.mp hspace] at hc
      revert hc; decide
  obtain ⟨indent, text⟩ := l
  unfold Render.outdentLine
  rw [hfront]
  split
  · next rest htext =>
    subst htext
    have hstarts : Text.startsWith (Line.content ⟨indent, '-' :: ' ' :: rest⟩) [' ', ' '] = decide (2 ≤ indent) :=
      startsWith_content h 2
    rw [hstarts]
    by_cases hle : 2 ≤ indent
    · obtain ⟨n, rfl⟩ := Nat.exists_eq_add_of_le hle
      simp [Line.align, Line.content, shift_of_le hle, List.replicate_add]
    · simp [Line.align, shift, hle, Nat.lt_of_not_le hle]
  · next hother =>
    unfold Line.align
    split
    · next rest htext => exact absurd htext (hother rest)
    · rfl

/-- List marks are moved line by line. -/
theorem outdentLists_render {ls : List Line} (h : ∀ l ∈ ls, Tidy l.text) (keep : Bool) :
    Render.outdentLists keep (render ls) = render (ls.map (Line.align keep)) := by
  cases keep with
  | true =>
    rw [Render.outdentLists_keep, List.map_congr_left fun l _ => Line.align_keep l, List.map_id']
  | false => exact unlines_map_render h (fun l hl => outdentLine_content (h l hl)) rfl

/-! ## The mark at the end of a document -/

theorem Hung.ne_documentEnd {column : Nat} {hung : List Line} {more : List Text} (h : Hung column hung more) :
    ∀ l ∈ hung, l.indent = 0 → l.text ≠ "...".toList := by
  intro l hl hmargin
  rcases h.2 l hl with hempty | hright
  · simp [hempty]
  · omega

/-- No line of a block at the margin looks like the mark at the end of a document. -/
theorem Block.ne_documentEnd {L : Leaves} {column : Nat} {ls : List Line} {parts : Parts} (h : Block L column ls parts) :
    ∀ l ∈ ls, l.indent = 0 → l.text ≠ "...".toList := by
  have hcolon : ∀ name rest : Text, name ++ ':' :: rest ≠ "...".toList := fun name rest heq => by
    have hmem : ':' ∈ "...".toList := heq ▸ by simp
    revert hmem
    decide
  induction h with
  | noRows | noItems => simp
  | skip hskipped _ ih =>
    refine List.forall_mem_cons.mpr ⟨?_, ih⟩
    rcases hskipped with hempty | ⟨comment, htext, -⟩
    · simp [hempty]
    · simp [htext]
  | scalarRow _ _ hhung _ ih =>
    exact List.forall_mem_cons.mpr ⟨fun _ => hcolon _ _, List.forall_mem_append.mpr ⟨hhung.ne_documentEnd, ih⟩⟩
  | innerRow _ _ _ _ _ ihblock ih =>
    exact List.forall_mem_cons.mpr ⟨fun _ => hcolon _ _, List.forall_mem_append.mpr ⟨ihblock, ih⟩⟩
  | scalarItem _ hhung _ ih =>
    exact List.forall_mem_cons.mpr ⟨by simp, List.forall_mem_append.mpr ⟨hhung.ne_documentEnd, ih⟩⟩
  | innerItem _ _ _ _ ihblock ih =>
    exact List.forall_mem_cons.mpr ⟨by simp, List.forall_mem_append.mpr ⟨(List.forall_mem_cons.mp ihblock).2, ih⟩⟩

/-- A text none of whose lines is the mark at the end of a document is kept. -/
theorem dropDocumentEnd_render {ls : List Line} (htidy : ∀ l ∈ ls, Tidy l.text)
    (h : ∀ l ∈ ls, l.indent = 0 → l.text ≠ "...".toList) :
    Render.dropDocumentEnd (render ls) = render ls := by
  rw [Render.dropDocumentEnd, if_neg]
  intro hends
  obtain ⟨front, hfront⟩ := List.isSuffixOf_iff_suffix.mp hends
  have hmem : "...".toList ∈ Text.lines (render ls) := by
    rw [← hfront, Text.lines, show Render.documentEnd = '\n' :: ("...".toList ++ ['\n']) from rfl, Text.pieces_append_sep,
      Text.pieces_append_cons (by decide)]
    simp
  rw [lines_render htidy] at hmem
  rcases List.mem_append.mp hmem with hmem | hmem
  · obtain ⟨⟨indent, text⟩, hl, hcontent⟩ := List.mem_map.mp hmem
    cases indent with
    | zero => exact h _ hl rfl (by simpa [Line.content] using hcontent)
    | succ n => cases hcontent
  · cases List.mem_singleton.mp hmem

end YamlSplice.Layout
