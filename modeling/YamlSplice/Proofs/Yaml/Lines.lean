/-
  YamlSplice.Proofs.Yaml.Lines — a cursor in front of lines.

  - `content_skipped` / `content_shows`: the next content behind a line without content, and on a line
    that has some.
  - `Returns`: the next line with content is not to the right of a column, so it belongs neither to a
    scalar nor to a collection there.
  - `stops_newline`: a plain scalar stops at the end of its line if the lines below return.
  - `adds_folds`: first it goes on over its further lines, which add their folded text.
-/

import YamlSplice.Proofs.Yaml.Plain

namespace YamlSplice

/-- A text starts with a character of a line that is neither blank nor the sign of a comment. -/
theorem Text.exists_of_startsRow {text tail : Text} (h : (text ++ '\n' :: tail).startsRow = true) :
    ∃ x rest, text = x :: rest ∧ x ≠ ' ' ∧ x ≠ '#' ∧ Yaml.isInline x = true := by
  cases text with
  | nil => simp [startsRow, Yaml.isBreak] at h
  | cons x rest =>
    simp only [List.cons_append, startsRow, Bool.and_eq_true, Bool.not_eq_true', Bool.or_eq_false_iff, Yaml.isWhite,
      beq_eq_false_iff_ne, ne_eq] at h
    refine ⟨x, rest, rfl, h.1.1.1.1.1.1, h.1.1.1.2, ?_⟩
    simp [Yaml.isInline, h]

theorem Text.atDocumentMark_cons {c : Char} {rest : Text} (hc : c ≠ '-' ∧ c ≠ '.') :
    Yaml.atDocumentMark (c :: rest) = false := by
  match rest with
  | [] | [_] => rfl
  | a :: b :: rest => simp [Yaml.atDocumentMark, Yaml.atMark, hc]

theorem Text.atDocumentMark_of_startsRow {text : Text} (h : text.startsRow = true) : Yaml.atDocumentMark text = false := by
  cases text with
  | nil => rfl
  | cons c rest =>
    simp only [startsRow, Bool.and_eq_true, Bool.not_eq_true'] at h
    exact h.2

namespace Layout

/-- The line has content that starts as a row does. -/
def Line.Shows (l : Line) : Prop := ∀ tail, (l.text ++ '\n' :: tail).startsRow = true

/-- The next line with content, if there is one, is not to the right of a column. -/
inductive Returns (column : Int) : List Line → Prop where
  | nil : Returns column []
  | skip {l : Line} {ls : List Line} : Skipped l → Returns column ls → Returns column (l :: ls)
  | line {l : Line} {ls : List Line} : (l.indent : Int) ≤ column → l.Shows → Returns column (l :: ls)

theorem Returns.mono {column more : Int} {ls : List Line} (h : Returns column ls) (hle : column ≤ more) :
    Returns more ls := by
  induction h with
  | nil => exact .nil
  | skip hskipped _ ih => exact .skip hskipped ih
  | line hindent hshows => exact .line (Int.le_trans hindent hle) hshows

theorem length_le_render (ls : List Line) : ls.length ≤ (render ls).length := by
  induction ls with
  | nil => exact Nat.le_refl _
  | cons l ls ih =>
    rw [render_cons]
    simp only [List.length_cons, List.length_append]
    omega

/-- No line that returns is the mark of a document. -/
theorem Returns.atDocumentMark {column : Int} {ls : List Line} (h : Returns column ls) :
    Yaml.atDocumentMark (render ls) = false := by
  cases h with
  | nil => rfl
  | @skip l ls hskipped _ =>
    obtain ⟨indent, text⟩ := l
    rw [render_cons]
    cases indent with
    | succ indent => exact Text.atDocumentMark_cons (by decide)
    | zero =>
      rcases hskipped with rfl | ⟨comment, rfl, -⟩
      · exact Text.atDocumentMark_cons (by decide)
      · exact Text.atDocumentMark_cons (by decide)
  | @line l ls _ hshows =>
    obtain ⟨indent, text⟩ := l
    rw [render_cons]
    cases indent with
    | succ indent => exact Text.atDocumentMark_cons (by decide)
    | zero => exact Text.atDocumentMark_of_startsRow (hshows _)

/-- Lines that return do not start with a byte order mark. -/
theorem Returns.head {column : Int} {ls : List Line} (h : Returns column ls) :
    (render ls).head? ≠ some '\uFEFF' := by
  cases h with
  | nil => simp [render]
  | @skip l ls hskipped _ =>
    obtain ⟨indent, text⟩ := l
    rw [render_cons]
    cases indent with
    | succ indent => simp [List.replicate_succ]
    | zero => rcases hskipped with rfl | ⟨comment, rfl, -⟩ <;> simp
  | @line l ls _ hshows =>
    obtain ⟨indent, text⟩ := l
    rw [render_cons]
    cases indent with
    | succ indent => simp [List.replicate_succ]
    | zero =>
      obtain ⟨x, rest, rfl, -, -, hinline⟩ := Text.exists_of_startsRow (hshows (render ls))
      have hx : x ≠ '\uFEFF' := by
        rintro rfl
        revert hinline
        decide
      simpa using hx

end Layout

namespace Yaml

open Layout Cursor Lexer

/-- The cursor stands in front of lines, on the indentation of the first or at its end. -/
def Cursor.At (c : Cursor) : List Line → Prop
  | [] => c.rest = []
  | l :: ls => ∃ n, c.column + n = l.indent ∧ c.rest = List.replicate n ' ' ++ l.text ++ '\n' :: render ls

/-- The next content behind the cursor is that of lines. -/
structure Cursor.Before (c : Cursor) (ls : List Line) : Prop where
  content : ∃ d : Cursor, d.At ls ∧ (Lexer.content c).1 = (Lexer.content d).1
  unmarked : c.rest.head? ≠ some '\uFEFF'

namespace Cursor

theorem at_render {ls : List Line} {c : Cursor} (hrest : c.rest = render ls) (hcolumn : c.column = 0) : c.At ls := by
  cases ls with
  | nil => exact hrest
  | cons l ls => exact ⟨l.indent, by omega, by rw [hrest, render_cons]⟩

/-- The cursor in front of the lines behind a line. -/
def below (c : Cursor) (ls : List Line) : Cursor :=
  ⟨render ls, c.index + (c.rest.length - (render ls).length), c.line + 1, 0⟩

theorem content_skipped {l : Line} {ls : List Line} {c : Cursor} (h : c.At (l :: ls)) (hl : Skipped l) :
    content c = ((content (c.below ls)).1, true) := by
  obtain ⟨n, -, hrest⟩ := h
  have hspaces : c.rest = List.replicate n ' ' ++ (l.text ++ '\n' :: render ls) := by rw [hrest, List.append_assoc]
  rw [content_spaces hspaces]
  have hlength : c.rest.length - (render ls).length = n + l.text.length + 1 := by
    rw [hrest]
    simp only [List.length_append, List.length_replicate, List.length_cons]
    omega
  rcases hl with hempty | ⟨comment, htext, hcomment⟩
  · rw [content_newline (by rw [hempty]; rfl)]
    simp [below, hlength, hempty, Nat.add_assoc]
  · have hsign : Cursor.rest ⟨l.text ++ '\n' :: render ls, c.index + n, c.line, c.column + n⟩ =
        '#' :: comment ++ '\n' :: render ls := by rw [htext]
    rw [content_comment hsign]
    · simp [below, hlength, htext, Nat.add_assoc]
    · intro x hx
      have := hcomment x hx
      simp [isInline, this]

theorem content_shows {l : Line} {ls : List Line} {c : Cursor} (h : c.At (l :: ls)) (hl : l.Shows) :
    ∃ index, content c = (⟨l.text ++ '\n' :: render ls, index, c.line, l.indent⟩, false) := by
  obtain ⟨n, hcolumn, hrest⟩ := h
  obtain ⟨x, rest, htext, hspace, hcomment, hinline⟩ := Text.exists_of_startsRow (hl (render ls))
  have hspaces : c.rest = List.replicate n ' ' ++ (l.text ++ '\n' :: render ls) := by rw [hrest, List.append_assoc]
  refine ⟨c.index + n, ?_⟩
  rw [content_spaces hspaces, content_of_char (by rw [htext]; rfl) hspace hcomment (isBreak_of_isInline hinline), hcolumn]

theorem Before.of_at {c : Cursor} {ls : List Line} (h : c.At ls) (hc : c.rest.head? ≠ some '\uFEFF') : c.Before ls :=
  ⟨⟨c, h, rfl⟩, hc⟩

theorem Before.skipped {c : Cursor} {l : Line} {ls : List Line} (h : c.Before (l :: ls)) (hl : Skipped l) :
    c.Before ls := by
  obtain ⟨d, hd, hcontent⟩ := h.content
  refine ⟨⟨d.below ls, at_render rfl rfl, ?_⟩, h.unmarked⟩
  rw [hcontent, content_skipped hd hl]

theorem Before.shows {c : Cursor} {l : Line} {ls : List Line} (h : c.Before (l :: ls)) (hl : l.Shows) :
    ∃ index line, (Lexer.content c).1 = ⟨l.text ++ '\n' :: render ls, index, line, l.indent⟩ := by
  obtain ⟨d, hd, hcontent⟩ := h.content
  obtain ⟨index, hshows⟩ := content_shows hd hl
  exact ⟨index, d.line, by rw [hcontent, hshows]⟩

/-- No more is left behind the next content than there is in the lines. -/
theorem Before.length_content_le {c : Cursor} {ls : List Line} (h : c.Before ls) :
    (Lexer.content c).1.rest.length ≤ (render ls).length := by
  obtain ⟨d, hd, hcontent⟩ := h.content
  rw [hcontent]
  refine Nat.le_trans (Lexer.length_content_le d) ?_
  cases ls with
  | nil => rw [show d.rest = [] from hd]; exact Nat.le_refl _
  | cons l ls =>
    obtain ⟨n, hindent, hrest⟩ := hd
    rw [hrest, render_cons]
    simp only [List.length_append, List.length_replicate, List.length_cons]
    omega

theorem Before.end {c : Cursor} (h : c.Before []) : (Lexer.content c).1.rest = [] := by
  obtain ⟨d, hd, hcontent⟩ := h.content
  rw [hcontent, content_end hd]
  exact hd

end Cursor

namespace Plain

theorem moreBreaks_stop {c : Cursor} {n fuel : Nat} {x : Char} {rest : Text}
    (hc : c.rest = List.replicate n ' ' ++ x :: rest) (hspace : x ≠ ' ') (hbreak : isBreak x = false) :
    moreBreaks (fuel + 1) c = (some [], ⟨x :: rest, c.index + n, c.line, c.column + n⟩) := by
  rw [moreBreaks, skipSpaces_replicate hc (by simpa using hspace)]
  simp only
  rw [takeBreak_of_not_break (by simpa using hbreak)]

theorem moreBreaks_newline {c : Cursor} {n fuel : Nat} {rest : Text}
    (hc : c.rest = List.replicate n ' ' ++ '\n' :: rest) (hmark : atDocumentMark rest = false) :
    moreBreaks (fuel + 1) c =
      ((moreBreaks fuel ⟨rest, c.index + n + 1, c.line + 1, 0⟩).1.map ('\n' :: ·),
        (moreBreaks fuel ⟨rest, c.index + n + 1, c.line + 1, 0⟩).2) := by
  rw [moreBreaks, skipSpaces_replicate hc (by simp)]
  simp only
  rw [takeBreak_newline rfl]
  simp [hmark]

/-- The breaks in front of lines that return are passed over up to a comment or the next content. -/
theorem moreBreaks_returns {column : Int} {ls : List Line} {c : Cursor} {fuel : Nat} (h : Returns column ls)
    (hcolumn : 0 ≤ column) (hc : c.At ls) (hstart : c.column = 0) (hfuel : ls.length < fuel) :
    ∃ breaks next, moreBreaks fuel c = (some breaks, next) ∧ (content next).1 = (content c).1 ∧
      c.line ≤ next.line ∧ next.rest.head? ≠ some '\uFEFF' ∧
      (next.rest.head? = some '#' ∨ (next.column : Int) ≤ column) := by
  obtain ⟨fuel, rfl⟩ : ∃ n, fuel = n + 1 := ⟨fuel - 1, by omega⟩
  induction h generalizing c fuel with
  | nil =>
    have hrest : c.rest = [] := hc
    have hspaces : c.skipSpaces = c := skipSpaces_of_not_space (by simp [hrest])
    refine ⟨[], c, ?_, rfl, Nat.le_refl _, by simp [hrest], Or.inr (by omega)⟩
    rw [moreBreaks, hspaces, takeBreak_of_not_break (by simp [hrest])]
  | @skip l ls hskipped hreturns ih =>
    obtain ⟨n, -, hrest⟩ := hc
    rcases hskipped with hempty | ⟨comment, htext, -⟩
    · obtain ⟨fuel, rfl⟩ : ∃ n, fuel = n + 1 := ⟨fuel - 1, by simp at hfuel; omega⟩
      have hnewline : c.rest = List.replicate n ' ' ++ '\n' :: render ls := by simpa [hempty] using hrest
      obtain ⟨breaks, next, hbreaks, hcontent, hline, hmarked, hends⟩ :=
        @ih ⟨render ls, c.index + n + 1, c.line + 1, 0⟩ (at_render rfl rfl) rfl fuel (by simpa using hfuel)
      refine ⟨'\n' :: breaks, next, ?_, ?_, Nat.le_trans (Nat.le_succ _) hline, hmarked, hends⟩
      · rw [moreBreaks_newline hnewline hreturns.atDocumentMark, hbreaks]
        rfl
      · have hbehind : Cursor.rest ⟨'\n' :: render ls, c.index + n, c.line, c.column + n⟩ = '\n' :: render ls := rfl
        rw [hcontent, content_spaces hnewline, content_newline hbehind]
    · have hsign : c.rest = List.replicate n ' ' ++ '#' :: (comment ++ '\n' :: render ls) := by
        simpa [htext] using hrest
      exact ⟨[], _, moreBreaks_stop hsign (by decide) (by decide), by rw [content_spaces hsign], Nat.le_refl _,
        by simp, Or.inl rfl⟩
  | @line l ls hindent hshows =>
    obtain ⟨n, hn, hrest⟩ := hc
    obtain ⟨x, rest, htext, hspace, hcomment, hinline⟩ := Text.exists_of_startsRow (hshows (render ls))
    have hcontent : c.rest = List.replicate n ' ' ++ x :: (rest ++ '\n' :: render ls) := by simpa [htext] using hrest
    have hmarked : x ≠ '\uFEFF' := by
      rintro rfl
      revert hinline
      decide
    exact ⟨[], _, moreBreaks_stop hcontent hspace (isBreak_of_isInline hinline), by rw [content_spaces hcontent],
      Nat.le_refl _, by simpa using hmarked, Or.inr (by simp only; omega)⟩

/-- A scalar stops at the end of its line if the lines below return to the column of its collection. -/
theorem stops_newline {column : Int} {ls : List Line} {c : Cursor} (h : Returns column ls) (hcolumn : 0 ≤ column)
    (hc : c.rest = '\n' :: render ls) :
    ∃ next, Stops (column + 1) c next true ∧ next.Before ls ∧ c.line < next.line := by
  have hat : Cursor.At ⟨render ls, c.index + 1, c.line + 1, 0⟩ ls := at_render rfl rfl
  obtain ⟨breaks, next, hbreaks, hcontent, hline, hmarked, hends⟩ :=
    moreBreaks_returns h hcolumn hat rfl (Nat.lt_succ_of_le (length_le_render ls))
  have hspan : c.span (· == ' ') = ([], c) := by simp [span, hc, skip]
  refine ⟨next, ⟨by simp [Plain.run, hc, endsAt, isBreak], ?_⟩, ⟨⟨_, hat, hcontent⟩, hmarked⟩, hline⟩
  refine ⟨if breaks.isEmpty then [' '] else breaks, ?_, Or.inr (hends.imp_right fun hle => Or.inl (Int.lt_add_one_of_le hle))⟩
  rw [Plain.gap, hspan]
  simp only
  rw [takeBreak_newline hc]
  simp [h.atDocumentMark, hbreaks]

/-- A line to the right of the margin is not the mark of a document, whatever lines without text stand above it. -/
theorem atDocumentMark_blank {blanks ls : List Line} {l : Line} (hblanks : ∀ b ∈ blanks, b.text = []) (hindent : 0 < l.indent) :
    atDocumentMark (render (blanks ++ l :: ls)) = false := by
  have hspaced : ∀ (l : Line) (more : List Line), 0 < l.indent → atDocumentMark (render (l :: more)) = false := by
    intro l more hl
    obtain ⟨n, hn⟩ : ∃ n, l.indent = n + 1 := ⟨l.indent - 1, by omega⟩
    rw [render_cons, hn]
    exact Text.atDocumentMark_cons (by decide)
  cases blanks with
  | nil => exact hspaced l ls hindent
  | cons b blanks =>
    by_cases hb : 0 < b.indent
    · exact hspaced b _ hb
    · have hmargin : b.indent = 0 := by omega
      rw [List.cons_append, render_cons, hmargin, hblanks b List.mem_cons_self]
      exact Text.atDocumentMark_cons (by decide)

/-- The breaks in front of a further line are those of the lines without text above it. -/
theorem moreBreaks_blank {blanks ls : List Line} {l : Line} {c : Cursor} {fuel : Nat} (hblanks : ∀ b ∈ blanks, b.text = [])
    (hindent : 0 < l.indent) (htext : IsWords l.text) (hc : c.rest = render (blanks ++ l :: ls)) (hstart : c.column = 0)
    (hfuel : blanks.length < fuel) :
    ∃ index line, moreBreaks fuel c = (some (List.replicate blanks.length '\n'),
      ⟨l.text ++ '\n' :: render ls, index, line, l.indent⟩) ∧ c.line ≤ line := by
  obtain ⟨fuel, rfl⟩ : ∃ n, fuel = n + 1 := ⟨fuel - 1, by omega⟩
  induction blanks generalizing c fuel with
  | nil =>
    obtain ⟨x, rest, hx, hplain⟩ := htext.exists_cons
    have hrest : c.rest = List.replicate l.indent ' ' ++ x :: (rest ++ '\n' :: render ls) := by
      rw [hc, List.nil_append, render_cons, hx]
      simp
    have hstop := @moreBreaks_stop c _ fuel _ _ hrest (isPlainChar_ne hplain (by decide))
      (isBreak_of_isInline (isInline_of_isPlainChar hplain))
    exact ⟨c.index + l.indent, c.line, by rw [hstop, hx, hstart]; simp, Nat.le_refl _⟩
  | cons b blanks ih =>
    obtain ⟨hb, hmore⟩ := List.forall_mem_cons.mp hblanks
    obtain ⟨fuel, rfl⟩ : ∃ n, fuel = n + 1 := ⟨fuel - 1, by simp at hfuel; omega⟩
    have hnewline : c.rest = List.replicate b.indent ' ' ++ '\n' :: render (blanks ++ l :: ls) := by
      rw [hc, List.cons_append, render_cons, hb]
      simp
    obtain ⟨index, line, hbreaks, hline⟩ := @ih
      ⟨render (blanks ++ l :: ls), c.index + b.indent + 1, c.line + 1, 0⟩ hmore rfl rfl fuel (by simpa using hfuel)
    refine ⟨index, line, ?_, Nat.le_trans (Nat.le_succ _) hline⟩
    rw [moreBreaks_newline hnewline (atDocumentMark_blank hmore hindent), hbreaks]
    rfl

theorem gap_folded {blanks ls : List Line} {l : Line} {c : Cursor} (hblanks : ∀ b ∈ blanks, b.text = [])
    (hindent : 0 < l.indent) (htext : IsWords l.text) (hc : c.rest = '\n' :: render (blanks ++ l :: ls)) :
    ∃ index line, Plain.gap c = (⟨foldedBreak blanks.length, true⟩, ⟨l.text ++ '\n' :: render ls, index, line, l.indent⟩) ∧
      c.line < line := by
  have hspan : c.span (· == ' ') = ([], c) := by simp [span, hc, skip]
  have hlength : blanks.length < (render (blanks ++ l :: ls)).length + 1 :=
    Nat.lt_succ_of_le (Nat.le_trans (by simp) (length_le_render (blanks ++ l :: ls)))
  obtain ⟨index, line, hbreaks, hline⟩ := @moreBreaks_blank blanks ls l
    ⟨render (blanks ++ l :: ls), c.index + 1, c.line + 1, 0⟩ _ hblanks hindent htext rfl rfl hlength
  refine ⟨index, line, ?_, hline⟩
  rw [Plain.gap, hspan]
  simp only
  rw [takeBreak_newline hc]
  cases hcount : blanks.length with
  | zero => simp [atDocumentMark_blank hblanks hindent, hbreaks, hcount, foldedBreak]
  | succ n => simp [atDocumentMark_blank hblanks hindent, hbreaks, hcount, foldedBreak, List.replicate_succ]

/-- At the end of its line a scalar goes on over its further lines, and stops if the lines below return. The induction
    is on the further lines with text. -/
theorem adds_folds {column : Nat} {more : List Text} {added : Text} {hung ls : List Line} {c : Cursor} (h : Folds more added)
    (hhung : Hung column hung more) (hreturns : Returns column ls) (hc : c.rest = '\n' :: render (hung ++ ls)) :
    ∃ next, (∀ fuel, c.rest.length ≤ fuel → Adds (column + 1) fuel c added next true) ∧ next.Before ls ∧ c.line < next.line := by
  induction h generalizing hung c with
  | nil =>
    obtain rfl := List.map_eq_nil_iff.mp hhung.1
    obtain ⟨next, hstop, hbefore, hline⟩ := stops_newline hreturns (Int.natCast_nonneg column) hc
    exact ⟨next, fun _ _ => .nothing hstop, hbefore, hline⟩
  | @line empty line added more hwords _ ih =>
    obtain ⟨htexts, hright⟩ := hhung
    obtain ⟨blanks, others, rfl, hempty, hothers⟩ := List.map_eq_append_iff.mp htexts
    obtain ⟨l, hung, rfl, rfl, hmore⟩ := List.map_eq_cons_iff.mp hothers
    obtain ⟨-, hright⟩ := List.forall_mem_append.mp hright
    obtain ⟨hl, hright⟩ := List.forall_mem_cons.mp hright
    have hindent : column < l.indent := hl.resolve_left hwords.ne_nil
    have hblanks : ∀ b ∈ blanks, b.text = [] := fun b hb =>
      List.eq_of_mem_replicate (hempty ▸ List.mem_map_of_mem hb)
    have hcount : blanks.length = empty := by simpa using congrArg List.length hempty
    rw [List.append_assoc, List.cons_append] at hc
    obtain ⟨index, below, hgap, hbelow⟩ := gap_folded hblanks (by omega) hwords hc
    obtain ⟨next, hadds, hbefore, hline⟩ := @ih hung
      ⟨'\n' :: render (hung ++ ls), index + l.text.length, below, l.indent + l.text.length⟩ ⟨hmore, hright⟩ rfl
    refine ⟨next, fun fuel hfuel => ?_, hbefore, by simp only at hline; omega⟩
    have hlength : (l.text ++ '\n' :: render (hung ++ ls)).length ≤ fuel := by
      rw [hc, render_append, render_cons] at hfuel
      simp only [List.length_cons, List.length_append] at hfuel ⊢
      omega
    have hscan := @scan_line _ _ _ ⟨l.text ++ '\n' :: render (hung ++ ls), index, below, l.indent⟩ _ (column + 1) _ _ hwords
      rfl (by simp only; omega) hlength hadds
    obtain ⟨x, rest, hx, hplain⟩ := hwords.exists_cons
    rw [hx, List.cons_append] at hscan
    rw [hx, List.cons_append, ← hcount]
    refine .more (by simp [Plain.run, hc, endsAt, isBreak]) hgap (foldedBreak_ne_nil _) ?_ ?_ (by rwa [hx])
    · simpa [hx] using isPlainChar_ne hplain (by decide)
    · simp only
      omega

end Plain
end Yaml
end YamlSplice
