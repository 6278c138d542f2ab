/-
  YamlSplice.Proofs.Edit.Raise — lines put back at a column, up to comments and to blank lines at the end.

  When a changed block is put back, its lines with content are moved to the right by its unit. A comment may come to
  stand elsewhere, since it takes the place of another one that reads the same; an empty line stays as it is. How many
  blank lines stand at the end of a block is settled by what is below it.
  - `Raised`: lines that are put back in this way.
  - `Raised.split`: lines that stand one below another are put back one by one.
  - `Raised.outdent`: taken to the margin again, they are the same lines once more.
  - `Block.raise`: a block that is put back has the same parts.
  - `exists_render_of_indented`: a block with the unit put back is moved to the right, and it is raised if every blank line
    of the block that the unit was taken from is empty.
-/

import YamlSplice.Proofs.Edit.Move

namespace YamlSplice.Layout

variable {L : Leaves} {names : List Text} {width more column : Nat} {l l' l'' : Line} {ls ls' ls'' above below : List Line}

/-- The line stands further to the right, unless it is a comment or made of blanks. -/
structure Line.Raised (width : Nat) (l l' : Line) : Prop where
  text : l'.text = l.text
  place : Skipped l ∨ l'.indent = l.indent + width
  empty : l.text = [] → l.indent = 0 → l'.indent = 0

namespace Line.Raised

theorem refl (l : Line) : l.Raised 0 l := ⟨rfl, Or.inr rfl, fun _ => id⟩

theorem trans (h : l.Raised width l') (h' : l'.Raised more l'') : l.Raised (width + more) l'' where
  text := h'.text.trans h.text
  place := by
    rcases h.place with hskipped | hplace
    · exact Or.inl hskipped
    · refine h'.place.imp (fun hskipped => hskipped.of_text h.text.symm) fun hplace' => ?_
      omega
  empty htext hflush := h'.empty (h.text.trans htext) (h.empty htext hflush)

theorem moved (h : l.Raised width l') : Line.Moved width 0 l l' := ⟨h.text, h.place.imp_right fun hplace => hplace.symm⟩

theorem outdent (h : l.Raised width l') : l.Raised 0 (l'.outdent width) := by
  unfold Line.outdent
  split
  · next hle => exact ⟨h.text, h.place.imp_right fun hplace => by simp only; omega, fun htext hflush => by
      have := h.empty htext hflush
      simp only
      omega⟩
  · next hlt => exact ⟨h.text, h.place.imp_right fun hplace => absurd hplace (by omega), h.empty⟩

theorem eq_of_shown {text : Text} (h : Line.Raised width ⟨column, text⟩ l') (hshown : ¬ Skipped ⟨column, text⟩) :
    l' = ⟨column + width, text⟩ := h.moved.eq_of_shown hshown rfl

end Line.Raised

theorem Line.text_outdent (width : Nat) (l : Line) : (l.outdent width).text = l.text := by
  unfold Line.outdent
  split <;> rfl

/-- The lines stand further to the right, but for comments, and up to blank lines at the end. -/
inductive Raised (width : Nat) : List Line → List Line → Prop where
  | blank {ls ls' : List Line} : (∀ l ∈ ls, l.text = []) → (∀ l ∈ ls', l.text = []) → Raised width ls ls'
  | cons {l l' : Line} {ls ls' : List Line} : l.Raised width l' → Raised width ls ls' → Raised width (l :: ls) (l' :: ls')

namespace Raised

theorem of_forall₂ (h : List.Forall₂ (Line.Raised width) ls ls') : Raised width ls ls' := by
  induction h with
  | nil => exact .blank (by simp) (by simp)
  | cons hfirst _ ih => exact .cons hfirst ih

theorem refl (ls : List Line) : Raised 0 ls ls := .of_forall₂ (List.forall₂_same.mpr fun l _ => .refl l)

/-- Blank lines may be added at the end. -/
theorem append_blank (h : Raised width ls ls') {blanks : List Line} (hblanks : ∀ l ∈ blanks, l.text = []) :
    Raised width ls (ls' ++ blanks) := by
  induction h with
  | blank hls hls' => exact .blank hls (List.forall_mem_append.mpr ⟨hls', hblanks⟩)
  | cons hfirst _ ih => exact .cons hfirst ih

theorem blank_iff (h : Raised width ls ls') : (∀ l ∈ ls, l.text = []) ↔ ∀ l ∈ ls', l.text = [] := by
  induction h with
  | blank hls hls' => exact ⟨fun _ => hls', fun _ => hls⟩
  | cons hfirst _ ih => rw [List.forall_mem_cons, List.forall_mem_cons, hfirst.text, ih]

/-- Blank lines may be left out at the end. -/
theorem of_append_blank {blanks : List Line} (h : Raised width ls (ls' ++ blanks)) (hblanks : ∀ l ∈ blanks, l.text = []) :
    Raised width ls ls' := by
  induction ls' generalizing ls with
  | nil => exact .blank (h.blank_iff.mpr hblanks) (by simp)
  | cons l' ls' ih =>
    rw [List.cons_append] at h
    cases h with
    | blank hls hls' => exact .blank hls fun o ho => hls' o (List.mem_append_left blanks ho)
    | cons hfirst hrest => exact .cons hfirst (ih hrest)

theorem trans (h : Raised width ls ls') (h' : Raised more ls' ls'') : Raised (width + more) ls ls'' := by
  induction h generalizing ls'' with
  | blank hls hls' => exact .blank hls (h'.blank_iff.mp hls')
  | cons hfirst hrest ih =>
    cases h' with
    | blank hls' hlast => exact .blank ((Raised.cons hfirst hrest).blank_iff.mpr hls') hlast
    | cons hfirst' hrest' => exact .cons (hfirst.trans hfirst') (ih hrest')

/-- Taken to the margin again, the lines are those that were put back. -/
theorem outdent (h : Raised width ls ls') : Raised 0 ls (ls'.map (Line.outdent width)) := by
  induction h with
  | @blank ls ls' hls hls' =>
    refine .blank hls fun l hl => ?_
    obtain ⟨l', hl', rfl⟩ := List.mem_map.mp hl
    rw [Line.text_outdent, hls' l' hl']
  | cons hfirst _ ih => exact .cons hfirst.outdent ih

/-- Lines that stand one below another are put back one by one. -/
theorem split (h : Raised width (above ++ below) ls) :
    ∃ above' below', ls = above' ++ below' ∧ Raised width above above' ∧ Raised width below below' := by
  induction above generalizing ls with
  | nil => exact ⟨[], ls, rfl, .blank (by simp) (by simp), h⟩
  | cons l above ih =>
    rw [List.cons_append] at h
    cases h with
    | blank hblank hls =>
      rw [← List.cons_append] at hblank
      obtain ⟨habove, hbelow⟩ := List.forall_mem_append.mp hblank
      exact ⟨[], ls, rfl, .blank habove (by simp), .blank hbelow hls⟩
    | cons hfirst hrest =>
      obtain ⟨above', below', rfl, habove, hbelow⟩ := ih hrest
      exact ⟨_ :: above', below', rfl, .cons hfirst habove, hbelow⟩

/-- No line is left over at the end of lines the last of which has content. -/
theorem split_shown (h : Raised width (above ++ below) ls) (hlast : ∀ last ∈ above.getLast?, last.text ≠ []) :
    ∃ above' below', ls = above' ++ below' ∧ List.Forall₂ (Line.Raised width) above above' ∧ Raised width below below' := by
  induction above generalizing ls with
  | nil => exact ⟨[], ls, rfl, .nil, h⟩
  | cons l above ih =>
    rw [List.cons_append] at h
    cases h with
    | blank hblank _ =>
      obtain ⟨last, hmem⟩ := Option.isSome_iff_exists.mp (by simp : (l :: above).getLast?.isSome)
      exact absurd (hblank last (List.mem_append_left below (List.mem_of_getLast? hmem))) (hlast last hmem)
    | cons hfirst hrest =>
      obtain ⟨above', below', rfl, habove, hbelow⟩ := ih hrest fun last hmem => hlast last (by
        rw [List.getLast?_cons, hmem]
        rfl)
      exact ⟨_ :: above', below', rfl, .cons hfirst habove, hbelow⟩

/-- A line with content is put back between what is above it and what is below it. -/
theorem split_line (h : Raised width (above ++ l :: below) ls) (hl : l.text ≠ []) :
    ∃ above' l' below', ls = above' ++ l' :: below' ∧ List.Forall₂ (Line.Raised width) above above' ∧ l.Raised width l' ∧
      Raised width below below' := by
  rw [List.append_cons] at h
  obtain ⟨front, below', rfl, hfront, hbelow⟩ := h.split_shown (by simpa using hl)
  obtain ⟨above', rest, rfl, habove, hrest⟩ := exists_append_of_forall₂ hfront
  cases hrest with
  | cons hfirst hnil =>
    cases hnil
    exact ⟨above', _, below', by simp, habove, hfirst, hbelow⟩

end Raised

/-! ## Blocks -/

/-- Blank lines are the lines of a block without parts. -/
theorem Block.of_blank {parts : Parts} (h : Block L column [] parts) (hls : ∀ l ∈ ls, l.text = []) :
    Block L column ls parts := by
  induction ls with
  | nil => exact h
  | cons l ls ih =>
    obtain ⟨hl, hls⟩ := List.forall_mem_cons.mp hls
    exact .skip (Or.inl hl) (ih hls)

/-- The further lines of a scalar do not end with a blank line. -/
theorem Hung.raise (hL : L.Locatable names) (hcomments : L.Uncommented) {first : Text} {texts : List Text} {value : Value}
    {hung : List Line} (h : Hung column hung texts) (hscalar : L.Scalar first texts value)
    (hraised : Raised width (hung ++ below) ls) :
    ∃ hung' below', ls = hung' ++ below' ∧ Hung (column + width) hung' texts ∧ Raised width below below' := by
  have hlast : ∀ last ∈ hung.getLast?, last.text ≠ [] := fun last hmem => hL.ended hscalar _ (by
    rw [← h.1, List.getLast?_map]
    exact Option.mem_map_of_mem _ hmem)
  obtain ⟨hung', below', rfl, hhung, hbelow⟩ := hraised.split_shown hlast
  exact ⟨hung', below', rfl, h.move (hcomments hscalar) (hhung.imp fun _ _ => Line.Raised.moved) rfl, hbelow⟩

/-- A line with content is put back as the first of its block. -/
theorem Raised.cons_shown {text : Text} (h : Raised width (⟨column, text⟩ :: below) ls) (hshown : ¬ Skipped ⟨column, text⟩) :
    ∃ below', ls = ⟨column + width, text⟩ :: below' ∧ Raised width below below' := by
  cases h with
  | blank hls _ => exact absurd (Or.inl (hls _ List.mem_cons_self)) hshown
  | cons hfirst hrest => exact ⟨_, by rw [hfirst.eq_of_shown hshown], hrest⟩

/-- A block that is put back has the same parts. -/
theorem Block.raise (hL : L.Locatable names) (hcomments : L.Uncommented) {parts : Parts} (h : Block L column ls parts)
    (hraised : Raised width ls ls') : Block L (column + width) ls' parts := by
  induction h generalizing ls' with
  | noRows => exact .of_blank (.noRows _) (hraised.blank_iff.mp (by simp))
  | noItems => exact .of_blank (.noItems _) (hraised.blank_iff.mp (by simp))
  | skip hskipped _ ih =>
    cases hraised with
    | blank hls hls' => exact ih (.blank (List.forall_mem_cons.mp hls).2 hls')
    | cons hfirst hrest => exact .skip (hskipped.of_text hfirst.text) (ih hrest)
  | scalarRow hkey hscalar hhung _ ih =>
    obtain ⟨rest, rfl, hrest⟩ := hraised.cons_shown (hL.shown hkey _ _)
    obtain ⟨hung', ls', rfl, hhung', hls⟩ := hhung.raise hL hcomments hscalar hrest
    exact .scalarRow hkey hscalar hhung' (ih hls)
  | @innerRow column inner name key parts block ls rows hkey hne hbelow _ _ ihblock ih =>
    obtain ⟨rest, rfl, hrest⟩ := hraised.cons_shown (hL.shown hkey _ _)
    obtain ⟨block', ls', rfl, hblock, hls⟩ := hrest.split
    refine .innerRow hkey hne ?_ (ihblock hblock) (ih hls)
    cases parts <;> simp only [Parts.Below] at hbelow ⊢ <;> omega
  | scalarItem hscalar hhung _ ih =>
    obtain ⟨rest, rfl, hrest⟩ := hraised.cons_shown (not_skipped_item _ _)
    obtain ⟨hung', ls', rfl, hhung', hls⟩ := hhung.raise hL hcomments hscalar hrest
    exact .scalarItem hscalar hhung' (ih hls)
  | @innerItem column first parts block ls values hshown hne _ _ ihblock ih =>
    obtain ⟨rest, rfl, hrest⟩ := hraised.cons_shown (not_skipped_item _ _)
    obtain ⟨block', ls', rfl, hblock, hls⟩ := hrest.split
    have hhead : Line.Raised width ⟨column + 2, first⟩ ⟨column + width + 2, first⟩ :=
      ⟨rfl, Or.inr (Nat.add_right_comm _ _ _), fun hempty => absurd (Or.inl hempty) hshown⟩
    have hinner := ihblock (.cons hhead hblock)
    rw [Nat.add_right_comm] at hinner
    exact .innerItem (fun hskipped => hshown (hskipped.of_text rfl)) hne hinner (ih hls)

/-! ## The unit put back -/

/-- A block in which every blank line is empty is flat. -/
theorem flat_render (htidy : ∀ l ∈ ls, Layout.Tidy l.text) (hempty : ∀ l ∈ ls, l.text = [] → l.indent = 0)
    (hwidth : 0 < width) : Margin.Flat (List.replicate width ' ') (render ls) := by
  have hnone : Text.startsWith [] (List.replicate width ' ') = false := by
    obtain ⟨n, rfl⟩ : ∃ n, width = n + 1 := ⟨width - 1, by omega⟩
    rfl
  intro line hline hblank
  rw [lines_render htidy] at hline
  rcases List.mem_append.mp hline with hline | hline
  · obtain ⟨l, hl, rfl⟩ := List.mem_map.mp hline
    have htext : l.text = [] := by
      rcases (htidy l hl).2 with htext | ⟨c, rest, htext, hc⟩
      · exact htext
      · have hmem : c ∈ l.content := by simp [Line.content, htext]
        simpa [hc] using List.any_eq_false.mp hblank c hmem
    rw [Line.content, htext, hempty l hl htext]
    exact hnone
  · rw [List.mem_singleton.mp hline]
    exact hnone

/-- The lines of a changed block, each with the unit in front or without. -/
theorem exists_moved_of_indented {others : List Text} {block : Text} (htidy : ∀ l ∈ ls, Layout.Tidy l.text)
    (hstands : ∀ l ∈ ls, l.Stands 0)
    (h : List.Forall₂ (Margin.Indented (List.replicate width ' ') block) (ls.map Line.content) others) :
    ∃ ls', others = ls'.map Line.content ∧ List.Forall₂ (Line.Moved width 0) ls ls' ∧
      (Margin.Flat (List.replicate width ' ') block → List.Forall₂ (Line.Raised width) ls ls') := by
  induction ls generalizing others with
  | nil =>
    cases h
    exact ⟨[], rfl, .nil, fun _ => .nil⟩
  | cons l ls ih =>
    obtain ⟨hl, hlsTidy⟩ := List.forall_mem_cons.mp htidy
    obtain ⟨hlStands, hlsStands⟩ := List.forall_mem_cons.mp hstands
    rw [List.map_cons] at h
    cases h with
    | cons hfirst hothers =>
      obtain ⟨ls', rfl, hls', hraised⟩ := ih hlsTidy hlsStands hothers
      obtain ⟨mark, rfl, hmark, hblank⟩ := hfirst
      cases mark with
      | true =>
        refine ⟨⟨l.indent + width, l.text⟩ :: ls', ?_, .cons ⟨rfl, Or.inr rfl⟩ hls', fun hflat =>
          .cons ⟨rfl, Or.inr rfl, fun htext _ => ?_⟩ (hraised hflat)⟩
        · simp [Margin.indentLine, Line.content, Nat.add_comm l.indent, ← List.replicate_append_replicate]
        · have hnone : Text.hasContent l.content = false := by
            rw [Line.content, htext, List.append_nil, Text.hasContent, List.any_eq_false]
            intro b hb
            simp [isBlank_of_mem_spaces b hb]
          cases hblank hflat hnone
      | false =>
        have hskipped : Skipped l := hlStands.skipped hl (by
          by_contra hremark
          cases hmark (Bool.eq_false_iff.mpr hremark))
        exact ⟨l :: ls', rfl, .cons ⟨rfl, Or.inl hskipped⟩ hls', fun hflat =>
          .cons ⟨rfl, Or.inl hskipped, fun _ => id⟩ (hraised hflat)⟩

/-- With its unit put back a block is moved to the right. Behind its last line there may be blanks, but not if the block
    that the unit was taken from is flat. -/
theorem exists_render_of_indented {text block : Text} (htidy : ∀ l ∈ ls, Layout.Tidy l.text)
    (hstands : ∀ l ∈ ls, l.Stands 0) (hne : ls ≠ []) (hwidth : 0 < width)
    (h : List.Forall₂ (Margin.Indented (List.replicate width ' ') block) (Text.lines (render ls)) (Text.lines text)) :
    ∃ ls' skips, Text.closeLine text = render (ls' ++ skips) ∧ List.Forall₂ (Line.Moved width 0) ls ls' ∧
      (∀ l ∈ skips, Skipped l) ∧ (Margin.Flat (List.replicate width ' ') block → Raised width ls (ls' ++ skips)) := by
  rw [lines_render htidy] at h
  obtain ⟨others, last, hlines, hothers, mark, rfl, -, hblank⟩ : ∃ others last, Text.lines text = others ++ [last] ∧
      List.Forall₂ (Margin.Indented (List.replicate width ' ') block) (ls.map Line.content) others ∧
      Margin.Indented (List.replicate width ' ') block [] last := by
    obtain ⟨others, lasts, hlines, hothers, hlasts⟩ := exists_append_of_forall₂ h
    cases hlasts with
    | cons hlast hnil =>
      cases hnil
      exact ⟨others, _, hlines, hothers, hlast⟩
  obtain ⟨ls', rfl, hmoved, hraised⟩ := exists_moved_of_indented htidy hstands hothers
  have htext : text = render ls' ++ Margin.indentLine (List.replicate width ' ') mark [] := by
    rw [← unlines_content, ← hlines, Text.unlines_lines]
  cases mark with
  | true =>
    refine ⟨ls', [⟨width, []⟩], ?_, hmoved, by simp [Skipped], fun hflat => nomatch hblank hflat rfl⟩
    have hends : Text.endsLine text = false := by
      obtain ⟨n, rfl⟩ : ∃ n, width = n + 1 := ⟨width - 1, by omega⟩
      simp [htext, Margin.indentLine, Text.endsLine, List.replicate_succ']
    rw [Text.closeLine, hends, htext, render_append]
    simp [Margin.indentLine, render, Line.render, Line.content]
  | false =>
    refine ⟨ls', [], ?_, hmoved, by simp, fun hflat => by simpa using Raised.of_forall₂ (hraised hflat)⟩
    obtain ⟨front, last, rfl⟩ := (List.eq_nil_or_concat ls').resolve_left fun hnil => by
      rw [hnil, List.forall₂_nil_right_iff] at hmoved
      exact hne hmoved
    have hends : Text.endsLine text = true := by
      simp [htext, Margin.indentLine, render, Line.render, Text.endsLine]
    rw [Text.closeLine_of_endsLine hends, htext]
    simp [Margin.indentLine]

end YamlSplice.Layout
