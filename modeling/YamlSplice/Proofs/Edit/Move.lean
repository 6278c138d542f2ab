/-
  YamlSplice.Proofs.Edit.Move — blocks taken to the margin and indented again.

  A block may be moved to the left and to the right, and the lines without content in it may be moved
  by any number of columns.
  - `Block.move`: a moved block has the same parts.
  - `bare_render` / `even_render`: a block without its unit is moved to the margin.
-/

import YamlSplice.Proofs.Edit.Indent
import YamlSplice.Proofs.Edit.Layout

namespace YamlSplice.Layout

variable {L : Leaves} {names : List Text}

/-- No further line of a scalar looks like a comment. -/
def Leaves.Uncommented (L : Leaves) : Prop := ∀ {first : Text} {more : List Text} {value : Value},
  L.Scalar first more value → ∀ text ∈ more, text.head? ≠ some '#'

/-! ## Moved lines -/

/-- The line is further to the right by `more` columns less `less`, unless it is without content. -/
def Line.Moved (more less : Nat) (l l' : Line) : Prop :=
  l'.text = l.text ∧ (Skipped l ∨ l.indent + more = l'.indent + less)

theorem Skipped.of_text {l l' : Line} (h : Skipped l) (htext : l'.text = l.text) : Skipped l' := by
  unfold Skipped
  rwa [htext]

theorem head_of_skipped {l : Line} (h : Skipped l) : l.text = [] ∨ l.text.head? = some '#' := by
  rcases h with h | ⟨comment, h, -⟩
  · exact Or.inl h
  · exact Or.inr (by simp [h])

theorem Line.Moved.eq_of_shown {more less column column' : Nat} {text : Text} {l' : Line}
    (h : Line.Moved more less ⟨column, text⟩ l') (hshown : ¬ Skipped ⟨column, text⟩)
    (hcolumn : column + more = column' + less) : l' = ⟨column', text⟩ := by
  obtain ⟨htext, hskipped | hindent⟩ := h
  · exact absurd hskipped hshown
  · cases l' with
    | mk indent text' =>
      simp only at htext hindent
      rw [htext, show indent = column' by omega]

theorem Leaves.Locatable.shown (hL : L.Locatable names) {name : Text} {key : Value} (hkey : L.Key name key) (column : Nat)
    (rest : Text) : ¬ Skipped ⟨column, name ++ ':' :: rest⟩ := fun hskipped => by
  obtain ⟨c, more, rfl⟩ := List.exists_cons_of_ne_nil (hL.tidy.key hkey).2
  have hfresh := hL.fresh hkey c (by simp)
  rcases head_of_skipped hskipped with hempty | hhead
  · cases hempty
  · obtain rfl : c = '#' := by simpa using hhead
    cases hfresh

theorem not_skipped_item (column : Nat) (first : Text) : ¬ Skipped ⟨column, '-' :: ' ' :: first⟩ := fun hskipped => by
  rcases head_of_skipped hskipped with hempty | hhead
  · cases hempty
  · cases hhead

theorem exists_append_of_forall₂ {α : Type} {R : α → α → Prop} {ls rest others : List α}
    (h : List.Forall₂ R (ls ++ rest) others) :
    ∃ ls' rest', others = ls' ++ rest' ∧ List.Forall₂ R ls ls' ∧ List.Forall₂ R rest rest' := by
  induction ls generalizing others with
  | nil => exact ⟨[], others, rfl, .nil, h⟩
  | cons l ls ih =>
    cases h with
    | cons hfirst hothers =>
      obtain ⟨ls', rest', rfl, hls, hrest⟩ := ih hothers
      exact ⟨_ :: ls', rest', rfl, .cons hfirst hls, hrest⟩

/-- The further lines of a scalar move with it, if none looks like a comment. -/
theorem Hung.move {more less column column' : Nat} {texts : List Text} {hung hung' : List Line}
    (h : Hung column hung texts) (hcomments : ∀ text ∈ texts, text.head? ≠ some '#')
    (hmoved : List.Forall₂ (Line.Moved more less) hung hung') (hcolumn : column + more = column' + less) :
    Hung column' hung' texts := by
  obtain ⟨rfl, hright⟩ := h
  induction hmoved with
  | nil => exact ⟨rfl, by simp⟩
  | @cons l l' hung hung' hfirst _ ih =>
    obtain ⟨hl, hothers⟩ := List.forall_mem_cons.mp hright
    rw [List.map_cons, List.forall_mem_cons] at hcomments
    obtain ⟨htexts, hind⟩ := ih hothers hcomments.2
    obtain ⟨htext, hfirst⟩ := hfirst
    refine ⟨by rw [List.map_cons, List.map_cons, htexts, htext], List.forall_mem_cons.mpr ⟨?_, hind⟩⟩
    rw [htext]
    rcases hl with hempty | hindent
    · exact Or.inl hempty
    · rcases hfirst with hskipped | hsame
      · exact (head_of_skipped hskipped).imp_right fun hhead => absurd hhead hcomments.1
      · right
        omega

/-- A block that is moved has the same parts. -/
theorem Block.move (hL : L.Locatable names) (hcomments : L.Uncommented) {more less column column' : Nat}
    {ls ls' : List Line} {parts : Parts} (h : Block L column ls parts)
    (hmoved : List.Forall₂ (Line.Moved more less) ls ls') (hcolumn : column + more = column' + less) :
    Block L column' ls' parts := by
  induction h generalizing ls' column' with
  | noRows => cases hmoved; exact .noRows _
  | noItems => cases hmoved; exact .noItems _
  | skip hskipped _ ih =>
    cases hmoved with
    | cons hfirst hothers => exact .skip (hskipped.of_text hfirst.1) (ih hothers hcolumn)
  | scalarRow hkey hscalar hhung _ ih =>
    cases hmoved with
    | cons hfirst hothers =>
      obtain ⟨hung', ls', rfl, hhung', hothers⟩ := exists_append_of_forall₂ hothers
      obtain rfl := hfirst.eq_of_shown (hL.shown hkey _ _) hcolumn
      exact .scalarRow hkey hscalar (hhung.move (hcomments hscalar) hhung' hcolumn) (ih hothers hcolumn)
  | @innerRow column inner name key parts block ls rows hkey hne hbelow _ _ ihblock ih =>
    cases hmoved with
    | cons hfirst hothers =>
      obtain ⟨block', ls', rfl, hblock', hothers⟩ := exists_append_of_forall₂ hothers
      obtain rfl := hfirst.eq_of_shown (hL.shown hkey _ _) hcolumn
      have hle : column ≤ inner := by
        cases parts with
        | rows => exact Nat.le_of_lt hbelow
        | items => exact hbelow
      have hinner : inner + more = inner + more - less + less := by omega
      refine .innerRow hkey hne ?_ (ihblock hblock' hinner) (ih hothers hcolumn)
      cases parts <;> simp only [Parts.Below] at hbelow ⊢ <;> omega
  | scalarItem hscalar hhung _ ih =>
    cases hmoved with
    | cons hfirst hothers =>
      obtain ⟨hung', ls', rfl, hhung', hothers⟩ := exists_append_of_forall₂ hothers
      obtain rfl := hfirst.eq_of_shown (not_skipped_item _ _) hcolumn
      exact .scalarItem hscalar (hhung.move (hcomments hscalar) hhung' hcolumn) (ih hothers hcolumn)
  | @innerItem column first parts block ls values hshown hne _ _ ihblock ih =>
    cases hmoved with
    | cons hfirst hothers =>
      obtain ⟨block', ls', rfl, hblock', hothers⟩ := exists_append_of_forall₂ hothers
      obtain rfl := hfirst.eq_of_shown (not_skipped_item _ _) hcolumn
      have hinner : column + 2 + more = column' + 2 + less := by omega
      have hhead : Line.Moved more less ⟨column + 2, first⟩ ⟨column' + 2, first⟩ := ⟨rfl, Or.inr hinner⟩
      exact .innerItem (fun hskipped => hshown (hskipped.of_text rfl)) hne (ihblock (.cons hhead hblock') hinner)
        (ih hothers hcolumn)

/-! ## Lines of a block -/

/-- The line has content at the column or to the right of it, if it has any. -/
def Line.Stands (column : Nat) (l : Line) : Prop :=
  Skipped l ∨ column ≤ l.indent ∧ ∃ c rest, l.text = c :: rest ∧ c ≠ '#'

theorem Line.Stands.mono {column less : Nat} {l : Line} (h : l.Stands column) (hle : less ≤ column) : l.Stands less :=
  h.imp_right fun h => ⟨Nat.le_trans hle h.1, h.2⟩

theorem Leaves.Locatable.stands_key (hL : L.Locatable names) {name : Text} {key : Value} (hkey : L.Key name key)
    (column : Nat) (rest : Text) : Line.Stands column ⟨column, name ++ ':' :: rest⟩ := by
  obtain ⟨c, more, rfl⟩ := List.exists_cons_of_ne_nil (hL.tidy.key hkey).2
  refine Or.inr ⟨Nat.le_refl _, c, _, rfl, ?_⟩
  rintro rfl
  have := hL.fresh hkey '#' (by simp)
  cases this

theorem stands_item (column : Nat) (first : Text) : Line.Stands column ⟨column, '-' :: ' ' :: first⟩ :=
  Or.inr ⟨Nat.le_refl _, '-', _, rfl, by decide⟩

theorem Hung.stands {column : Nat} {texts : List Text} {hung : List Line} (h : Hung column hung texts)
    (hcomments : ∀ text ∈ texts, text.head? ≠ some '#') : ∀ l ∈ hung, l.Stands column := by
  intro l hl
  cases htext : l.text with
  | nil => exact Or.inl (Or.inl htext)
  | cons c rest =>
    have hhead := hcomments l.text (h.1 ▸ List.mem_map_of_mem hl)
    have hright := (h.2 l hl).resolve_left (by simp [htext])
    refine Or.inr ⟨Nat.le_of_lt hright, c, rest, htext, ?_⟩
    rintro rfl
    exact hhead (by simp [htext])

/-- All lines with content in a block are at its column or to the right of it. -/
theorem Block.stands (hL : L.Locatable names) (hcomments : L.Uncommented) {column : Nat} {ls : List Line} {parts : Parts}
    (h : Block L column ls parts) : ∀ l ∈ ls, l.Stands column := by
  induction h with
  | noRows | noItems => simp
  | skip hskipped _ ih => exact List.forall_mem_cons.mpr ⟨Or.inl hskipped, ih⟩
  | scalarRow hkey hscalar hhung _ ih =>
    exact List.forall_mem_cons.mpr ⟨hL.stands_key hkey _ _,
      List.forall_mem_append.mpr ⟨hhung.stands (hcomments hscalar), ih⟩⟩
  | @innerRow column inner name key parts block ls rows hkey _ hbelow _ _ ihblock ih =>
    have hle : column ≤ inner := by
      cases parts with
      | rows => exact Nat.le_of_lt hbelow
      | items => exact hbelow
    exact List.forall_mem_cons.mpr ⟨hL.stands_key hkey _ _,
      List.forall_mem_append.mpr ⟨fun l hl => (ihblock l hl).mono hle, ih⟩⟩
  | scalarItem hscalar hhung _ ih =>
    exact List.forall_mem_cons.mpr ⟨stands_item _ _,
      List.forall_mem_append.mpr ⟨hhung.stands (hcomments hscalar), ih⟩⟩
  | innerItem _ _ _ _ ihblock ih =>
    exact List.forall_mem_cons.mpr ⟨stands_item _ _, List.forall_mem_append.mpr
      ⟨fun l hl => (ihblock l (List.mem_cons_of_mem _ hl)).mono (Nat.le_add_right _ 2), ih⟩⟩

/-! ## The unit of a block -/

theorem isBlank_of_mem_spaces {n : Nat} : ∀ b ∈ List.replicate n ' ', Text.isBlank b = true := by
  intro b hb
  rw [List.eq_of_mem_replicate hb]
  decide

theorem isRemark_of_skipped {l : Line} (h : Skipped l) : Margin.isRemark l.content = true := by
  rcases h with htext | ⟨comment, htext, -⟩
  · have hblank : Text.hasContent l.content = false := by
      rw [Line.content, htext, List.append_nil, Text.hasContent, List.any_eq_false]
      intro b hb
      simp [isBlank_of_mem_spaces b hb]
    rw [Margin.isRemark, (Text.strip_eq_nil_iff _).mpr hblank]
    rfl
  · rw [Margin.isRemark, Line.content, htext, Text.head?_strip isBlank_of_mem_spaces (by decide)]
    rfl

/-- A line that looks like a comment is one, in a block. -/
theorem Line.Stands.skipped {column : Nat} {l : Line} (h : l.Stands column) (htidy : Layout.Tidy l.text)
    (hremark : Margin.isRemark l.content = true) : Skipped l := by
  rcases h with h | ⟨-, c, rest, htext, hc⟩
  · exact h
  · have hblank : Text.isBlank c = false := by
      obtain ⟨d, more, htext', hd⟩ := htidy.2.resolve_left (by simp [htext])
      obtain ⟨rfl, -⟩ := List.cons.inj (htext.symm.trans htext')
      exact hd
    rw [Margin.isRemark, Line.content, htext, Text.head?_strip isBlank_of_mem_spaces hblank] at hremark
    exact absurd (by simpa using hremark) hc

theorem le_indent_of_append {width indent : Nat} {text rest : Text} (htidy : Layout.Tidy text)
    (h : List.replicate indent ' ' ++ text = List.replicate width ' ' ++ rest) : width ≤ indent := by
  by_contra hlt
  obtain ⟨n, rfl⟩ : ∃ n, width = indent + (n + 1) := ⟨width - indent - 1, by omega⟩
  rw [← List.replicate_append_replicate, List.append_assoc, List.append_cancel_left_eq, List.replicate_succ] at h
  rcases htidy.2 with hempty | ⟨c, more, htext, hc⟩
  · rw [hempty] at h
    cases h
  · rw [htext] at h
    obtain ⟨rfl, -⟩ := List.cons.inj h
    revert hc
    decide

theorem startsWith_content {l : Line} (htidy : Layout.Tidy l.text) (width : Nat) :
    Text.startsWith l.content (List.replicate width ' ') = decide (width ≤ l.indent) := by
  rw [Bool.eq_iff_iff, Text.startsWith_iff, decide_eq_true_iff]
  refine ⟨fun ⟨rest, h⟩ => le_indent_of_append htidy h, fun hle => ?_⟩
  obtain ⟨n, hn⟩ := Nat.exists_eq_add_of_le hle
  exact ⟨List.replicate n ' ' ++ l.text, by
    rw [Line.content, hn, ← List.replicate_append_replicate, List.append_assoc]⟩

/-- The line moved to the left, if it is that far to the right. -/
def Line.outdent (width : Nat) (l : Line) : Line := if width ≤ l.indent then ⟨l.indent - width, l.text⟩ else l

theorem bareLine_content {l : Line} (htidy : Layout.Tidy l.text) (width : Nat) :
    Margin.bareLine (List.replicate width ' ') ⟨l.content, Text.startsWith l.content (List.replicate width ' ')⟩ =
      (l.outdent width).content := by
  rw [Margin.bareLine, startsWith_content htidy, Line.outdent]
  by_cases hle : width ≤ l.indent
  · obtain ⟨n, hn⟩ := Nat.exists_eq_add_of_le hle
    simp [Line.content, hn, ← List.replicate_append_replicate]
  · simp [hle]

/-- Without its unit a block is moved to the left. -/
theorem bare_render {ls : List Line} (htidy : ∀ l ∈ ls, Layout.Tidy l.text) (width : Nat) :
    Margin.bare (Margin.marks (render ls) (List.replicate width ' ')) (List.replicate width ' ') =
      render (ls.map (Line.outdent width)) := by
  rw [Margin.bare, Margin.marks, List.map_map]
  refine unlines_map_render htidy (fun l hl => bareLine_content (htidy l hl) width) ?_
  simp [Margin.bareLine]

theorem Line.Stands.moved {width : Nat} {l : Line} (h : l.Stands width) : Line.Moved 0 width l (l.outdent width) := by
  unfold Line.outdent
  split
  · next hle => exact ⟨rfl, Or.inr (by simp; omega)⟩
  · next hlt => exact ⟨rfl, Or.inl (h.resolve_right fun hstands => hlt hstands.1)⟩

theorem moved_outdent {width : Nat} {ls : List Line} (h : ∀ l ∈ ls, l.Stands width) :
    List.Forall₂ (Line.Moved 0 width) ls (ls.map (Line.outdent width)) := by
  induction ls with
  | nil => exact .nil
  | cons l ls ih =>
    obtain ⟨hl, hls⟩ := List.forall_mem_cons.mp h
    exact .cons hl.moved (ih hls)

theorem even_render {ls : List Line} {width : Nat} (htidy : ∀ l ∈ ls, Layout.Tidy l.text)
    (h : ∀ l ∈ ls, l.Stands width) : Margin.Even (List.replicate width ' ') (render ls) := by
  intro line hline hremark
  rw [lines_render htidy] at hline
  rcases List.mem_append.mp hline with hline | hline
  · obtain ⟨l, hl, rfl⟩ := List.mem_map.mp hline
    rw [startsWith_content (htidy l hl), decide_eq_true_iff]
    rcases h l hl with hskipped | ⟨hle, -⟩
    · rw [isRemark_of_skipped hskipped] at hremark
      cases hremark
    · exact hle
  · obtain rfl := List.mem_singleton.mp hline
    cases hremark

end YamlSplice.Layout
