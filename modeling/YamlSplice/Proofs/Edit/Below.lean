/-
  YamlSplice.Proofs.Edit.Below — the block below a key, and the section of the key around it.

  A merge goes down from the section of a key to the block below its key line, and afterwards the key line and what is
  left of the block are a section again. For this to hold at any depth, the document has to be such that every block in
  it can be changed at the margin, and this has to be handed down.
  - `Orderly`: what is asked of the lines of a document, and holds of the lines of its blocks at the margin too.
  - `Headed`: above the first row of a block stand comments and empty lines. This stays so when the block is put back.
  - `Block.unit`: then the column of the block is its unit.
  - `Laid.below`: the section of a key with a mapping is a key line and a block.
  - `Block.section_below`: a key line and a block are a section, up to the blank lines at the end.
-/

import YamlSplice.Proofs.Edit.Merge
import YamlSplice.Proofs.Yaml.Keys

namespace YamlSplice.Layout

open Edit Value

variable {L : Leaves} {names : List Text}

/-- In every block mapping among the lines the keys differ to the eye, and no line is made of blanks alone. -/
structure Orderly (L : Leaves) (ls : List Line) : Prop where
  differ {column : Nat} {inner : List Line} {rows : List (Value × Value)} :
    inner <:+: ls → Block L column inner (.rows rows) → Differ rows
  flush : ∀ l ∈ ls, l.text = [] → l.indent = 0

theorem Orderly.mono {ls more : List Line} (h : Orderly L more) (hls : ls <:+: more) : Orderly L ls where
  differ hinner := h.differ (hinner.trans hls)
  flush l hl := h.flush l (hls.subset hl)

theorem Line.Moved.symm {more less : Nat} {l l' : Line} (h : Line.Moved more less l l') : Line.Moved less more l' l :=
  ⟨h.1.symm, h.2.imp (Skipped.of_text · h.1) Eq.symm⟩

/-- The lines of a block at the margin are as orderly as they were at its column. -/
theorem Orderly.outdent (hL : L.Locatable names) (hcomments : L.Uncommented) {width : Nat} {ls : List Line}
    (h : Orderly L ls) (hwidth : 0 < width) (hstands : ∀ l ∈ ls, l.Stands width) :
    Orderly L (ls.map (Line.outdent width)) where
  differ := by
    rintro column inner rows ⟨above, below, hwhole⟩ hblock
    -- the lines are those of a block further to the right
    obtain ⟨front, back, rfl, hfront, -⟩ := List.map_eq_append_iff.mp hwhole.symm
    obtain ⟨above', inner', rfl, -, rfl⟩ := List.map_eq_append_iff.mp hfront
    have hmoved := moved_outdent fun l hl => hstands l (List.mem_append_left _ (List.mem_append_right _ hl))
    have hback := List.Forall₂.flip (hmoved.imp fun _ _ => Line.Moved.symm)
    exact h.differ ⟨above', back, rfl⟩ (hblock.move hL hcomments hback rfl)
  flush := by
    intro l hl hempty
    obtain ⟨l, hmem, rfl⟩ := List.mem_map.mp hl
    unfold Line.outdent at hempty ⊢
    split at hempty
    · next hle =>
      have := h.flush l hmem hempty
      omega
    · next hlt =>
      rw [if_neg hlt]
      exact h.flush l hmem hempty

/-- What stands in a line up to the first colon. -/
def Line.key (l : Line) : Text := l.text.takeWhile (· != ':')

/-- The keys of a block are shown by some of its lines. -/
theorem Block.keys_sublist (hL : ∀ names, L.Locatable names) {column : Nat} {ls : List Line} {rows : List (Value × Value)}
    (h : Block L column ls (.rows rows)) : (rows.map fun e => keyText e.1).Sublist (ls.map Line.key) := by
  have hkey : ∀ {name rest : Text} {key : Value} (column : Nat), L.Key name key →
      keyText key = Line.key ⟨column, name ++ ':' :: rest⟩ := by
    intro name rest key column hkey
    rw [(hL [name]).text List.mem_cons_self hkey, Line.key, List.takeWhile_append_of_pos fun c hc => ?_]
    · simp
    · simpa using fun hsame : c = ':' => (hL [name]).colon hkey (hsame ▸ hc)
  generalize hparts : Parts.rows rows = parts at h
  induction h generalizing rows with
  | noRows =>
    cases hparts
    exact List.Sublist.refl []
  | noItems | scalarItem | innerItem => cases hparts
  | skip _ _ ih => exact (ih hparts).cons _
  | scalarRow hk _ _ _ ih | innerRow hk _ _ _ _ _ ih =>
    cases hparts
    rw [List.map_cons, List.map_cons, List.map_append, hkey _ hk]
    exact ((ih rfl).trans (List.sublist_append_right _ _)).cons_cons _

/-- Lines that show different keys are orderly. -/
theorem Orderly.of_keys (hL : ∀ names, L.Locatable names) {ls : List Line} (hkeys : (ls.map Line.key).Nodup)
    (hflush : ∀ l ∈ ls, l.text = [] → l.indent = 0) : Orderly L ls where
  differ hinner hblock :=
    List.pairwise_map.mp (((hblock.keys_sublist hL).trans (hinner.sublist.map _)).nodup hkeys)
  flush := hflush

/-! ## The unit of a block -/

/-- A line without content shows no unit, unless it is made of blanks. -/
theorem unitWidth?_skip {l : Line} (h : Skipped l) (hflush : l.text = [] → l.indent = 0) (ls : List Line) :
    Margin.unitWidth? (render (l :: ls)) = Margin.unitWidth? (render ls) := by
  have hline : render (l :: ls) = l.content ++ '\n' :: render ls := by simp [render, Line.render]
  have hnone : Margin.unitAtStart? (render (l :: ls)) = none := by
    rcases h with hempty | ⟨comment, hcomment, -⟩
    · rw [hline, Line.content, hempty, hflush hempty]
      rfl
    · have hspaces : (render (l :: ls)).takeWhile (· == ' ') = List.replicate l.indent ' ' := by
        rw [hline, Line.content, hcomment, List.append_assoc,
          List.takeWhile_append_of_pos fun c hc => by simp [List.eq_of_mem_replicate hc]]
        simp
      rw [Margin.unitAtStart?, hspaces, hline, Line.content, hcomment, List.append_assoc, List.drop_left]
      simp
  rw [Margin.unitWidth?, hnone, hline, Margin.unitAfterNewline?_line (Line.newline_not_mem h.tidy)]

theorem Block.of_skipped (hL : L.Locatable names) {column : Nat} {l : Line} {ls : List Line}
    {rows : List (Value × Value)} (h : Block L column (l :: ls) (.rows rows)) (hskipped : Skipped l) :
    Block L column ls (.rows rows) := by
  cases h with
  | skip _ h => exact h
  | scalarRow hkey | innerRow hkey => exact absurd hskipped (hL.shown hkey _ _)

/-- Above the first line with content stand comments and empty lines, but none made of blanks. -/
inductive Headed : List Line → Prop where
  | here {l : Line} {ls : List Line} : ¬ Skipped l → Headed (l :: ls)
  | under {l : Line} {ls : List Line} : (l.text = [] → l.indent = 0) → Headed ls → Headed (l :: ls)

theorem Headed.append {ls : List Line} (h : Headed ls) (more : List Line) : Headed (ls ++ more) := by
  induction h with
  | here hshown => exact .here hshown
  | under hempty _ ih => exact .under hempty ih

/-- Lines without content, none of them made of blanks, may stand above. -/
theorem Headed.of_skipped {lead ls : List Line} (hlead : ∀ l ∈ lead, l.text = [] → l.indent = 0) (h : Headed ls) :
    Headed (lead ++ ls) := by
  induction lead with
  | nil => exact h
  | cons l lead ih =>
    obtain ⟨hl, hlead⟩ := List.forall_mem_cons.mp hlead
    exact .under hl (ih hlead)

theorem Headed.exists_shown {ls : List Line} (h : Headed ls) : ∃ l ∈ ls, l.text ≠ [] := by
  induction h with
  | here hshown => exact ⟨_, List.mem_cons_self, fun hempty => hshown (Or.inl hempty)⟩
  | under _ _ ih => exact ih.imp fun _ h => ⟨List.mem_cons_of_mem _ h.1, h.2⟩

theorem Headed.raise {width : Nat} {ls ls' : List Line} (h : Headed ls) (hraised : Raised width ls ls') : Headed ls' := by
  induction h generalizing ls' with
  | here hshown =>
    cases hraised with
    | blank hls _ => exact absurd (Or.inl (hls _ List.mem_cons_self)) hshown
    | cons hfirst _ => exact .here fun hskipped => hshown (hskipped.of_text hfirst.text.symm)
  | @under l ls hempty hheaded ih =>
    cases hraised with
    | blank hls _ =>
      obtain ⟨o, ho, hshown⟩ := hheaded.exists_shown
      exact absurd (hls o (List.mem_cons_of_mem l ho)) hshown
    | cons hfirst hrest => exact .under (fun htext => hfirst.empty (hfirst.text ▸ htext) (hempty (hfirst.text ▸ htext))) (ih hrest)

/-- Where every blank line is empty, a block of rows is headed. -/
theorem Block.headed {width : Nat} {ls : List Line} {rows : List (Value × Value)} (h : Block L width ls (.rows rows))
    (hL : L.Locatable names) (hne : rows ≠ []) (hempty : ∀ l ∈ ls, l.text = [] → l.indent = 0) : Headed ls := by
  induction ls with
  | nil =>
    cases h
    exact absurd rfl hne
  | cons l ls ih =>
    obtain ⟨hl, hls⟩ := List.forall_mem_cons.mp hempty
    by_cases hskipped : Skipped l
    · exact .under hl (ih (h.of_skipped hL hskipped) hls)
    · exact .here hskipped

/-- The column of a block of rows is its unit, whatever comments stand above the first row. -/
theorem Block.unit (hL : L.Locatable names) {width : Nat} {ls : List Line} {rows : List (Value × Value)}
    (h : Block L width ls (.rows rows)) (hne : rows ≠ []) (hwidth : 0 < width) (hheaded : Headed ls) :
    Margin.unitWidth? (render ls) = some width := by
  induction hheaded with
  | here hshown => exact h.unitWidth hL hne hwidth (by simpa using hshown)
  | @under l ls hempty _ ih =>
    by_cases hskipped : Skipped l
    · rw [unitWidth?_skip hskipped hempty, ih (h.of_skipped hL hskipped)]
    · exact h.unitWidth hL hne hwidth (by simpa using hskipped)

/-! ## The block below a key -/

/-- No scalar is a mapping, so that every mapping is a block. -/
def Leaves.Unmapped (L : Leaves) : Prop := ∀ {first : Text} {more : List Text} {value : Value},
  L.Scalar first more value → value.treatment ≠ .merge

theorem Leaves.plain_unmapped : Leaves.plain.Unmapped := fun ⟨_, _, _, hreads⟩ => (Yaml.Scalar.value_simple hreads).2

/-- The row of a key with a mapping is a key line above a block. -/
theorem Block.row_below (hL : L.Locatable names) (hmaps : L.Unmapped) {name first : Text} {more : List Line}
    {key : Value} {row : Value × Value} (hkey : L.Key name key)
    (h : Block L 0 (⟨0, name ++ ':' :: first⟩ :: more) (.rows [row])) (hrow : row.2.treatment = .merge) :
    first = [] ∧ ∃ width rows, 0 < width ∧ rows ≠ [] ∧ row.2 = .map (ofPairs rows) ∧ Block L width more (.rows rows) := by
  generalize hls : (⟨0, name ++ ':' :: first⟩ :: more : List Line) = ls at h
  generalize hparts : Parts.rows [row] = parts at h
  cases h with
  | noRows | noItems | scalarItem | innerItem => cases hparts
  | skip hskipped =>
    obtain ⟨rfl, -⟩ := List.cons.inj hls
    exact absurd hskipped (hL.shown hkey _ _)
  | scalarRow _ hscalar =>
    cases hparts
    exact absurd hrow (hmaps hscalar)
  | @innerRow _ width other _ parts block below _ hother hempty hbelow hblock hbehind =>
    cases hparts
    obtain ⟨hline, rfl⟩ := List.cons.inj hls
    obtain rfl := eq_of_append_colon (hL.colon hkey) (hL.colon hother) (Line.mk.inj hline).2
    have hfirst : first = [] := by simpa using hline
    cases parts with
    | items => cases hrow
    | rows rows =>
      have hne : rows ≠ [] := by
        rintro rfl
        cases hempty
      refine ⟨hfirst, width, rows, hbelow, hne, rfl, ?_⟩
      simpa using hblock.append (block_of_skipped (hbehind.skipped rfl))

/-- The section of a key with a mapping is the key line and the block below it. -/
theorem Laid.below (hL : L.Locatable names) (hcomments : L.Uncommented) (hmaps : L.Unmapped)
    (hnames : ∀ name ∈ names, Locatable name) {ls : List Line} {s : Section} (h : Laid L ls s) (hordered : Orderly L ls)
    {name rest : Text} (hname : Locatable name) (hfirst : Region.afterColon? name s.whole = some rest)
    (hrow : s.row.2.treatment = .merge) :
    ∃ width inner rows, L.Key name s.row.1 ∧ s.row.2 = .map rows ∧ rows ≠ [] ∧ 0 < width ∧
      Block L width inner (.rows rows) ∧ Orderly L inner ∧ Region.dropHeader rest = render inner := by
  obtain ⟨own, htext, hown, hlines⟩ := h
  have hskips : ∀ l ∈ List.replicate s.blankLines (⟨0, []⟩ : Line), Skipped l := fun l hl =>
    Or.inl (by rw [List.eq_of_mem_replicate hl])
  obtain ⟨key, first, more, rfl, hkey, -, -⟩ := hown.cons hL
  have hblock := hown.rows _ hskips
  rw [List.cons_append] at hblock hlines
  obtain ⟨rfl, width, rows, hwidth, hne, hvalue, hinner⟩ := hblock.row_below hL hmaps hkey hrow
  have hwhole : s.whole = key ++ ':' :: '\n' :: render (more ++ List.replicate s.blankLines ⟨0, []⟩) := by
    rw [Section.whole, htext, render_append_newlines, render_cons]
    simp
  rw [hwhole] at hfirst
  obtain rfl : name = key := by
    by_contra hother
    rw [afterColon?_other (hL.colon hkey) (hL.bare hkey) hname hother] at hfirst
    cases hfirst
  rw [afterColon?_key] at hfirst
  have hinside := (List.suffix_cons _ _).isInfix.trans hlines
  have hrows : ofPairs rows = rows := (hinner.outdent hL hcomments).ofPairs_rows hL hnames (hordered.differ hinside hinner)
  rw [hrows] at hvalue
  refine ⟨width, _, rows, hkey, hvalue, hne, hwidth, hinner, hordered.mono hinside, ?_⟩
  rw [← Option.some.inj hfirst]
  exact dropHeader_render (hinner.ne_nil (by simpa [Parts.isEmpty] using hne)) (hinner.continues hwidth)

/-- Blank lines below a section may be left out. -/
theorem Laid.of_inherited {ls : List Line} {s t : Section} (h : Laid L ls s) (htext : s.text = t.text)
    (hrow : s.row = t.row) (hblank : t.blankLines ≤ s.blankLines) : Laid L ls t := by
  obtain ⟨own, hown, hlines, hinfix⟩ := h
  obtain ⟨n, hn⟩ := Nat.exists_eq_add_of_le hblank
  rw [hn, ← List.replicate_append_replicate, ← List.append_assoc] at hinfix
  exact ⟨own, htext ▸ hown, hrow ▸ hlines, (List.prefix_append _ _).isInfix.trans hinfix⟩

/-- A key line above a block is a section, with the blank lines at the end of the block below it. -/
theorem Block.section_below (hL : L.Locatable names) (hcomments : L.Uncommented) (hnames : ∀ name ∈ names, Locatable name)
    {name : Text} {key : Value} {width : Nat} {inner : List Line} {rows : List (Value × Value)}
    (h : Block L width inner (.rows rows)) (hkey : L.Key name key) (hne : rows ≠ []) (hwidth : 0 < width)
    (hdiffer : Differ rows) :
    ∃ core n, inner = core ++ List.replicate n ⟨0, []⟩ ∧
      Section.Sound (marginRows L) ⟨name ++ ':' :: '\n' :: render core, n, (key, .map rows)⟩ ∧
      ∀ other ∈ names, Section.Shows other ⟨name ++ ':' :: '\n' :: render core, n, (key, .map rows)⟩ := by
  have hrows : ofPairs rows = rows := (h.outdent hL hcomments).ofPairs_rows hL hnames hdiffer
  have hempty : (Parts.rows rows).isEmpty = false := by simpa [Parts.isEmpty] using hne
  have hrow : Block L 0 (⟨0, name ++ [':']⟩ :: inner) (.rows [(key, .map rows)]) := by
    have hwhole := Block.innerRow hkey hempty hwidth h (.noRows 0)
    rwa [Parts.value, hrows, List.append_nil] at hwhole
  -- the blank lines at the end are not the row's
  obtain ⟨own, skips, hlines, hskips, hown, hends⟩ := hrow.trim hL
  obtain ⟨mid, n, rfl, hmid⟩ := exists_blankLines skips
  obtain ⟨l, more, rfl⟩ := List.exists_cons_of_ne_nil (hown.ne_nil rfl)
  rw [List.cons_append] at hlines
  obtain ⟨rfl, rfl⟩ := List.cons.inj hlines
  have hfirst : ∀ l ∈ (⟨0, name ++ [':']⟩ :: more : List Line).head?, ¬ Skipped l := by
    rintro _ ⟨⟩
    exact hL.shown hkey 0 []
  have hrowLines := (hown.rowLines hL hfirst hends).append (List.forall_mem_append.mp hskips).1 hmid
  have htext : render (⟨0, name ++ [':']⟩ :: more ++ mid) = name ++ ':' :: '\n' :: render (more ++ mid) := by
    rw [List.cons_append, render_cons]
    simp
  obtain ⟨hsound, hshows⟩ := hrowLines.section hL hnames n
  rw [htext] at hsound hshows
  exact ⟨more ++ mid, n, (List.append_assoc more mid _).symm, hsound, hshows⟩

end YamlSplice.Layout
