/-
  YamlSplice.Proofs.Edit.Settle — texts that an update finds as it would have them.

  After an update of a key the same update has nothing left to do: the key is gone, or its value agrees, or the block
  below it is as each of the updates of its mapping would have it. But where other keys stand in that block, the mapping
  as a whole does not agree with the update, and so the block is taken to the margin once more and put back.
  - `Rests`: what is asked of the lines of a block mapping. The lines below a key are those that the block had at the
    margin, put back at its column.
  - `Rests.apply_same`: such lines stay as they are. The induction is on how deep the update goes; it carries that the
    lines may have been put back once more.
  - `Settles` / `Settles.rests`: the same of the sections of a text, which is what a run of updates keeps.
-/

import YamlSplice.Proofs.Edit.Below

namespace YamlSplice

namespace Edit

open Value

variable {format : Format} {keep : Bool} {name text : Text} {value : Value}

theorem set_of_treatment (hkind : value.treatment ≠ .refuse) (ht : value.treatment ≠ .remove) :
    value.treatment = .replace ∨ value.treatment = .merge := by
  cases htreatment : value.treatment with
  | replace => exact Or.inl rfl
  | merge => exact Or.inr rfl
  | remove => exact absurd htreatment ht
  | refuse => exact absurd htreatment hkind

/-- An edit changes nothing where its mapping is already as the edit would have it. -/
theorem apply_already {entries : List (Value × Value)} (hread : format.read (Text.closeLine text) = .ok (.map entries))
    (hkind : value.treatment ≠ .refuse)
    (hremoved : value.treatment = .remove → ∀ e ∈ entries, isCalled e.1 (.str name) = false)
    (hpresent : value.treatment ≠ .remove → ∃ found, valueUnder? entries (.str name) = some found ∧
      agrees found value = true) : (apply format keep (.str name) value text).result = .ok text := by
  by_cases ht : value.treatment = .remove
  · exact (Outcome.nothing (Or.inr ⟨_, hread, valueUnder?_eq_none_iff.mpr (hremoved ht)⟩) ht).apply_eq_ok
  · obtain ⟨found, hfound, hagrees⟩ := hpresent ht
    exact (Outcome.unchanged _ _ hread (set_of_treatment hkind ht) hfound hagrees).apply_eq_ok

end Edit

namespace Layout

open Edit Value

variable {L : Leaves} {names : List Text} {format : Format} {keep : Bool}

/-! ## Lines that an update leaves -/

/-- The lines of a block mapping at the margin are as an update of a key would have them. -/
inductive Rests (L : Leaves) (names : List Text) : Text → Value → List Line → Prop where
  | gone {name : Text} {ls : List Line} {rows : List (Value × Value)} :
      Block L 0 ls (.rows rows) → rows ≠ [] → Differ rows → valueUnder? rows (.str name) = none →
      Rests L names name .null ls
  | agrees {name : Text} {value found : Value} {ls : List Line} {rows : List (Value × Value)} :
      Block L 0 ls (.rows rows) → rows ≠ [] → Differ rows → value.treatment = .replace ∨ value.treatment = .merge →
      valueUnder? rows (.str name) = some found → Value.agrees found value = true → Rests L names name value ls
  | inner {name : Text} {key : Value} {width : Nat} {above inner below margin : List Line}
        {upper existing lower : List (Value × Value)} {updates : List (Text × Value)} :
      Nest L name key width above inner below upper existing lower → Headed inner → Raised width margin inner →
      (∀ u ∈ updates, u.1 ∈ names) → (∀ u ∈ updates, Rests L names u.1 u.2 margin) →
      Rests L names name (.map (named updates)) (above ++ ⟨0, name ++ [':']⟩ :: (inner ++ below))

/-- Rows at the margin are read as a mapping. -/
theorem Block.read_map {ls : List Line} {rows : List (Value × Value)} (hreads : L.ReadBy format) (hL : L.Locatable names)
    (hnames : ∀ name ∈ names, Locatable name) (h : Block L 0 ls (.rows rows)) (hne : rows ≠ []) (hdiffer : Differ rows) :
    format.read (Text.closeLine (render ls)) = .ok (.map rows) := by
  have hempty : (Parts.rows rows).isEmpty = false := by simpa [Parts.isEmpty] using hne
  rw [closeLine_render (h.ne_nil hempty), hreads h, hempty, Parts.value, h.ofPairs_rows hL hnames hdiffer]
  rfl

section Nested

variable {name : Text} {key : Value} {width : Nat} {above inner below ls : List Line}
  {upper existing lower : List (Value × Value)} {updates : List (Text × Value)}

/-- Updates that change nothing in the block at the margin change nothing where it stands. -/
theorem Nest.apply_same (hreads : L.ReadBy format) (hL : L.Locatable names) (hcomments : L.Uncommented)
    (hnames : ∀ other ∈ names, Locatable other) (hname : name ∈ names)
    (h : Nest L name key width above inner below upper existing lower) (hheaded : Headed inner)
    (hall : (applyAll format keep (named updates) (render (inner.map (Line.outdent width)))).result =
      .ok (render (inner.map (Line.outdent width)))) :
    (apply format keep (.str name) (.map (named updates)) (render (above ++ ⟨0, name ++ [':']⟩ :: (inner ++ below)))).result =
      .ok (render (above ++ ⟨0, name ++ [':']⟩ :: (inner ++ below))) := by
  have hclosed := closeLine_render (by simp : above ++ (⟨0, name ++ [':']⟩ : Line) :: (inner ++ below) ≠ [])
  have hread := h.read hreads hL hcomments hnames
  rw [← hclosed] at hread
  have hfound := h.found hL hname
  by_cases hagrees : agrees (.map existing) (.map (named updates)) = true
  · exact (Outcome.unchanged _ _ hread (Or.inr rfl) hfound hagrees).apply_eq_ok
  · -- other entries stand in the block, which is taken to the margin and put back
    obtain ⟨region, hregion, hvalue, hsplice⟩ := h.region hL hnames hname
    have hlines : inner ≠ [] := h.block.ne_nil (by simpa [Parts.isEmpty] using h.ne)
    have hunit : Margin.unit name (render inner) = .ok (List.replicate width ' ') :=
      unit_eq (h.block.unit hL h.ne h.right hheaded)
    have hblock : (Margin.change name region.value (applyAll format keep (named updates))).result =
        .ok (render inner) := by
      rw [hvalue]
      refine Margin.change_same hunit (endsLine_render hlines) ?_
      rw [bare_render (h.block.tidy hL.tidy)]
      exact hall
    rw [← hclosed] at hregion
    have hmerged := (Outcome.merged _ _ region (named updates) (render inner) hread rfl rfl hfound
      (Bool.eq_false_iff.mpr hagrees) hregion hblock).apply_eq_ok
    rwa [hclosed, hsplice inner] at hmerged

/-- The lines below a key, put back with the key line and what is around it. -/
theorem Nest.raise (hL : L.Locatable names) (hcomments : L.Uncommented)
    (h : Nest L name key width above inner below upper existing lower)
    (hraised : Raised 0 (above ++ ⟨0, name ++ [':']⟩ :: (inner ++ below)) ls) :
    ∃ above' inner' below', ls = above' ++ ⟨0, name ++ [':']⟩ :: (inner' ++ below') ∧ Raised 0 inner inner' ∧
      Nest L name key width above' inner' below' upper existing lower := by
  obtain ⟨above', line, rest, rfl, habove, hline, hrest⟩ := hraised.split_line (by simp)
  obtain rfl := hline.eq_of_shown (hL.shown h.keyed 0 [])
  obtain ⟨inner', below', rfl, hinner, hbelow, hshown⟩ : ∃ inner' below', rest = inner' ++ below' ∧
      Raised 0 inner inner' ∧ Raised 0 below below' ∧ ∀ l ∈ below'.head?, ¬ Skipped l := by
    cases below with
    | nil =>
      rw [List.append_nil] at hrest
      exact ⟨rest, [], by simp, hrest, .refl [], by simp⟩
    | cons l below =>
      have hl : ¬ Skipped l := h.shown l rfl
      obtain ⟨inner', l', below', rfl, hinner, hfirst, hbelow⟩ := hrest.split_line fun hempty => hl (Or.inl hempty)
      refine ⟨inner', l' :: below', rfl, .of_forall₂ hinner, .cons hfirst hbelow, ?_⟩
      rintro _ ⟨⟩ hskipped
      exact hl (hskipped.of_text hfirst.text.symm)
  exact ⟨above', inner', below', rfl, hinner, h.rowsAbove.raise hL hcomments (.of_forall₂ habove), h.keyed,
    h.block.raise hL hcomments hinner, h.rowsBelow.raise hL hcomments hbelow, h.right, hshown, h.ne, h.differ, h.differInner⟩

end Nested

/-- An update changes nothing in lines that are as it would have them, also when they were put back once more. -/
theorem Rests.apply_same {name : Text} {value : Value} {ls ls' : List Line} (hreads : L.ReadBy format)
    (hL : L.Locatable names) (hcomments : L.Uncommented) (hnames : ∀ other ∈ names, Locatable other) (hname : name ∈ names)
    (h : Rests L names name value ls) (hraised : Raised 0 ls ls') :
    (apply format keep (.str name) value (render ls')).result = .ok (render ls') := by
  induction h generalizing ls' with
  | gone hblock hne hdiffer hgone =>
    have hread := (hblock.raise hL hcomments hraised).read_map hreads hL hnames hne hdiffer
    exact (Outcome.nothing (Or.inr ⟨_, hread, hgone⟩) rfl).apply_eq_ok
  | agrees hblock hne hdiffer hset hfound hagrees =>
    have hread := (hblock.raise hL hcomments hraised).read_map hreads hL hnames hne hdiffer
    exact (Outcome.unchanged _ _ hread hset hfound hagrees).apply_eq_ok
  | @inner name key width above inner below margin upper existing lower updates hnest hheaded hmargin hnamed _ ih =>
    obtain ⟨above', inner', below', rfl, hinner, hnest'⟩ := hnest.raise hL hcomments hraised
    -- at the margin the lines are those that rest, put back once more
    have hout : Raised 0 margin (inner'.map (Line.outdent width)) := (hmargin.trans hinner).outdent
    refine hnest'.apply_same hreads hL hcomments hnames hname (hheaded.raise hinner) (applyAll_same fun u hu => ?_)
    obtain ⟨update, hupdate, rfl⟩ := List.mem_map.mp hu
    exact ih update hupdate (hnamed update hupdate) hout

/-! ## Sections that an update leaves -/

/-- The section of a key is the key line above a block, the lines of which at the margin rest for each of the updates. -/
inductive RestsBelow (L : Leaves) (names : List Text) (name : Text) (updates : List (Text × Value)) : Section → Prop where
  | intro {key : Value} {width : Nat} {inner margin : List Line} {rows : List (Value × Value)} (blankLines : Nat) :
      L.Key name key → Block L width inner (.rows rows) → rows ≠ [] → Differ rows → 0 < width → Headed inner →
      Raised width margin inner → (∀ u ∈ updates, u.1 ∈ names) → (∀ u ∈ updates, Rests L names u.1 u.2 margin) →
      RestsBelow L names name updates ⟨name ++ ':' :: '\n' :: render inner, blankLines, (key, .map rows)⟩

/-- The sections of a text are as an update of a key would have them. -/
inductive Settles (L : Leaves) (names : List Text) (name : Text) : Value → List Section → Prop where
  | gone {sections : List Section} :
      valueUnder? (rowsOf sections) (.str name) = none → Settles L names name .null sections
  | agrees {value found : Value} {sections : List Section} : value.treatment = .replace ∨ value.treatment = .merge →
      valueUnder? (rowsOf sections) (.str name) = some found → Value.agrees found value = true →
      Settles L names name value sections
  | inner {updates : List (Text × Value)} {sections : List Section} {s : Section} :
      s ∈ sections → isCalled s.row.1 (.str name) = true → RestsBelow L names name updates s →
      Settles L names name (.map (named updates)) sections

/-- The section of a name, and what is found under it, are still there. -/
structure Kept (name : Text) (before after : List Section) : Prop where
  value : valueUnder? (rowsOf after) (.str name) = valueUnder? (rowsOf before) (.str name)
  sections : ∀ s ∈ before, isCalled s.row.1 (.str name) = true → ∃ t ∈ after, t.text = s.text ∧ t.row = s.row

theorem Kept.refl (name : Text) (sections : List Section) : Kept name sections sections := ⟨rfl, fun s hs _ => ⟨s, hs, rfl, rfl⟩⟩

theorem Kept.trans {name : Text} {before between after : List Section} (h : Kept name before between)
    (h' : Kept name between after) : Kept name before after where
  value := h'.value.trans h.value
  sections s hs hcalled := by
    obtain ⟨t, ht, htext, hrow⟩ := h.sections s hs hcalled
    obtain ⟨o, ho, htext', hrow'⟩ := h'.sections t ht (hrow ▸ hcalled)
    exact ⟨o, ho, htext'.trans htext, hrow'.trans hrow⟩

/-- The number of blank lines below a section makes no difference. -/
theorem RestsBelow.of_same {name : Text} {updates : List (Text × Value)} {s t : Section}
    (h : RestsBelow L names name updates s) (htext : t.text = s.text) (hrow : t.row = s.row) :
    RestsBelow L names name updates t := by
  obtain ⟨n, hkey, hblock, hne, hdiffer, hwidth, hheaded, hmargin, hnamed, hrests⟩ := h
  obtain ⟨text, m, row⟩ := t
  obtain rfl : text = _ := htext
  obtain rfl : row = _ := hrow
  exact ⟨m, hkey, hblock, hne, hdiffer, hwidth, hheaded, hmargin, hnamed, hrests⟩

theorem Settles.kept {name : Text} {value : Value} {before after : List Section} (h : Settles L names name value before)
    (hkept : Kept name before after) : Settles L names name value after := by
  cases h with
  | gone hgone => exact .gone (hkept.value.trans hgone)
  | agrees hset hfound hagrees => exact .agrees hset (hkept.value.trans hfound) hagrees
  | inner hs hcalled hbelow =>
    obtain ⟨t, ht, htext, hrow⟩ := hkept.sections _ hs hcalled
    exact .inner ht (hrow ▸ hcalled) (hbelow.of_same htext hrow)

/-- Lines can be told from their text. -/
theorem render_injective {ls ls' : List Line} (h : ∀ l ∈ ls, Layout.Tidy l.text) (h' : ∀ l ∈ ls', Layout.Tidy l.text)
    (hsame : render ls = render ls') : ls = ls' := by
  have hlines : ls.map Line.content = ls'.map Line.content := by
    have hlines := congrArg Text.lines hsame
    rw [lines_render h, lines_render h'] at hlines
    exact List.append_cancel_right hlines
  clear hsame
  induction ls generalizing ls' with
  | nil => exact (List.map_eq_nil_iff.mp hlines.symm).symm
  | cons l ls ih =>
    obtain ⟨l', more, rfl, hcontent, hrest⟩ := List.map_eq_cons_iff.mp hlines.symm
    obtain ⟨hl, hls⟩ := List.forall_mem_cons.mp h
    obtain ⟨hl', hmore⟩ := List.forall_mem_cons.mp h'
    have hindent : l.indent = l'.indent :=
      Nat.le_antisymm (le_indent_of_append hl' hcontent) (le_indent_of_append hl hcontent.symm)
    have htext : l.text = l'.text := by
      rw [Line.content, Line.content, hindent] at hcontent
      exact (List.append_cancel_left hcontent).symm
    obtain ⟨indent, text⟩ := l
    obtain rfl : indent = _ := hindent
    obtain rfl : text = _ := htext
    rw [ih hls hmore hrest.symm]

/-- Sections are the lines of their rows, whatever is above them. -/
theorem exists_render_sections {sections : List Section} {lead : Text} (hreads : L.ReadBy format)
    (h : Sectioned (marginRows L) L.Keys names lead sections) :
    ∃ ls, sections.flatMap Section.whole = render ls ∧ Block L 0 ls (.rows (rowsOf sections)) ∧
      ∀ l ∈ ls.head?, ¬ Skipped l := by
  have halone : Sectioned (marginRows L) L.Keys [] [] sections :=
    ⟨⟨[], rfl, .noRows 0⟩, Or.inl rfl, by simp, h.sound, by simp, h.known, h.unlike⟩
  obtain ⟨ls, htext, hblock⟩ := halone.rows (marginRows_reading hreads)
  rw [textOf, List.nil_append] at htext
  exact ⟨ls, htext, hblock, not_skipped_of_fresh (htext ▸ fresh_sections halone.sound)⟩

/-- The lines of a text are those above its sections and those of the sections. -/
theorem exists_lines_sections {lead : Text} {sections : List Section} {ls : List Line} (hreads : L.ReadBy format)
    (hL : L.Locatable names) (h : Sectioned (marginRows L) L.Keys names lead sections)
    (htidy : ∀ l ∈ ls, Layout.Tidy l.text) (htext : render ls = textOf lead sections) :
    ∃ skips more, ls = skips ++ more ∧ lead = render skips ∧ Block L 0 skips (.rows []) ∧
      Block L 0 more (.rows (rowsOf sections)) ∧ ∀ l ∈ more.head?, ¬ Skipped l := by
  obtain ⟨skips, hlead, hskips⟩ := h.lead_rows
  obtain ⟨more, hmore, hblock, hshown⟩ := exists_render_sections hreads h
  refine ⟨skips, more, ?_, hlead, hskips, hblock, hshown⟩
  refine render_injective htidy (List.forall_mem_append.mpr ⟨hskips.tidy hL.tidy, hblock.tidy hL.tidy⟩) ?_
  rw [htext, textOf, hlead, hmore, render_append]

/-- What stands above the sections is headed as it was, whatever sections have come below it. -/
theorem headed_sections {lead : Text} {sections others : List Section} {ls ls' : List Line} (hreads : L.ReadBy format)
    (hL : L.Locatable names) (h : Sectioned (marginRows L) L.Keys names lead sections)
    (hold : Sectioned (marginRows L) L.Keys names lead others) (hne : sections ≠ [])
    (htidy : ∀ l ∈ ls, Layout.Tidy l.text) (htext : render ls = textOf lead others)
    (hempty : ∀ l ∈ ls, l.text = [] → l.indent = 0)
    (htidy' : ∀ l ∈ ls', Layout.Tidy l.text) (htext' : render ls' = textOf lead sections) : Headed ls' := by
  obtain ⟨skips, more, rfl, hlead, hskips, -, -⟩ := exists_lines_sections hreads hL hold htidy htext
  obtain ⟨skips', first, rfl, hlead', hskips', hblock, hshown⟩ := exists_lines_sections hreads hL h htidy' htext'
  obtain rfl : skips = skips' := render_injective (hskips.tidy hL.tidy) (hskips'.tidy hL.tidy) (hlead.symm.trans hlead')
  obtain ⟨l, rest, rfl⟩ := List.exists_cons_of_ne_nil (hblock.ne_nil (by simpa [Parts.isEmpty, rowsOf] using hne))
  exact .of_skipped (fun o ho => hempty o (List.mem_append_left more ho)) (.here (hshown l rfl))

/-- Sections that an update settles are lines that rest. -/
theorem Settles.rests {lead name : Text} {value : Value} {sections : List Section} {ls : List Line}
    (hreads : L.ReadBy format) (hL : L.Locatable names) (h : Settles L names name value sections)
    (hsectioned : Sectioned (marginRows L) L.Keys names lead sections) (hne : sections ≠ [])
    (hblock : Block L 0 ls (.rows (rowsOf sections))) (htext : render ls = textOf lead sections) :
    Rests L names name value ls := by
  have hrows : rowsOf sections ≠ [] := by simpa [rowsOf] using hne
  have hdiffer : Differ (rowsOf sections) := List.pairwise_map.mpr hsectioned.unlike
  cases h with
  | gone hgone => exact .gone hblock hrows hdiffer hgone
  | agrees hset hfound hagrees => exact .agrees hblock hrows hdiffer hset hfound hagrees
  | inner hs _ hbelow =>
    obtain ⟨above, below, rfl⟩ := List.append_of_mem hs
    obtain @⟨key, width, inner, margin, rows, n, hkey, hinner, hne', hdifferInner, hwidth, hheaded, hmargin, hnamed,
      hrests⟩ := hbelow
    obtain ⟨upper, hupper, hrowsAbove⟩ := (hsectioned.sublist (List.sublist_append_left above _)).rows
      (marginRows_reading hreads)
    obtain ⟨lower, hlower, hrowsBelow, hshown⟩ := exists_render_sections hreads
      (hsectioned.sublist ((List.sublist_cons_self _ below).trans (List.sublist_append_right above _)))
    have hblanks : ∀ l ∈ List.replicate n (⟨0, []⟩ : Line), l.text = [] := fun l hl => by rw [List.eq_of_mem_replicate hl]
    have hnest : Nest L name key width upper (inner ++ List.replicate n ⟨0, []⟩) lower (rowsOf above) rows (rowsOf below) :=
      ⟨hrowsAbove, hkey, by simpa using hinner.append (block_of_skipped fun l hl => Or.inl (hblanks l hl)), hrowsBelow,
        hwidth, hshown, hne', by simpa [rowsOf] using hdiffer, hdifferInner⟩
    obtain rfl : ls = upper ++ ⟨0, name ++ [':']⟩ :: (inner ++ List.replicate n ⟨0, []⟩ ++ lower) := by
      refine render_injective (hblock.tidy hL.tidy) (hnest.whole.tidy hL.tidy) ?_
      rw [htext, render_append, render_cons, render_append, render_append_newlines, ← hupper, ← hlower]
      simp [textOf, Section.whole]
    exact .inner hnest (hheaded.append _) (hmargin.append_blank hblanks) hnamed hrests

end Layout
end YamlSplice
