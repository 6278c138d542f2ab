/-
  YamlSplice.Proofs.Edit.Merge — a merge into the block below a key is a merge of mappings.

  The block is taken to the margin, changed there, and indented again. The unit has to be the column of
  the block, and the updates have to be such as can be made in a mapping at the margin.
  - `Block.change_merges`: the changed block is one of the merged mapping.
  - `Nest`: a block mapping below a key of another one, with what is read and found there.
  - `apply_merges`: the merged mapping stands in the place of the inner one, and nothing else has changed.
  - `apply_not_merges_flow`: a mapping in flow style is no block.
-/

import YamlSplice.Proofs.Edit.OneKey
import YamlSplice.Proofs.Edit.Raise

namespace YamlSplice

namespace Edit

open Value

theorem mem_named {updates : List (Text × Value)} {u : Text × Value} (h : u ∈ updates) :
    (Value.str u.1, u.2) ∈ named updates := List.mem_map_of_mem h

/-- A mapping that holds every update already is merged with them. -/
theorem Merges.of_agrees {updates : List (Text × Value)} {existing : List (Value × Value)}
    (h : agrees (.map existing) (.map (named updates)) = true) (hset : ∀ u ∈ updates, u.2.treatment ≠ .remove) :
    Merges updates existing existing where
  removed u hu ht := absurd ht (hset u hu)
  present u hu _ := by
    simp only [agrees, Bool.and_eq_true] at h
    exact agreesEntries_iff.mp h.2 _ (mem_named hu)
  kept _ he _ := (valueUnder?_isSome he).imp fun _ hfound => ⟨hfound, hfound⟩
  others := rfl

end Edit

namespace Layout

open Edit Value

variable {L : Leaves} {names : List Text}

/-! ## The block -/

theorem unit_eq {key block : Text} {width : Nat} (h : Margin.unitWidth? block = some width) :
    Margin.unit key block = .ok (List.replicate width ' ') := by simp [Margin.unit, h]

theorem width_pos {block : Text} {width : Nat} (h : Margin.unitWidth? block = some width) : 0 < width := by
  obtain ⟨n, hn, hsame⟩ := Margin.unit_eq_ok (@unit_eq [] _ _ h)
  have hlength := congrArg List.length hsame
  simp only [List.length_replicate] at hlength
  omega

/-- Updates of different keys by simple values, for each of which one row is written. -/
structure Updates (L : Leaves) (format : Format) (keep : Bool) (updates : List (Text × Value)) : Prop where
  different : (updates.map (·.1)).Nodup
  simple : ∀ u ∈ updates, u.2.treatment = .replace
  writes : ∀ u ∈ updates, WritesRow L format keep u.1 u.2

/-- Updates of different keys, each by a simple value for which one row is written, or by the absent value. If any key
    is removed, some entry of the mapping stays. -/
structure Changes (L : Leaves) (format : Format) (keep : Bool) (updates : List (Text × Value))
    (existing : List (Value × Value)) : Prop where
  different : (updates.map (·.1)).Nodup
  simple : ∀ u ∈ updates, u.2.treatment = .remove ∨ u.2.treatment = .replace
  writes : ∀ u ∈ updates, u.2.treatment = .replace → WritesRow L format keep u.1 u.2
  stays : (∃ u ∈ updates, u.2.treatment = .remove) → ∃ e ∈ existing, ∀ u ∈ updates, isCalled e.1 (.str u.1) = false

theorem Changes.unmerged {format : Format} {keep : Bool} {updates : List (Text × Value)}
    {existing : List (Value × Value)} (h : Changes L format keep updates existing) {u : Text × Value} (hu : u ∈ updates) :
    u.2.treatment ≠ .merge := by
  rcases h.simple u hu with ht | ht <;> simp [ht]

theorem Updates.changes {format : Format} {keep : Bool} {updates : List (Text × Value)}
    (h : Updates L format keep updates) (existing : List (Value × Value)) : Changes L format keep updates existing where
  different := h.different
  simple u hu := Or.inr (h.simple u hu)
  writes u hu _ := h.writes u hu
  stays := fun ⟨u, hu, ht⟩ => by
    rw [h.simple u hu] at ht
    cases ht

/-- A block whose first line has content starts a line of its own. -/
theorem Block.fresh (hL : L.Locatable names) {ls : List Line} {rows : List (Value × Value)} (h : Block L 0 ls (.rows rows))
    (hshown : ∀ l ∈ ls.head?, ¬ Skipped l) : ∀ c ∈ (render ls).head?, Region.continues c = false := by
  have hstart : ∀ {name : Text} {key : Value} (rest : Text) (more : List Line), L.Key name key →
      ∀ c ∈ (render (⟨0, name ++ ':' :: rest⟩ :: more)).head?, Region.continues c = false := by
    intro name key rest more hkey c hc
    obtain ⟨d, tail, rfl⟩ := List.exists_cons_of_ne_nil (hL.tidy.key hkey).2
    exact hL.fresh hkey c (by simpa [render_cons] using hc)
  cases h with
  | noRows => simp [render]
  | skip hskipped => exact absurd hskipped (hshown _ (by simp))
  | scalarRow hkey => exact hstart _ _ hkey
  | innerRow hkey => exact hstart _ _ hkey

/-- Lines that start a line of their own start with content. -/
theorem not_skipped_of_fresh {ls : List Line} (h : ∀ c ∈ (render ls).head?, Region.continues c = false) :
    ∀ l ∈ ls.head?, ¬ Skipped l := by
  intro l hl hskipped
  obtain ⟨more, rfl⟩ : ∃ more, ls = l :: more := by
    cases ls with
    | nil => cases hl
    | cons first more => exact ⟨more, by rw [Option.some.inj hl]⟩
  obtain ⟨c, rest, hc⟩ := List.exists_cons_of_ne_nil (by simp [Line.render] : l.render ≠ [])
  have hstays : Region.continues c = true := hskipped.continues c (by simp [hc])
  rw [h c (by simp [render, hc])] at hstays
  cases hstays

/-- The column of a block of rows is its unit, if the block starts with one. -/
theorem Block.unitWidth (hL : L.Locatable names) {width : Nat} {ls : List Line} {rows : List (Value × Value)}
    (h : Block L width ls (.rows rows)) (hne : rows ≠ []) (hwidth : 0 < width) (hshown : ∀ l ∈ ls.head?, ¬ Skipped l) :
    Margin.unitWidth? (render ls) = some width := by
  have hstart : ∀ {name : Text} {key : Value} (rest : Text) (more : List Line), L.Key name key →
      Margin.unitWidth? (render (⟨width, name ++ ':' :: rest⟩ :: more)) = some width := by
    intro name key rest more hkey
    obtain ⟨c, tail, rfl⟩ := List.exists_cons_of_ne_nil (hL.tidy.key hkey).2
    have hfresh : Region.continues c = false := hL.fresh hkey c rfl
    have hother : ∀ d : Char, Region.continues d = true → c ≠ d := by
      rintro d hd rfl
      rw [hfresh] at hd
      cases hd
    have hspaces : (render (⟨width, c :: tail ++ ':' :: rest⟩ :: more)).takeWhile (· == ' ') = List.replicate width ' ' := by
      rw [render_cons, List.append_assoc, List.takeWhile_append_of_pos fun d hd => by simp [List.eq_of_mem_replicate hd]]
      simp [hother ' ' rfl]
    rw [Margin.unitWidth?, Margin.unitAtStart?, hspaces, render_cons, List.append_assoc, List.drop_left]
    simp [hother '-' rfl, hother '#' rfl, hwidth.ne']
  cases h with
  | noRows => exact absurd rfl hne
  | skip hskipped => exact absurd hskipped (hshown _ (by simp))
  | scalarRow hkey => exact hstart _ _ hkey
  | innerRow hkey => exact hstart _ _ hkey

/-- Lines that are moved start with content if they did before. -/
theorem not_skipped_of_moved {more less : Nat} {ls ls' : List Line} (h : List.Forall₂ (Line.Moved more less) ls ls')
    (hshown : ∀ l ∈ ls.head?, ¬ Skipped l) : ∀ l ∈ ls'.head?, ¬ Skipped l := by
  cases h with
  | nil => simp
  | @cons l l' _ _ hfirst _ =>
    have hl : ¬ Skipped l := hshown l rfl
    rintro _ ⟨⟩ hskipped
    exact hl (hskipped.of_text hfirst.1.symm)

/-- A block taken to the margin. -/
theorem Block.outdent (hL : L.Locatable names) (hcomments : L.Uncommented) {width : Nat} {ls : List Line} {parts : Parts}
    (h : Block L width ls parts) : Block L 0 (ls.map (Line.outdent width)) parts :=
  h.move hL hcomments (moved_outdent (h.stands hL hcomments)) (by omega)

/-- What a change at the margin leaves of a block is put back at its column. It starts with content if it did at the
    margin. -/
theorem Block.change_rows {name block : Text} {f : Text → Run Text} {width : Nat} {inner : List Line}
    {existing : List (Value × Value)} (hL : L.Locatable names) (hcomments : L.Uncommented)
    (h : Block L width inner (.rows existing)) (hunit : Margin.unitWidth? (render inner) = some width)
    (hblock : (Margin.change name (render inner) f).result = .ok block) :
    ∃ changed, (f (render (inner.map (Line.outdent width)))).result = .ok changed ∧
      ∀ ls rows, changed = render ls → Block L 0 ls (.rows rows) → rows ≠ [] →
        ∃ inner', block = render inner' ∧ Block L width inner' (.rows rows) ∧
          ((∀ l ∈ ls.head?, ¬ Skipped l) → ∀ l ∈ inner'.head?, ¬ Skipped l) ∧
          ((∀ l ∈ inner, l.text = [] → l.indent = 0) → Raised width ls inner') := by
  obtain ⟨unit, changed, hunit', hchanged, rfl⟩ := Margin.change_eq_ok.mp hblock
  obtain rfl : List.replicate width ' ' = unit := Except.ok.inj ((unit_eq hunit).symm.trans hunit')
  have htidy := h.tidy hL.tidy
  rw [bare_render htidy] at hchanged
  refine ⟨changed, hchanged, ?_⟩
  rintro ls rows rfl hls hrows
  have hlines : ls ≠ [] := hls.ne_nil (by simpa [Parts.isEmpty] using hrows)
  have hindented := Margin.restore_indented (fun hmem => absurd (List.eq_of_mem_replicate hmem) (by decide))
    (even_render htidy (h.stands hL hcomments)) (render ls)
  obtain ⟨ls', skips, hrestored, hmoved, hskips, hraised⟩ := exists_render_of_indented (hls.tidy hL.tidy)
    (hls.stands hL hcomments) hlines (width_pos hunit) hindented
  refine ⟨ls' ++ skips, hrestored, ?_, fun hshown => ?_, fun hempty => hraised (flat_render htidy hempty (width_pos hunit))⟩
  · simpa using (hls.move hL hcomments hmoved (by omega : 0 + width = width + 0)).append (block_of_skipped hskips)
  · have hlines' : ls' ≠ [] := fun hnil => hlines (List.forall₂_nil_right_iff.mp (hnil ▸ hmoved))
    rw [List.head?_append_of_ne_nil _ hlines']
    exact not_skipped_of_moved hmoved hshown

/-- A block of a mapping is changed to one of the merged mapping, at the same column. It starts with content if it did
    before. -/
theorem Block.change_merges {format : Format} {keep : Bool} {name block : Text} {updates : List (Text × Value)}
    {width : Nat} {inner : List Line} {existing : List (Value × Value)} (hreads : L.ReadBy format)
    (hL : L.Locatable names) (hcomments : L.Uncommented) (hnames : ∀ name ∈ names, Locatable name)
    (hchanges : Changes L format keep updates existing) (hnamed : ∀ u ∈ updates, u.1 ∈ names)
    (h : Block L width inner (.rows existing)) (hne : existing ≠ [])
    (hdiffer : Differ existing) (hunit : Margin.unitWidth? (render inner) = some width)
    (hblock : (Margin.change name (render inner) (applyAll format keep (named updates))).result = .ok block) :
    ∃ inner' merged, block = render inner' ∧ Block L width inner' (.rows merged) ∧ merged ≠ [] ∧ Differ merged ∧
      Merges updates existing merged ∧ ((∀ l ∈ inner.head?, ¬ Skipped l) → ∀ l ∈ inner'.head?, ¬ Skipped l) := by
  have reading := marginRows_reading hreads
  obtain ⟨changed, hchanged, hback⟩ := h.change_rows hL hcomments hunit hblock
  have hmargin := h.outdent hL hcomments
  obtain ⟨lead, sections, hrender, hsectioned, rfl⟩ := hmargin.sectioned hL hnames hdiffer
  rw [hrender] at hchanged
  have hsections : sections ≠ [] := fun hnil => hne (by rw [hnil]; rfl)
  have hwrites : ∀ u ∈ updates, u.2.treatment ≠ .remove →
      WritesSection (marginRows L) L.Keys names format keep u.1 u.2 := fun u hu ht =>
    (hchanges.writes u hu ((hchanges.simple u hu).resolve_left ht)).section hL hnames
  obtain ⟨after, rfl, hafter, hsectioned', hmerges⟩ := applyAll_sections reading hL.legible hsectioned hsections
    (fun u hu => ⟨hnamed u hu, (hnames _ (hnamed u hu)).newline, hchanges.unmerged hu, hwrites u hu⟩)
    hchanges.different hchanges.stays hchanged
  have hrows : rowsOf after ≠ [] := by simpa [rowsOf] using hafter
  obtain ⟨ls, htext, hls⟩ := hsectioned'.rows reading
  obtain ⟨inner', rfl, hinner', hshown', -⟩ := hback ls _ htext hls hrows
  refine ⟨inner', rowsOf after, rfl, hinner', hrows, List.pairwise_map.mpr hsectioned'.unlike, hmerges,
    fun hshown => hshown' ?_⟩
  -- nothing stands above the first section
  have hlead : lead = [] := by
    obtain ⟨skips, rfl, hskips⟩ := hsectioned.lead_rows
    have hfresh := hmargin.fresh hL (not_skipped_of_moved (moved_outdent (h.stands hL hcomments)) hshown)
    rw [hrender] at hfresh
    cases hskips with
    | noRows => rfl
    | @skip _ l skips _ hskipped _ =>
      have hstarts : ∀ c ∈ (render (l :: skips)).head?, Region.continues c = false := fun c hc =>
        hfresh c (by rw [textOf, List.head?_append, hc]; rfl)
      exact absurd hskipped (not_skipped_of_fresh hstarts l rfl)
  refine not_skipped_of_fresh ?_
  rw [← htext, textOf, hlead, List.nil_append]
  exact fresh_sections hsectioned'.sound

/-! ## The whole text -/

theorem endsLine_render {ls : List Line} (hne : ls ≠ []) : Text.endsLine (render ls) = true := by
  obtain ⟨front, last, rfl⟩ := (List.eq_nil_or_concat ls).resolve_left hne
  simp [render, Line.render, Text.endsLine]

theorem closeLine_render {ls : List Line} (hne : ls ≠ []) : Text.closeLine (render ls) = render ls :=
  Text.closeLine_of_endsLine (endsLine_render hne)

/-- Below a key line, the value is the lines that continue it. -/
theorem dropHeader_render {ls : List Line} (hne : ls ≠ []) (h : ∀ l ∈ ls, l.Continues) :
    Region.dropHeader ('\n' :: render ls) = render ls := by
  obtain ⟨l, more, rfl⟩ := List.exists_cons_of_ne_nil hne
  obtain ⟨c, rest, hc⟩ : ∃ c rest, render (l :: more) = c :: rest := List.exists_cons_of_ne_nil (by simp [render_cons])
  have hcontinue : Region.continues c = true := by
    refine h l List.mem_cons_self c ?_
    cases hrender : l.render with
    | nil => simp [Line.render] at hrender
    | cons d tail => simpa [render, hrender] using congrArg List.head? hc
  have hblank : Text.isInlineBlank '\n' = false := by decide
  rw [hc, Region.dropHeader, List.dropWhile_cons_of_neg (by simp [hblank])]
  simp [hcontinue]

/-- Rows of other keys hold no key line. -/
theorem Block.not_located (hL : L.Locatable names) (hnames : ∀ name ∈ names, Locatable name) {name : Text}
    (hname : name ∈ names) {ls : List Line} {rows : List (Value × Value)} (h : Block L 0 ls (.rows rows))
    (hdiffer : Differ rows) (hothers : ∀ e ∈ rows, isCalled e.1 (.str name) = false) :
    Region.ofKey? name (render ls) = none ∧ (render ls = [] ∨ Text.endsLine (render ls) = true) := by
  refine ⟨?_, ?_⟩
  · obtain ⟨lead, sections, hrender, hsectioned, rfl⟩ := h.sectioned hL hnames hdiffer
    rw [hrender]
    exact hsectioned.not_located hname (hnames name hname).newline fun s hs => hothers _ (List.mem_map_of_mem hs)
  · by_cases hnil : ls = []
    · exact Or.inl (by rw [hnil]; rfl)
    · exact Or.inr (endsLine_render hnil)

/-- A block mapping at the margin, with a block mapping below one of its keys. -/
structure Nest (L : Leaves) (name : Text) (key : Value) (width : Nat) (above inner below : List Line)
    (rows existing others : List (Value × Value)) : Prop where
  rowsAbove : Block L 0 above (.rows rows)
  keyed : L.Key name key
  block : Block L width inner (.rows existing)
  rowsBelow : Block L 0 below (.rows others)
  right : 0 < width
  shown : ∀ l ∈ below.head?, ¬ Skipped l
  ne : existing ≠ []
  differ : Differ (rows ++ (key, .map existing) :: others)
  differInner : Differ existing

section

variable {format : Format} {keep : Bool} {name text result : Text} {key : Value} {width : Nat}
  {above inner below : List Line} {rows existing others : List (Value × Value)} {updates : List (Text × Value)}

theorem Nest.called (hL : L.Locatable names) (hname : name ∈ names)
    (h : Nest L name key width above inner below rows existing others) : isCalled key (.str name) = true :=
  isCalled_str_iff.mpr (hL.text hname h.keyed)

/-- No other key is called by the name. -/
theorem Nest.not_called (hL : L.Locatable names) (hname : name ∈ names)
    (h : Nest L name key width above inner below rows existing others) :
    ∀ e ∈ rows ++ others, isCalled e.1 (.str name) = false := by
  have hapart := h.differ
  rw [Differ, List.pairwise_append, List.pairwise_cons] at hapart
  intro e he
  rw [Bool.eq_false_iff]
  intro hsame
  rw [isCalled_str_iff, ← hL.text hname h.keyed] at hsame
  rcases List.mem_append.mp he with he | he
  · exact hapart.2.2 e he _ List.mem_cons_self hsame
  · exact hapart.2.1.1 e he hsame.symm

theorem Nest.found (hL : L.Locatable names) (hname : name ∈ names)
    (h : Nest L name key width above inner below rows existing others) :
    valueUnder? (rows ++ (key, .map existing) :: others) (.str name) = some (.map existing) :=
  valueUnder?_between (h.called hL hname) (h.not_called hL hname)

theorem Nest.whole (h : Nest L name key width above inner below rows existing others) :
    Block L 0 (above ++ ⟨0, name ++ [':']⟩ :: (inner ++ below))
      (.rows (rows ++ (key, (Parts.rows existing).value) :: others)) := by
  have hbelowKey : (Parts.rows existing).Below 0 width := h.right
  have hempty : (Parts.rows existing).isEmpty = false := by simpa [Parts.isEmpty] using h.ne
  exact h.rowsAbove.append (.innerRow h.keyed hempty hbelowKey h.block h.rowsBelow)

/-- The inner mapping is read in its place in the outer one. -/
theorem Nest.read (hreads : L.ReadBy format) (hL : L.Locatable names) (hcomments : L.Uncommented)
    (hnames : ∀ name ∈ names, Locatable name) (h : Nest L name key width above inner below rows existing others) :
    format.read (render (above ++ ⟨0, name ++ [':']⟩ :: (inner ++ below))) =
      .ok (.map (rows ++ (key, .map existing) :: others)) := by
  have hexisting : ofPairs existing = existing :=
    (h.block.move hL hcomments (moved_outdent (h.block.stands hL hcomments)) (by omega)).ofPairs_rows hL hnames
      h.differInner
  have hdiffer : Differ (rows ++ (key, (Parts.rows existing).value) :: others) := by
    rw [Parts.value, hexisting]
    exact h.differ
  have hwhole := h.whole.ofPairs_rows hL hnames hdiffer
  have hempty : (Parts.rows (rows ++ (key, (Parts.rows existing).value) :: others)).isEmpty = false := by
    simp [Parts.isEmpty]
  rw [hreads h.whole, hempty]
  simp only [Parts.value, hexisting] at hwhole ⊢
  rw [hwhole]
  rfl

/-- The region of the key is the block with the key line. -/
theorem Nest.region (hL : L.Locatable names) (hnames : ∀ name ∈ names, Locatable name) (hname : name ∈ names)
    (h : Nest L name key width above inner below rows existing others) :
    ∃ region, Region.ofKey? name (render (above ++ ⟨0, name ++ [':']⟩ :: (inner ++ below))) = some region ∧
      region.value = render inner ∧
      ∀ block, region.splice (render (above ++ ⟨0, name ++ [':']⟩ :: (inner ++ below)))
          (name ++ ':' :: '\n' :: render block) = render (above ++ ⟨0, name ++ [':']⟩ :: (block ++ below)) := by
  have hlines : inner ≠ [] := h.block.ne_nil (by simpa [Parts.isEmpty] using h.ne)
  have hcontinues := h.block.continues (show (Parts.rows existing).Below 0 width from h.right)
  have htidy : ∀ l ∈ (⟨0, name ++ [':']⟩ : Line) :: inner, Layout.Tidy l.text :=
    List.forall_mem_cons.mpr ⟨hL.tidy.key_line h.keyed List.not_mem_nil, h.block.tidy hL.tidy⟩
  have hkeyed : ∀ block : List Line, render (⟨0, name ++ [':']⟩ :: block) = name ++ ':' :: '\n' :: render block :=
    fun block => by simp [render_cons]
  have hwhole : ∀ block : List Line, render (above ++ ⟨0, name ++ [':']⟩ :: (block ++ below)) =
      render above ++ render (⟨0, name ++ [':']⟩ :: block) ++ render below := fun block => by
    rw [← render_append, ← render_append, List.append_assoc, List.cons_append]
  have hapart := h.differ
  rw [Differ, List.pairwise_append] at hapart
  obtain ⟨hnone, hclosed⟩ := h.rowsAbove.not_located hL hnames hname hapart.1 fun e he =>
    h.not_called hL hname e (List.mem_append_left _ he)
  obtain ⟨region, front, hfound, hfront, hcut, hvalue⟩ := Region.ofKey?_append (hnames name hname).newline hnone hclosed
    (whole_render htidy hcontinues) (endsLine_render (by simp)) (h.rowsBelow.fresh hL h.shown)
    (hkeyed inner ▸ afterColon?_key name ('\n' :: render inner))
  rw [hwhole inner]
  exact ⟨region, hfound, by rw [hvalue, dropHeader_render hlines hcontinues],
    fun block => by rw [hcut.splice_eq, hfront, hwhole block, hkeyed block]⟩

/-- Updates of the inner mapping leave the text as it is, if nothing is to be changed, or they change the block. -/
theorem Nest.apply_cases (hreads : L.ReadBy format) (hL : L.Locatable names) (hcomments : L.Uncommented)
    (hnames : ∀ name ∈ names, Locatable name) (hname : name ∈ names) (hchanges : Changes L format keep updates existing)
    (hnamed : ∀ u ∈ updates, u.1 ∈ names) (hnest : Nest L name key width above inner below rows existing others)
    (hunit : Margin.unitWidth? (render inner) = some width)
    (htext : Text.closeLine text = render (above ++ ⟨0, name ++ [':']⟩ :: (inner ++ below)))
    (h : (apply format keep (.str name) (.map (named updates)) text).result = .ok result) :
    result = text ∧ agrees (.map existing) (.map (named updates)) = true ∨
      ∃ inner' merged, result = render (above ++ ⟨0, name ++ [':']⟩ :: (inner' ++ below)) ∧
        Nest L name key width above inner' below rows merged others ∧ Merges updates existing merged ∧
        ((∀ l ∈ inner.head?, ¬ Skipped l) → ∀ l ∈ inner'.head?, ¬ Skipped l) := by
  have hread := hnest.read hreads hL hcomments hnames
  have hfound := hnest.found hL hname
  rw [← htext] at hread
  cases outcome_of_apply h with
  | nothing _ ht => cases ht
  | removed _ _ _ _ ht _ _ => cases ht
  | filled _ hnull _ _ => rw [hread] at hnull; cases hnull
  | appended entries _ hentries _ habsent _ =>
    rw [hread] at hentries
    cases hentries
    rw [hfound] at habsent
    cases habsent
  | unchanged entries current hentries _ hcurrent hagrees =>
    rw [hread] at hentries
    cases hentries
    rw [hfound] at hcurrent
    cases hcurrent
    exact Or.inl ⟨rfl, hagrees⟩
  | replaced entries current _ _ hentries ht hcurrent _ _ _ =>
    rw [hread] at hentries
    cases hentries
    rw [hfound] at hcurrent
    cases hcurrent
    rcases ht with ht | ⟨-, ht | ht⟩ <;> cases ht
  | merged entries current region asked block hentries hvalue _ hcurrent _ hregion hblock =>
    cases hvalue
    obtain ⟨region', hregion', hvalue, hsplice⟩ := hnest.region hL hnames hname
    rw [htext] at hregion ⊢
    obtain rfl := Option.some.inj (hregion'.symm.trans hregion)
    rw [hvalue] at hblock
    obtain ⟨inner', merged, rfl, hinner', hmerged, hdiffer, hmerges, hshown⟩ := hnest.block.change_merges hreads hL
      hcomments hnames hchanges hnamed hnest.ne hnest.differInner hunit hblock
    refine Or.inr ⟨inner', merged, hsplice inner', ?_, hmerges, hshown⟩
    refine ⟨hnest.rowsAbove, hnest.keyed, hinner', hnest.rowsBelow, hnest.right, hnest.shown, hmerged, ?_, hdiffer⟩
    have hold := hnest.differ
    rw [Differ, ← List.pairwise_map (f := Prod.fst) (R := fun a b => keyText a ≠ keyText b)] at hold ⊢
    simpa using hold

/-- In a block mapping at the margin, updates are merged into the block mapping below a key, and
    nothing else is changed. -/
theorem apply_merges {format : Format} {keep : Bool} {name text result : Text} {updates : List (Text × Value)}
    {key : Value} {above inner below : List Line} {rows existing others : List (Value × Value)} {width : Nat}
    (hreads : L.ReadBy format) (hL : L.Locatable (name :: updates.map (·.1))) (hcomments : L.Uncommented)
    (hnames : ∀ other ∈ name :: updates.map (·.1), Locatable other) (hupdates : Updates L format keep updates)
    (habove : Block L 0 above (.rows rows)) (hkey : L.Key name key) (hinner : Block L width inner (.rows existing))
    (hbelow : Block L 0 below (.rows others)) (hshown : ∀ l ∈ below.head?, ¬ Skipped l) (hne : existing ≠ [])
    (hunit : Margin.unitWidth? (render inner) = some width) (hdiffer : Differ (rows ++ (key, .map existing) :: others))
    (hdifferInner : Differ existing)
    (htext : Text.closeLine text = render (above ++ ⟨0, name ++ [':']⟩ :: (inner ++ below)))
    (hclosed : format.read text = format.read (Text.closeLine text))
    (h : (apply format keep (.str name) (.map (named updates)) text).result = .ok result) :
    format.read text = .ok (.map (rows ++ (key, .map existing) :: others)) ∧
      valueUnder? (rows ++ (key, .map existing) :: others) (.str name) = some (.map existing) ∧
      ∃ merged, format.read result = .ok (.map (rows ++ (key, .map merged) :: others)) ∧
        valueUnder? (rows ++ (key, .map merged) :: others) (.str name) = some (.map merged) ∧
        Merges updates existing merged := by
  have hname : name ∈ name :: updates.map (·.1) := List.mem_cons_self
  have hnamed : ∀ u ∈ updates, u.1 ∈ name :: updates.map (·.1) := fun u hu => List.mem_cons_of_mem _ (List.mem_map_of_mem hu)
  have hnest : Nest L name key width above inner below rows existing others :=
    ⟨habove, hkey, hinner, hbelow, width_pos hunit, hshown, hne, hdiffer, hdifferInner⟩
  have hread : format.read text = .ok (.map (rows ++ (key, .map existing) :: others)) := by
    rw [hclosed, htext, hnest.read hreads hL hcomments hnames]
  refine ⟨hread, hnest.found hL hname, ?_⟩
  rcases hnest.apply_cases hreads hL hcomments hnames hname (hupdates.changes existing) hnamed hunit htext h with
    ⟨rfl, hagrees⟩ | ⟨inner', merged, rfl, hnest', hmerges, -⟩
  · exact ⟨existing, hread, hnest.found hL hname, .of_agrees hagrees fun u hu => by simp [hupdates.simple u hu]⟩
  · exact ⟨merged, hnest'.read hreads hL hcomments hnames, hnest'.found hL hname, hmerges⟩

end

theorem Leaves.simple_uncommented : Leaves.simple.Uncommented := by
  rintro _ _ _ (⟨_, -, hmore, -⟩ | ⟨_, -, -, rfl, -⟩) line hline
  · rcases hmore.of_mem hline with rfl | hwords
    · simp
    · obtain ⟨c, rest, rfl, hc⟩ := hwords.exists_cons
      simpa using Yaml.isPlainChar_ne hc (by decide)
  · cases hline

theorem Leaves.plain_uncommented : Leaves.plain.Uncommented := fun hscalar => simple_uncommented (plain_within.scalar hscalar)

/-- A key with a block of one row below it. -/
theorem nest_p : Nest Leaves.simple ['p'] (.str ['p']) 2 [] [⟨2, ['a', ':', ' ', '1']⟩] [] [] [(.str ['a'], .int 1)] [] where
  rowsAbove := .noRows 0
  keyed := isPlainKey_char (by decide) rfl
  block := .plainRow Leaves.plain_within (isPlainKey_char (c := 'a') (by decide) rfl) (isPhrase_char (c := '1') (by decide)) rfl (.noRows 2)
  rowsBelow := .noRows 0
  right := Nat.two_pos
  shown := by simp
  ne := by simp
  differ := by simp [Differ]
  differInner := by simp [Differ]

theorem updates_b : Updates Leaves.simple Format.yaml false [(['b'], .int 2)] where
  different := by simp
  simple := by simp [Value.treatment]
  writes := by
    have htwo : Writable false 2 3 (.int 2) := writable_int 2
    simpa using htwo.writesRow isWrittenKey_b (.scalar rfl (same_of_isPlainKey rfl))

theorem locatable_p_b : ∀ other ∈ [['p'], ['b']], Locatable other := by
  simp only [List.mem_cons, List.not_mem_nil, or_false, forall_eq_or_imp, forall_eq]
  exact ⟨locatable_char rfl (by decide), locatable_b⟩

/-- A second key in the block below the only one. -/
theorem apply_merges_b :
    (apply Format.yaml false (.str ['p']) (.map (named [(['b'], .int 2)])) "p:\n  a: 1\n".toList).result =
      .ok "p:\n  a: 1\n  b: 2\n".toList := by
  have hread : Format.yaml.read (Text.closeLine "p:\n  a: 1\n".toList) =
      .ok (.map [(.str ['p'], .map [(.str ['a'], .int 1)])]) := by
    have hsame : Text.closeLine "p:\n  a: 1\n".toList =
        render ([] ++ ⟨0, ['p'] ++ [':']⟩ :: ([⟨2, ['a', ':', ' ', '1']⟩] ++ [])) := rfl
    rw [hsame, nest_p.read Leaves.simple_readBy (Leaves.simple_locatable _) Leaves.simple_uncommented locatable_p_b]
    rfl
  have hmargin : Block Leaves.simple 0 [⟨0, ['a', ':', ' ', '1']⟩] (.rows [(.str ['a'], .int 1)]) :=
    .charRow Leaves.plain_within (c := 'a') (d := '1') (by decide) (by decide) rfl rfl (.noRows 0)
  have hreadMargin : Format.yaml.read (Text.closeLine "a: 1\n".toList) = .ok (.map [(.str ['a'], .int 1)]) := by
    have hsame : Text.closeLine "a: 1\n".toList = render [⟨0, ['a', ':', ' ', '1']⟩] := rfl
    rw [hsame, Leaves.simple_readBy hmargin]
    cbv
  have habsent : valueUnder? [(.str ['a'], .int 1)] (.str ['b']) = none := by cbv
  have hentry : Render.entry Format.yaml false (.str ['b']) (.int 2) = .ok "b: 2\n".toList := rfl
  have hadded := (Outcome.appended _ _ hreadMargin (Or.inl rfl) habsent hentry).apply_eq_ok
  have hall : (applyAll Format.yaml false (named [(['b'], .int 2)]) "a: 1\n".toList).result =
      .ok "a: 1\nb: 2\n".toList := by
    rw [named, List.map_singleton, applyAll_cons]
    exact Run.bind_eq_ok.mpr ⟨_, hadded, rfl⟩
  have hblock : (Margin.change ['p'] "  a: 1\n".toList (applyAll Format.yaml false (named [(['b'], .int 2)]))).result =
      .ok "  a: 1\n  b: 2\n".toList :=
    Run.bind_eq_ok.mpr ⟨[' ', ' '], rfl, Run.bind_eq_ok.mpr ⟨(), rfl, Run.bind_eq_ok.mpr ⟨_, hall, rfl⟩⟩⟩
  have hexisting : valueUnder? [(.str ['p'], .map [(.str ['a'], .int 1)])] (.str ['p']) =
      some (.map [(.str ['a'], .int 1)]) := by cbv
  have hdiffers : agrees (.map [(.str ['a'], .int 1)]) (.map (named [(['b'], .int 2)])) = false := by cbv
  have hlocated : Region.ofKey? ['p'] (Text.closeLine "p:\n  a: 1\n".toList) =
      some ⟨0, 10, [], "  a: 1\n".toList⟩ := rfl
  have hresult := (Outcome.merged _ _ _ _ _ hread rfl rfl hexisting hdiffers hlocated hblock).apply_eq_ok
  have hspliced : Region.splice ⟨0, 10, [], "  a: 1\n".toList⟩ (Text.closeLine "p:\n  a: 1\n".toList)
      (['p'] ++ ':' :: '\n' :: "  a: 1\n  b: 2\n".toList) = "p:\n  a: 1\n  b: 2\n".toList := rfl
  rw [hspliced] at hresult
  exact hresult

theorem apply_merges_second_key :
    (apply Format.yaml false (.str "p".toList) (.map [(.str "b".toList, .int 2)]) "p:\n  a: 1\n".toList).result =
      .ok "p:\n  a: 1\n  b: 2\n".toList ∧
    ∃ merged, Format.yaml.read "p:\n  a: 1\n  b: 2\n".toList = .ok (.map [(.str "p".toList, .map merged)]) ∧
      Merges [("b".toList, .int 2)] [(.str "a".toList, .int 1)] merged := by
  have hclosed : Text.closeLine "p:\n  a: 1\n".toList = "p:\n  a: 1\n".toList := rfl
  have htext : "p:\n  a: 1\n".toList = render ([] ++ ⟨0, ['p'] ++ [':']⟩ :: ([⟨2, ['a', ':', ' ', '1']⟩] ++ [])) := rfl
  obtain ⟨-, -, merged, hmerged, -, hmerges⟩ := apply_merges Leaves.simple_readBy (Leaves.simple_locatable _)
    Leaves.simple_uncommented locatable_p_b updates_b nest_p.rowsAbove nest_p.keyed nest_p.block nest_p.rowsBelow
    nest_p.shown nest_p.ne rfl nest_p.differ nest_p.differInner (hclosed.trans htext) (by rw [hclosed]) apply_merges_b
  exact ⟨apply_merges_b, merged, hmerged, hmerges⟩

/-- The blank between a colon and a mapping in flow style is taken for the unit of a block: what comes of the merge
    is no document. -/
theorem apply_not_merges_flow :
    Format.yaml.read "p: {a: 1}\n".toList = .ok (.map [(.str "p".toList, .map [(.str "a".toList, .int 1)])]) ∧
    (apply Format.yaml false (.str "p".toList) (.map [(.str "b".toList, .int 2)]) "p: {a: 1}\n".toList).result =
      .ok "p:\n {a: 1}\n b: 2\n".toList ∧
    Format.yaml.read "p:\n {a: 1}\n b: 2\n".toList = .error (.notYaml "p:\n {a: 1}\n b: 2\n".toList) := by
  have hread : Format.yaml.read (Text.closeLine "p: {a: 1}\n".toList) =
      .ok (.map [(.str ['p'], .map [(.str ['a'], .int 1)])]) := by cbv
  have hreadFlow : Format.yaml.read (Text.closeLine "{a: 1}\n".toList) = .ok (.map [(.str ['a'], .int 1)]) := by cbv
  have hentry : Render.entry Format.yaml false (.str ['b']) (.int 2) = .ok "b: 2\n".toList := rfl
  have habsent : valueUnder? [(.str ['a'], .int 1)] (.str ['b']) = none := by cbv
  have hadded := (Outcome.appended _ _ hreadFlow (Or.inl rfl) habsent hentry).apply_eq_ok
  have hall : (applyAll Format.yaml false (named [(['b'], .int 2)]) "{a: 1}\n".toList).result =
      .ok "{a: 1}\nb: 2\n".toList := by
    rw [named, List.map_singleton, applyAll_cons]
    exact Run.bind_eq_ok.mpr ⟨_, hadded, rfl⟩
  have hblock : (Margin.change ['p'] " {a: 1}\n".toList (applyAll Format.yaml false (named [(['b'], .int 2)]))).result =
      .ok " {a: 1}\n b: 2\n".toList :=
    Run.bind_eq_ok.mpr ⟨[' '], rfl, Run.bind_eq_ok.mpr ⟨(), rfl, Run.bind_eq_ok.mpr ⟨_, hall, rfl⟩⟩⟩
  have hexisting : valueUnder? [(.str ['p'], .map [(.str ['a'], .int 1)])] (.str ['p']) =
      some (.map [(.str ['a'], .int 1)]) := by cbv
  have hdiffers : agrees (.map [(.str ['a'], .int 1)]) (.map (named [(['b'], .int 2)])) = false := by cbv
  have hlocated : Region.ofKey? ['p'] (Text.closeLine "p: {a: 1}\n".toList) = some ⟨0, 10, [], " {a: 1}\n".toList⟩ := rfl
  have hresult := (Outcome.merged _ _ _ _ _ hread rfl rfl hexisting hdiffers hlocated hblock).apply_eq_ok
  exact ⟨hread, hresult, by cbv⟩

end Layout
end YamlSplice
