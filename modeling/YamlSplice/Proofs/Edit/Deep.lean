/-
  YamlSplice.Proofs.Edit.Deep — merges of nested mappings, down to the keys that they remove.

  An update of a key either goes down into the mapping there or it sets or removes the key; and where it goes down, what
  is there and what is asked for are compared first. The step is one update of a sectioned text, in which the sections of
  the other keys stay as they were, so that the next update finds them so. The run over the updates of one mapping is
  an induction on these, and the descent is one on the mapping of updates.
  - `apply_descends` / `apply_becomes`: one update, if the updates of the mapping below are known to be merged.
  - `applyAll_becomes` / `SuitsDeep.merges`: all updates of a mapping, and of those below it. They are settled in the text
    that comes of it, so that they would find nothing left to do.
  - `apply_updated`: the whole text, with the section of the key changed.
  - `apply_removes_paths`: a key that the update gives the absent value is gone, unless something above it agreed
    with the update.
  - `apply_keeps_agreeing` / `apply_not_removes_equal`: then it stays, with the absent value that it had.
-/

import YamlSplice.Proofs.Edit.Paths
import YamlSplice.Proofs.Edit.Settle

namespace YamlSplice

namespace Edit

open Value

/-- An update of a key goes down into the mapping there. -/
def Descends (existing : List (Value × Value)) (name : Text) (value : Value) : Prop :=
  value.treatment = .merge ∧ ∃ found, valueUnder? existing (.str name) = some found ∧ found.treatment = .merge

/-- What an update of a key makes of sections. -/
structure Updated (L : Layout.Leaves) (names : List Text) (name : Text) (value : Value) (before after : List Section) :
    Prop where
  becomes : Becomes value (valueUnder? (rowsOf before) (.str name)) (valueUnder? (rowsOf after) (.str name))
  settles : Layout.Settles L names name value after
  others : ∀ other, other ≠ name → valueUnder? (rowsOf after) (.str other) = valueUnder? (rowsOf before) (.str other)
  stays : ∀ e ∈ rowsOf before, isCalled e.1 (.str name) = false → e ∈ rowsOf after
  inherits : Inherits name before after

variable {L : Layout.Leaves} {names : List Text}

/-- An edit that does not go down sets the key or removes it. -/
theorem Refines.updated {name : Text} {value : Value} {before after : List Section}
    (h : Refines name value (rowsOf before) (rowsOf after)) (hinherits : Inherits name before after)
    (hkind : value.treatment ≠ .refuse) (hdown : ¬ Descends (rowsOf before) name value) :
    Updated L names name value before after where
  others _ hother := h.valueUnder?_eq hother
  stays _ he hname := h.mem he hname
  inherits := hinherits
  becomes := by
    by_cases ht : value.treatment = .remove
    · rw [valueUnder?_eq_none_iff.mpr (h.removed ht), eq_null_of_treatment ht]
      exact .removed _
    · obtain ⟨found, hfound, hagrees⟩ := h.present ht
      rw [hfound]
      refine .written (fun hnull => ht (by rw [hnull]; rfl)) (fun entries hentries hmerge => ?_) hagrees
      exact hdown ⟨hmerge, _, hentries, rfl⟩
  settles := by
    by_cases ht : value.treatment = .remove
    · rw [eq_null_of_treatment ht]
      exact .gone (valueUnder?_eq_none_iff.mpr (h.removed ht))
    · obtain ⟨found, hfound, hagrees⟩ := h.present ht
      exact .agrees (set_of_treatment hkind ht) hfound hagrees

/-- The section of another key is still there. -/
theorem Updated.kept {name other : Text} {value : Value} {before after : List Section}
    (h : Updated L names name value before after) (hother : other ≠ name)
    (hunlike : before.Pairwise fun a b => keyText a.row.1 ≠ keyText b.row.1) : Layout.Kept other before after where
  value := h.others other hother
  sections := by
    intro s hs hcalled
    have hquiet : isCalled s.row.1 (.str name) = false := isCalled_other hcalled (Ne.symm hother)
    obtain ⟨t, ht, hrow⟩ := List.mem_map.mp (h.stays s.row (List.mem_map_of_mem hs) hquiet)
    obtain ⟨o, ho, htext, hsame, -⟩ := h.inherits t ht (hrow ▸ hquiet)
    -- no other section before has the same key
    have hdifferent : (before.map fun o => keyText o.row.1).Nodup := List.pairwise_map.mpr hunlike
    obtain rfl : o = s := List.inj_on_of_nodup_map hdifferent ho hs (by rw [hsame, hrow])
    exact ⟨t, ht, htext.symm, hrow⟩

theorem rowsOf_between (above below : List Section) (s : Section) :
    rowsOf (above ++ s :: below) = rowsOf above ++ s.row :: rowsOf below := by simp [rowsOf]

/-- What is found under a name that calls one section. -/
theorem valueUnder?_section {name : Text} {above below : List Section} {s : Section}
    (hcalled : isCalled s.row.1 (.str name) = true)
    (hothers : ∀ o ∈ above ++ below, isCalled o.row.1 (.str name) = false) :
    valueUnder? (rowsOf (above ++ s :: below)) (.str name) = some s.row.2 := by
  rw [rowsOf_between]
  refine valueUnder?_between hcalled fun e he => ?_
  rw [rowsOf, rowsOf, ← List.map_append] at he
  obtain ⟨o, ho, rfl⟩ := List.mem_map.mp he
  exact hothers o ho

/-- A section in the place of another one of the same key. -/
theorem Updated.of_section {name : Text} {value : Value} {above below : List Section} {s t : Section}
    (hs : isCalled s.row.1 (.str name) = true) (ht : isCalled t.row.1 (.str name) = true)
    (hothers : ∀ o ∈ above ++ below, isCalled o.row.1 (.str name) = false)
    (hbecomes : Becomes value (some s.row.2) (some t.row.2))
    (hsettles : Layout.Settles L names name value (above ++ t :: below)) :
    Updated L names name value (above ++ s :: below) (above ++ t :: below) where
  becomes := by rwa [valueUnder?_section hs hothers, valueUnder?_section ht hothers]
  settles := hsettles
  others := by
    intro other hother
    -- neither section is called by the other name
    refine valueUnder?_congr ?_
    rw [rowsOf_between, rowsOf_between, List.filter_append, List.filter_append,
      List.filter_cons_of_neg (by simp [isCalled_other ht hother]),
      List.filter_cons_of_neg (by simp [isCalled_other hs hother])]
  stays := by
    intro e he hname
    rw [rowsOf_between] at he ⊢
    rcases List.mem_append.mp he with he | he
    · exact List.mem_append_left _ he
    · rcases List.mem_cons.mp he with rfl | he
      · rw [hs] at hname
        cases hname
      · exact List.mem_append_right _ (List.mem_cons_of_mem _ he)
  inherits := by
    have hput := @Inherits.of_put above [s] below t name ht
    simpa using hput

end Edit

namespace Layout

open Edit Value

variable {L : Leaves} {names : List Text} {format : Format} {keep : Bool}

/-! ## One update -/

/-- Updates are merged into a block mapping, whatever its lines are, and settled in the lines that come of it. -/
def MergesBlocks (L : Leaves) (names : List Text) (format : Format) (keep : Bool) (existing : List (Value × Value))
    (updates : List (Text × Value)) : Prop :=
  ∀ {ls : List Line} {result : Text}, Block L 0 ls (.rows existing) → existing ≠ [] → Orderly L ls →
    (applyAll format keep (named updates) (render ls)).result = .ok result →
    ∃ ls' merged, result = render ls' ∧ Block L 0 ls' (.rows merged) ∧ merged ≠ [] ∧ Differ merged ∧ Headed ls' ∧
      (∀ u ∈ updates, Becomes u.2 (valueUnder? existing (.str u.1)) (valueUnder? merged (.str u.1))) ∧
      ∀ u ∈ updates, u.1 ∈ names ∧ Rests L names u.1 u.2 ls'

/-- The section of a key with a mapping, when updates are merged into the block below the key line. -/
theorem section_merges {ls : List Line} {s : Section} {name rest block : Text} {updates : List (Text × Value)}
    (hL : L.Locatable names) (hcomments : L.Uncommented) (hmaps : L.Unmapped) (hnames : ∀ name ∈ names, Locatable name)
    (hname : name ∈ names) (hordered : Orderly L ls) (hlaid : Laid L ls s)
    (hfirst : Region.afterColon? name s.whole = some rest) (hmapping : s.row.2.treatment = .merge)
    (hbelow : ∀ current, s.row.2 = .map current → MergesBlocks L names format keep current updates)
    (hblock : (Margin.change name (Region.dropHeader rest) (applyAll format keep (named updates))).result = .ok block) :
    ∃ current merged, s.row.2 = .map current ∧
      (∀ u ∈ updates, Becomes u.2 (valueUnder? current (.str u.1)) (valueUnder? merged (.str u.1))) ∧
      L.Key name s.row.1 ∧ ∃ t : Section, t.whole = name ++ ':' :: '\n' :: block ∧ t.row = (s.row.1, .map merged) ∧
        t.Sound (marginRows L) ∧ (∀ other ∈ names, t.Shows other) ∧ RestsBelow L names name updates t := by
  obtain ⟨width, inner, current, hkey, hrow, hcurrent, hwidth, hinner, horderedInner, hdrop⟩ :=
    hlaid.below hL hcomments hmaps hnames hordered (hnames name hname) hfirst hmapping
  rw [hdrop] at hblock
  have hunit := hinner.unit hL hcurrent hwidth (hinner.headed hL hcurrent horderedInner.flush)
  have horderedMargin := horderedInner.outdent hL hcomments hwidth (hinner.stands hL hcomments)
  obtain ⟨changed, hchanged, hback⟩ := hinner.change_rows hL hcomments hunit hblock
  obtain ⟨ls', merged, hlines, hmerged, hne, hdiffer, hheaded, hbecomes, hrests⟩ :=
    hbelow current hrow (hinner.outdent hL hcomments) hcurrent horderedMargin hchanged
  obtain ⟨inner', rfl, hinner', -, hraised⟩ := hback ls' merged hlines hmerged hne
  obtain ⟨core, n, rfl, hsound, hshows⟩ := hinner'.section_below hL hcomments hnames hkey hne hwidth hdiffer
  -- the blank lines at the end stand below the section
  have hcore : Raised width ls' core := (hraised horderedInner.flush).of_append_blank fun l hl => by
    rw [List.eq_of_mem_replicate hl]
  have hblockCore : Block L width core (.rows merged) := by simpa using hmerged.raise hL hcomments hcore
  refine ⟨current, merged, hrow, hbecomes, hkey, _, ?_, rfl, hsound, hshows,
    .intro n hkey hblockCore hne hdiffer hwidth (hheaded.raise hcore) hcore (fun u hu => (hrests u hu).1)
      fun u hu => (hrests u hu).2⟩
  rw [Section.whole, render_append_newlines]
  simp

/-- An update that goes down into the mapping of a key leaves a mapping that agrees, and puts another one, with the
    updates merged into its block, in the place of the old section. -/
theorem apply_descends {lead : Text} {sections : List Section} {ls : List Line} {name text result : Text}
    {updates : List (Text × Value)} {found : Value} (hreads : L.ReadBy format) (hL : L.Locatable names)
    (hcomments : L.Uncommented) (hmaps : L.Unmapped) (hnames : ∀ name ∈ names, Locatable name)
    (h : Sectioned (marginRows L) L.Keys names lead sections) (hne : sections ≠ [])
    (htext : Text.closeLine text = textOf lead sections) (hname : name ∈ names) (hordered : Orderly L ls)
    (hlaid : ∀ s ∈ sections, isCalled s.row.1 (.str name) = true → Laid L ls s)
    (hfound : valueUnder? (rowsOf sections) (.str name) = some found) (hmapping : found.treatment = .merge)
    (hbelow : ∀ current, found = .map current → MergesBlocks L names format keep current updates)
    (hrun : (apply format keep (.str name) (.map (named updates)) text).result = .ok result) :
    ∃ changed, (result = text ∧ changed = sections ∨ result = textOf lead changed) ∧ changed ≠ [] ∧
      Sectioned (marginRows L) L.Keys names lead changed ∧ Updated L names name (.map (named updates)) sections changed := by
  have hline := (hnames name hname).newline
  have hread := h.read_map (marginRows_reading hreads) hL.legible hne
  rw [← htext] at hread
  have hsame : ∀ {entries}, format.read (Text.closeLine text) = .ok (.map entries) → entries = rowsOf sections :=
    fun hentries => (Value.map.inj (Except.ok.inj (hread.symm.trans hentries))).symm
  cases outcome_of_apply hrun with
  | nothing _ hremove => cases hremove
  | removed _ _ _ _ hremove => cases hremove
  | filled _ hnull => cases hread.symm.trans hnull
  | appended entries _ hentries _ habsent =>
    obtain rfl := hsame hentries
    cases hfound.symm.trans habsent
  | unchanged entries current hentries _ hcurrent hagrees =>
    obtain rfl := hsame hentries
    obtain ⟨current, rfl⟩ := eq_map_of_agrees hagrees
    refine ⟨sections, Or.inl ⟨rfl, rfl⟩, hne, h, ?_, .agrees (Or.inr rfl) hcurrent hagrees, fun _ _ => rfl, fun _ he _ => he,
      .of_subset (List.Subset.refl _)⟩
    rw [hcurrent]
    exact .kept hagrees
  | replaced entries current _ _ hentries hreplace hcurrent =>
    obtain rfl := hsame hentries
    cases hfound.symm.trans hcurrent
    rw [hmapping] at hreplace
    rcases hreplace with hreplace | ⟨-, hreplace | hreplace⟩ <;> cases hreplace
  | merged entries current region asked block hentries hvalue _ hcurrent hdiffers hregion hblock =>
    obtain rfl := hsame hentries
    cases hfound.symm.trans hcurrent
    obtain rfl : named updates = asked := Value.map.inj hvalue
    rw [htext] at hregion ⊢
    obtain ⟨above, s, below, rest, rfl, hcalled, hfirst, hregionValue, hsplice⟩ := h.located hname hline hregion
    have hothers := h.not_called hcalled
    obtain rfl : s.row.2 = found := Option.some.inj ((valueUnder?_section hcalled hothers).symm.trans hfound)
    rw [hregionValue] at hblock
    obtain ⟨current, merged, hrow, hbecomes, hkey, t, hwhole, htrow, hsound, hshows, hrests⟩ := section_merges hL hcomments
      hmaps hnames hname hordered (hlaid s (by simp) hcalled) hfirst hmapping hbelow hblock
    have htcalled : isCalled t.row.1 (.str name) = true := by rw [htrow, hcalled]
    have hknown : L.Keys t.row.1 := ⟨name, by rw [htrow]; exact hkey⟩
    rw [List.append_cons] at h
    have hput := h.put hsound hshows hknown htcalled hothers
    rw [← List.append_cons] at hput
    refine ⟨above ++ t :: below, Or.inr ?_, by simp, hput, .of_section hcalled htcalled hothers ?_
      (.inner (by simp) htcalled hrests)⟩
    · rw [hsplice, ← hwhole]
      simp [textOf]
    · rw [hrow] at hdiffers ⊢
      rw [htrow]
      exact .merged hdiffers hbecomes

/-- An update of a key in a sectioned text, if the updates of the mapping below are merged. -/
theorem apply_becomes {lead : Text} {sections : List Section} {ls : List Line} {name text result : Text} {value : Value}
    (hreads : L.ReadBy format) (hL : L.Locatable names) (hcomments : L.Uncommented) (hmaps : L.Unmapped)
    (hnames : ∀ name ∈ names, Locatable name) (h : Sectioned (marginRows L) L.Keys names lead sections)
    (hne : sections ≠ []) (htext : Text.closeLine text = textOf lead sections) (hname : name ∈ names)
    (hordered : Orderly L ls) (hlaid : ∀ s ∈ sections, isCalled s.row.1 (.str name) = true → Laid L ls s)
    (hdesired : Desired value)
    (hwrites : value.treatment ≠ .remove → ¬ Descends (rowsOf sections) name value → WritesRow L format keep name value)
    (hbelow : ∀ current updates, valueUnder? (rowsOf sections) (.str name) = some (.map current) →
      value = .map (named updates) → MergesBlocks L names format keep current updates)
    (hrun : (apply format keep (.str name) value text).result = .ok result) :
    ∃ changed, (result = text ∧ changed = sections ∨ result = textOf lead changed) ∧
      (value.treatment ≠ .remove → changed ≠ []) ∧ Sectioned (marginRows L) L.Keys names lead changed ∧
      Updated L names name value sections changed := by
  by_cases hdown : Descends (rowsOf sections) name value
  · obtain ⟨ht, found, hfound, hmapping⟩ := hdown
    obtain ⟨updates, rfl⟩ := hdesired.eq_named ht
    obtain ⟨changed, hresult, hchanged, h', hupdated⟩ := apply_descends hreads hL hcomments hmaps hnames h hne htext hname
      hordered hlaid hfound hmapping (fun current hcurrent => hbelow current updates (hcurrent ▸ hfound) rfl) hrun
    exact ⟨changed, hresult, fun _ => hchanged, h', hupdated⟩
  · obtain ⟨changed, hresult, haltered⟩ := apply_altered (marginRows_reading hreads) hL.legible h hne htext hname
      (hnames name hname).newline (fun ht existing hfound hmapping => hdown ⟨ht, existing, hfound, hmapping⟩)
      (fun ht => (hwrites ht hdown).section hL hnames) hrun
    exact ⟨changed, hresult, haltered.left, haltered.sectioned,
      haltered.refines.updated haltered.inherits hdesired.kind hdown⟩

/-! ## All updates of a mapping -/

/-- Updates of different keys suit a mapping: some entry of it stays if any key is removed, and one row is written for
    each key the update of which does not go down. -/
structure Suits (L : Leaves) (format : Format) (keep : Bool) (names : List Text) (existing : List (Value × Value))
    (updates : List (Text × Value)) : Prop where
  different : (updates.map (·.1)).Nodup
  named : ∀ u ∈ updates, u.1 ∈ names
  stays : (∃ u ∈ updates, u.2 = .null) → ∃ e ∈ existing, ∀ u ∈ updates, isCalled e.1 (.str u.1) = false
  writes : ∀ u ∈ updates, u.2 ≠ .null → ¬ Descends existing u.1 u.2 → WritesRow L format keep u.1 u.2

/-- They suit it at any depth. -/
inductive SuitsDeep (L : Leaves) (format : Format) (keep : Bool) (names : List Text) :
    List (Value × Value) → List (Text × Value) → Prop where
  | intro {existing : List (Value × Value)} {updates : List (Text × Value)} :
      Suits L format keep names existing updates →
      (∀ u ∈ updates, ∀ current asked, valueUnder? existing (.str u.1) = some (.map current) →
        u.2 = .map (named asked) → SuitsDeep L format keep names current asked) →
      SuitsDeep L format keep names existing updates

/-- The other updates suit the mapping still when the first one is made. -/
theorem Suits.tail {existing changed : List (Value × Value)} {u : Text × Value} {rest : List (Text × Value)}
    (h : Suits L format keep names existing (u :: rest))
    (hothers : ∀ other, other ≠ u.1 → valueUnder? changed (.str other) = valueUnder? existing (.str other))
    (hstays : ∀ e ∈ existing, isCalled e.1 (.str u.1) = false → e ∈ changed) :
    Suits L format keep names changed rest := by
  have hdifferent := h.different
  rw [List.map_cons, List.nodup_cons] at hdifferent
  refine ⟨hdifferent.2, fun t ht => h.named t (List.mem_cons_of_mem _ ht), ?_, fun t ht hset hdown => ?_⟩
  · rintro ⟨t, ht, hremove⟩
    obtain ⟨e, he, hnone⟩ := h.stays ⟨t, List.mem_cons_of_mem _ ht, hremove⟩
    exact ⟨e, hstays e he (hnone u List.mem_cons_self), fun t ht => hnone t (List.mem_cons_of_mem _ ht)⟩
  · have hother : t.1 ≠ u.1 := fun hsame => hdifferent.1 (List.mem_map.mpr ⟨t, ht, hsame⟩)
    refine h.writes t (List.mem_cons_of_mem _ ht) hset fun hdown' => hdown ?_
    rwa [Descends, hothers t.1 hother]

/-- Updates of a sectioned text, if the updates of the mappings below are merged. -/
theorem applyAll_becomes {lead : Text} {sections : List Section} {ls : List Line} {updates : List (Text × Value)}
    {result : Text} (hreads : L.ReadBy format) (hL : L.Locatable names) (hcomments : L.Uncommented) (hmaps : L.Unmapped)
    (hnames : ∀ name ∈ names, Locatable name) (h : Sectioned (marginRows L) L.Keys names lead sections)
    (hne : sections ≠ []) (hordered : Orderly L ls)
    (hlaid : ∀ u ∈ updates, ∀ s ∈ sections, isCalled s.row.1 (.str u.1) = true → Laid L ls s)
    (hdesired : ∀ u ∈ updates, Desired u.2) (hsuits : Suits L format keep names (rowsOf sections) updates)
    (hbelow : ∀ u ∈ updates, ∀ current asked, valueUnder? (rowsOf sections) (.str u.1) = some (.map current) →
      u.2 = .map (named asked) → MergesBlocks L names format keep current asked)
    (hrun : (applyAll format keep (named updates) (textOf lead sections)).result = .ok result) :
    ∃ changed, result = textOf lead changed ∧ changed ≠ [] ∧ Sectioned (marginRows L) L.Keys names lead changed ∧
      (∀ u ∈ updates, Becomes u.2 (valueUnder? (rowsOf sections) (.str u.1)) (valueUnder? (rowsOf changed) (.str u.1)) ∧
        Settles L names u.1 u.2 changed) ∧
      ∀ other, other ∉ updates.map (·.1) → Kept other sections changed := by
  induction updates generalizing sections with
  | nil =>
    cases hrun
    exact ⟨sections, rfl, hne, h, by simp, fun other _ => .refl other sections⟩
  | cons u rest ih =>
    have hu : u ∈ u :: rest := List.mem_cons_self
    have hrest : ∀ t ∈ rest, t ∈ u :: rest := fun t => List.mem_cons_of_mem _
    obtain ⟨between, hfirst, hrun⟩ := applyAll_cons_eq_ok.mp hrun
    obtain ⟨middle, hbetween, hmiddle, h', hupdated⟩ := apply_becomes hreads hL hcomments hmaps hnames h hne
      (Text.closeLine_of_endsLine (h.endsLine hne)) (hsuits.named u hu) hordered (hlaid u hu) (hdesired u hu)
      (fun ht => hsuits.writes u hu fun hnull => ht (by rw [hnull]; rfl)) (hbelow u hu) hfirst
    obtain rfl : between = textOf lead middle := by
      rcases hbetween with ⟨rfl, rfl⟩ | rfl <;> rfl
    have hne' : middle ≠ [] := by
      by_cases ht : u.2.treatment = .remove
      · obtain ⟨e, he, hnone⟩ := hsuits.stays ⟨u, hu, eq_null_of_treatment ht⟩
        rintro rfl
        exact List.not_mem_nil (hupdated.stays e he (hnone u hu))
      · exact hmiddle ht
    have hdifferent := hsuits.different
    rw [List.map_cons, List.nodup_cons] at hdifferent
    have hother : ∀ t ∈ rest, t.1 ≠ u.1 := fun t ht hsame => hdifferent.1 (List.mem_map.mpr ⟨t, ht, hsame⟩)
    -- the sections and values of the other keys are those of the text at first
    have hlaid' : ∀ t ∈ rest, ∀ o ∈ middle, isCalled o.row.1 (.str t.1) = true → Laid L ls o := by
      intro t ht o ho hcalled
      have hquiet : isCalled o.row.1 (.str u.1) = false := isCalled_other hcalled (Ne.symm (hother t ht))
      obtain ⟨s, hs, htext, hrow, hblank⟩ := hupdated.inherits o ho hquiet
      exact (hlaid t (hrest t ht) s hs (hrow ▸ hcalled)).of_inherited htext hrow hblank
    have hbelow' : ∀ t ∈ rest, ∀ current asked, valueUnder? (rowsOf middle) (.str t.1) = some (.map current) →
        t.2 = .map (named asked) → MergesBlocks L names format keep current asked := fun t ht current asked hfound =>
      hbelow t (hrest t ht) current asked ((hupdated.others t.1 (hother t ht)).symm.trans hfound)
    obtain ⟨changed, rfl, hchanged, h'', hbecomes, hkept⟩ := ih h' hne' hlaid' (fun t ht => hdesired t (hrest t ht))
      (hsuits.tail hupdated.others hupdated.stays) hbelow' hrun
    have hown := hkept u.1 hdifferent.1
    refine ⟨changed, rfl, hchanged, h'', List.forall_mem_cons.mpr ⟨⟨?_, hupdated.settles.kept hown⟩, fun t ht => ?_⟩,
      fun other hnot => ?_⟩
    · rw [hown.value]
      exact hupdated.becomes
    · rw [← hupdated.others t.1 (hother t ht)]
      exact hbecomes t ht
    · rw [List.map_cons, List.mem_cons, not_or] at hnot
      exact (hupdated.kept hnot.1 h.unlike).trans (hkept other hnot.2)

/-- Updates that suit a mapping at any depth are merged into its block. -/
theorem SuitsDeep.merges {existing : List (Value × Value)} {updates : List (Text × Value)} (hreads : L.ReadBy format)
    (hL : L.Locatable names) (hcomments : L.Uncommented) (hmaps : L.Unmapped) (hnames : ∀ name ∈ names, Locatable name)
    (h : SuitsDeep L format keep names existing updates) (hdesired : Desired (.map (named updates))) :
    MergesBlocks L names format keep existing updates := by
  induction h with
  | @intro existing updates hsuits _ ih =>
    intro ls result hblock hne hordered hrun
    have hall : ∀ u ∈ updates, Desired u.2 := fun u hu => hdesired.of_mem (mem_named hu)
    obtain ⟨lead, sections, hrender, hsectioned, rfl, hlaid⟩ :=
      hblock.sectioned_laid hL hnames (hordered.differ (List.infix_refl ls) hblock)
    rw [hrender] at hrun
    have hne' : sections ≠ [] := fun hnil => hne (by rw [hnil]; rfl)
    obtain ⟨changed, rfl, hchanged, h', hbecomes, -⟩ := applyAll_becomes hreads hL hcomments hmaps hnames hsectioned hne'
      hordered (fun _ _ s hs _ => hlaid s hs) hall hsuits
      (fun u hu current asked hfound hvalue => ih u hu current asked hfound hvalue (hvalue ▸ hall u hu)) hrun
    obtain ⟨ls', htext, hls'⟩ := h'.rows (marginRows_reading hreads)
    refine ⟨ls', rowsOf changed, htext, hls', by simpa [rowsOf] using hchanged, List.pairwise_map.mpr h'.unlike, ?_,
      fun u hu => (hbecomes u hu).1, fun u hu => ⟨hsuits.named u hu, ?_⟩⟩
    · exact headed_sections hreads hL h' hsectioned hchanged (hblock.tidy hL.tidy) hrender hordered.flush
        (hls'.tidy hL.tidy) htext.symm
    · exact (hbecomes u hu).2.rests hreads hL h' hchanged hls' htext.symm

/-! ## The whole text -/

/-- Updates are merged into the block below a key, at any depth: the text is as it was, or the section of the key has
    been changed. -/
theorem apply_updated {ls : List Line} {rows existing : List (Value × Value)} {name text result : Text}
    {updates : List (Text × Value)} (hreads : L.ReadBy format) (hL : L.Locatable names) (hcomments : L.Uncommented)
    (hmaps : L.Unmapped) (hnames : ∀ name ∈ names, Locatable name) (hname : name ∈ names)
    (hblock : Block L 0 ls (.rows rows)) (hordered : Orderly L ls) (htext : Text.closeLine text = render ls)
    (hexisting : valueUnder? rows (.str name) = some (.map existing)) (hdesired : Desired (.map (named updates)))
    (hsuits : SuitsDeep L format keep names existing updates)
    (h : (apply format keep (.str name) (.map (named updates)) text).result = .ok result) :
    format.read (Text.closeLine text) = .ok (.map rows) ∧ ∃ lead sections changed, rowsOf sections = rows ∧
      (result = text ∧ changed = sections ∨ result = textOf lead changed) ∧ changed ≠ [] ∧
      Sectioned (marginRows L) L.Keys names lead changed ∧ Updated L names name (.map (named updates)) sections changed := by
  obtain ⟨lead, sections, hrender, hsectioned, rfl, hlaid⟩ :=
    hblock.sectioned_laid hL hnames (hordered.differ (List.infix_refl ls) hblock)
  have hne : sections ≠ [] := by
    rintro rfl
    cases hexisting
  have hread : format.read (Text.closeLine text) = .ok (.map (rowsOf sections)) := by
    rw [htext, hrender]
    exact hsectioned.read_map (marginRows_reading hreads) hL.legible hne
  refine ⟨hread, lead, sections, ?_⟩
  have hbelow : ∀ current, Value.map existing = .map current → MergesBlocks L names format keep current updates := by
    rintro _ ⟨⟩
    exact hsuits.merges hreads hL hcomments hmaps hnames hdesired
  obtain ⟨changed, hresult, hchanged, h', hupdated⟩ := apply_descends hreads hL hcomments hmaps hnames hsectioned hne
    (htext.trans hrender) hname hordered (fun s hs _ => hlaid s hs) hexisting rfl hbelow h
  exact ⟨changed, rfl, hresult, hchanged, h', hupdated⟩

/-- Updates are merged into the block below a key. At the end of a path that leads through mappings, and where the
    update has the absent value, nothing is read then. But if something above agreed with the update, the absent value is
    read there still. -/
theorem apply_removes_paths {ls : List Line} {rows existing : List (Value × Value)} {name text result : Text}
    {updates : List (Text × Value)} (hreads : L.ReadBy format) (hL : L.Locatable names) (hcomments : L.Uncommented)
    (hmaps : L.Unmapped) (hnames : ∀ name ∈ names, Locatable name) (hname : name ∈ names)
    (hblock : Block L 0 ls (.rows rows)) (hordered : Orderly L ls) (htext : Text.closeLine text = render ls)
    (hclosed : format.read text = format.read (Text.closeLine text))
    (hexisting : valueUnder? rows (.str name) = some (.map existing)) (hdesired : Desired (.map (named updates)))
    (hsuits : SuitsDeep L format keep names existing updates)
    (h : (apply format keep (.str name) (.map (named updates)) text).result = .ok result) :
    format.read text = .ok (.map rows) ∧ ∃ loaded, format.read result = .ok loaded ∧
      ∀ key path parent, (Value.map (named updates)).at? (key :: path) = some .null →
        (Value.map existing).at? (key :: path).dropLast = some (.map parent) →
        (¬ AgreesAbove (.map existing) (.map (named updates)) (key :: path) → loaded.at? (name :: key :: path) = none) ∧
        (AgreesAbove (.map existing) (.map (named updates)) (key :: path) →
          loaded.at? (name :: key :: path) = some .null) := by
  obtain ⟨hread, lead, sections, changed, rfl, hresult, hchanged, h', hupdated⟩ := apply_updated hreads hL hcomments hmaps
    hnames hname hblock hordered htext hexisting hdesired hsuits h
  rw [← hclosed] at hread
  have hloaded : format.read result = .ok (.map (rowsOf changed)) := by
    rcases hresult with ⟨rfl, rfl⟩ | rfl
    · exact hread
    · exact h'.read_map (marginRows_reading hreads) hL.legible hchanged
  have hbecomes := hupdated.becomes
  rw [hexisting] at hbecomes
  refine ⟨hread, .map (rowsOf changed), hloaded, fun key path parent hpath hparent => ?_⟩
  simpa only [Value.at?] using hbecomes.at? hdesired rfl hpath hparent

/-- Two rows at any column. -/
theorem block_q_r (column : Nat) : Block Leaves.plain column
    [⟨column, ['q', ':', ' ', '1']⟩, ⟨column, ['r', ':', ' ', '1']⟩] (.rows [(.str ['q'], .int 1), (.str ['r'], .int 1)]) :=
  .plainRow (.refl _) (isPlainKey_char (c := 'q') (by decide) rfl) (isPhrase_char (c := '1') (by decide)) rfl
    (.plainRow (.refl _) (isPlainKey_char (c := 'r') (by decide) rfl) (isPhrase_char (c := '1') (by decide)) rfl (.noRows column))

theorem ofPairs_q_r : ofPairs [(.str ['q'], .int 1), (.str ['r'], .int 1)] =
    [(.str ['q'], .int 1), (.str ['r'], .int 1)] := by cbv

/-- They stand below a key. -/
theorem block_a_q_r (column : Nat) : Block Leaves.plain column
    [⟨column, ['a', ':']⟩, ⟨column + 2, ['q', ':', ' ', '1']⟩, ⟨column + 2, ['r', ':', ' ', '1']⟩]
    (.rows [(.str ['a'], .map [(.str ['q'], .int 1), (.str ['r'], .int 1)])]) := by
  have hbelow : (Parts.rows [(.str ['q'], .int 1), (.str ['r'], .int 1)]).Below column (column + 2) :=
    Nat.lt_add_of_pos_right Nat.two_pos
  have hrow : Block Leaves.plain column
      [⟨column, ['a', ':']⟩, ⟨column + 2, ['q', ':', ' ', '1']⟩, ⟨column + 2, ['r', ':', ' ', '1']⟩]
      (.rows [(.str ['a'], .map (ofPairs [(.str ['q'], .int 1), (.str ['r'], .int 1)]))]) :=
    .innerRow (isPlainKey_char (c := 'a') (by decide) rfl) rfl hbelow (block_q_r (column + 2)) (.noRows column)
  rwa [ofPairs_q_r] at hrow

/-- This key stands below another one. -/
theorem block_p_a : Block Leaves.plain 0
    [⟨0, ['p', ':']⟩, ⟨2, ['a', ':']⟩, ⟨4, ['q', ':', ' ', '1']⟩, ⟨4, ['r', ':', ' ', '1']⟩]
    (.rows [(.str ['p'], .map [(.str ['a'], .map [(.str ['q'], .int 1), (.str ['r'], .int 1)])])]) := by
  have hbelow : (Parts.rows [(.str ['a'], .map [(.str ['q'], .int 1), (.str ['r'], .int 1)])]).Below 0 2 := Nat.two_pos
  exact .innerRow (isPlainKey_char (c := 'p') (by decide) rfl) rfl hbelow (block_a_q_r 2) (.noRows 0)

theorem apply_removes_q_below :
    (apply Format.yaml false (.str ['p']) (.map (named [(['a'], .map (named [(['q'], .null)]))]))
      "p:\n  a:\n    q: 1\n    r: 1\n".toList).result = .ok "p:\n  a:\n    r: 1\n".toList := by
  have hread : Format.yaml.read (Text.closeLine "p:\n  a:\n    q: 1\n    r: 1\n".toList) =
      .ok (.map [(.str ['p'], .map [(.str ['a'], .map [(.str ['q'], .int 1), (.str ['r'], .int 1)])])]) := by
    have hsame : Text.closeLine "p:\n  a:\n    q: 1\n    r: 1\n".toList =
        render [⟨0, ['p', ':']⟩, ⟨2, ['a', ':']⟩, ⟨4, ['q', ':', ' ', '1']⟩, ⟨4, ['r', ':', ' ', '1']⟩] := rfl
    rw [hsame, Leaves.plain_readBy block_p_a]
    rfl
  have hreadMargin : Format.yaml.read (Text.closeLine "a:\n  q: 1\n  r: 1\n".toList) =
      .ok (.map [(.str ['a'], .map [(.str ['q'], .int 1), (.str ['r'], .int 1)])]) := by
    have hsame : Text.closeLine "a:\n  q: 1\n  r: 1\n".toList =
        render [⟨0, ['a', ':']⟩, ⟨2, ['q', ':', ' ', '1']⟩, ⟨2, ['r', ':', ' ', '1']⟩] := rfl
    rw [hsame, Leaves.plain_readBy (block_a_q_r 0)]
    rfl
  have hreadInner : Format.yaml.read (Text.closeLine "q: 1\nr: 1\n".toList) =
      .ok (.map [(.str ['q'], .int 1), (.str ['r'], .int 1)]) := by
    have hsame : Text.closeLine "q: 1\nr: 1\n".toList =
        render [⟨0, ['q', ':', ' ', '1']⟩, ⟨0, ['r', ':', ' ', '1']⟩] := rfl
    rw [hsame, Leaves.plain_readBy (block_q_r 0), Parts.value, ofPairs_q_r]
    rfl
  have hfoundInner : valueUnder? [(.str ['q'], .int 1), (.str ['r'], .int 1)] (.str ['q']) = some (.int 1) := by cbv
  have hlocatedInner : Region.ofKey? ['q'] (Text.closeLine "q: 1\nr: 1\n".toList) = some ⟨0, 5, [], " 1\n".toList⟩ := rfl
  have hremoved := (@Outcome.removed Format.yaml false _ .null _ _ _ _ hreadInner rfl hfoundInner hlocatedInner).apply_eq_ok
  have hall : (applyAll Format.yaml false (named [(['q'], .null)]) "q: 1\nr: 1\n".toList).result = .ok "r: 1\n".toList :=
    applyAll_cons_eq_ok.mpr ⟨_, hremoved, rfl⟩
  have hblock : (Margin.change ['a'] "  q: 1\n  r: 1\n".toList (applyAll Format.yaml false (named [(['q'], .null)]))).result =
      .ok "  r: 1\n".toList := Margin.change_eq_ok.mpr ⟨[' ', ' '], "r: 1\n".toList, rfl, hall, rfl⟩
  have hfound : valueUnder? [(.str ['a'], .map [(.str ['q'], .int 1), (.str ['r'], .int 1)])] (.str ['a']) =
      some (.map [(.str ['q'], .int 1), (.str ['r'], .int 1)]) := by cbv
  have hdiffers : agrees (.map [(.str ['q'], .int 1), (.str ['r'], .int 1)]) (.map (named [(['q'], .null)])) = false := by cbv
  have hlocated : Region.ofKey? ['a'] (Text.closeLine "a:\n  q: 1\n  r: 1\n".toList) =
      some ⟨0, 17, [], "  q: 1\n  r: 1\n".toList⟩ := rfl
  have hmerged := (Outcome.merged _ _ _ _ _ hreadMargin rfl rfl hfound hdiffers hlocated hblock).apply_eq_ok
  have hallOuter : (applyAll Format.yaml false (named [(['a'], .map (named [(['q'], .null)]))])
      "a:\n  q: 1\n  r: 1\n".toList).result = .ok "a:\n  r: 1\n".toList :=
    applyAll_cons_eq_ok.mpr ⟨_, hmerged, rfl⟩
  have hblockOuter : (Margin.change ['p'] "  a:\n    q: 1\n    r: 1\n".toList
      (applyAll Format.yaml false (named [(['a'], .map (named [(['q'], .null)]))]))).result = .ok "  a:\n    r: 1\n".toList :=
    Margin.change_eq_ok.mpr ⟨[' ', ' '], "a:\n  r: 1\n".toList, rfl, hallOuter, rfl⟩
  have hfoundOuter : valueUnder? [(.str ['p'], .map [(.str ['a'], .map [(.str ['q'], .int 1), (.str ['r'], .int 1)])])]
      (.str ['p']) = some (.map [(.str ['a'], .map [(.str ['q'], .int 1), (.str ['r'], .int 1)])]) := by cbv
  have hdiffersOuter : agrees (.map [(.str ['a'], .map [(.str ['q'], .int 1), (.str ['r'], .int 1)])])
      (.map (named [(['a'], .map (named [(['q'], .null)]))])) = false := by cbv
  have hlocatedOuter : Region.ofKey? ['p'] (Text.closeLine "p:\n  a:\n    q: 1\n    r: 1\n".toList) =
      some ⟨0, 26, [], "  a:\n    q: 1\n    r: 1\n".toList⟩ := rfl
  have hresult := (Outcome.merged _ _ _ _ _ hread rfl rfl hfoundOuter hdiffersOuter hlocatedOuter hblockOuter).apply_eq_ok
  exact hresult

theorem desired_q_below : Desired (.map (named [(['a'], .map (named [(['q'], .null)]))])) := by
  refine .merge fun u hu => ?_
  obtain rfl := List.mem_singleton.mp hu
  refine .merge fun u hu => ?_
  obtain rfl := List.mem_singleton.mp hu
  exact .remove

/-- The row of another key stays, and nothing is to be written. -/
theorem suitsDeep_q : SuitsDeep Leaves.plain Format.yaml false [['p'], ['a'], ['q']]
    [(.str ['q'], .int 1), (.str ['r'], .int 1)] [(['q'], .null)] := by
  refine .intro ⟨by simp, by simp, fun _ => ⟨(.str ['r'], .int 1), by simp, ?_⟩, ?_⟩ ?_
  · have hother : isCalled (.str ['r']) (.str ['q']) = false := by cbv
    simpa using hother
  · simp
  · simp

theorem suitsDeep_q_below : SuitsDeep Leaves.plain Format.yaml false [['p'], ['a'], ['q']]
    [(.str ['a'], .map [(.str ['q'], .int 1), (.str ['r'], .int 1)])] [(['a'], .map (named [(['q'], .null)]))] := by
  have hfound : valueUnder? [(.str ['a'], .map [(.str ['q'], .int 1), (.str ['r'], .int 1)])] (.str ['a']) =
      some (.map [(.str ['q'], .int 1), (.str ['r'], .int 1)]) := by cbv
  refine .intro ⟨by simp, by simp, by simp, fun u hu _ hnot => ?_⟩ fun u hu current asked hcurrent hasked => ?_
  · obtain rfl := List.mem_singleton.mp hu
    exact absurd ⟨rfl, _, hfound, rfl⟩ hnot
  · obtain rfl := List.mem_singleton.mp hu
    rw [hfound] at hcurrent
    cases hcurrent
    rw [← named_injective (Value.map.inj hasked)]
    exact suitsDeep_q

theorem orderly_p_a : Orderly Leaves.plain
    [⟨0, ['p', ':']⟩, ⟨2, ['a', ':']⟩, ⟨4, ['q', ':', ' ', '1']⟩, ⟨4, ['r', ':', ' ', '1']⟩] :=
  .of_keys Leaves.plain_locatable (by decide) (by simp)

theorem locatable_p_a_q : ∀ name ∈ [['p'], ['a'], ['q']], Locatable name := by
  simp only [List.mem_cons, List.not_mem_nil, or_false, forall_eq_or_imp, forall_eq]
  exact ⟨locatable_char rfl (by decide), locatable_char rfl (by decide), locatable_char rfl (by decide)⟩

/-- A key two mappings down is removed. -/
theorem apply_removes_paths_q_below :
    (apply Format.yaml false (.str "p".toList) (.map [(.str "a".toList, .map [(.str "q".toList, .null)])])
      "p:\n  a:\n    q: 1\n    r: 1\n".toList).result = .ok "p:\n  a:\n    r: 1\n".toList ∧
    ∃ loaded, Format.yaml.read "p:\n  a:\n    r: 1\n".toList = .ok loaded ∧
      loaded.at? ["p".toList, "a".toList, "q".toList] = none := by
  have hclosed : Text.closeLine "p:\n  a:\n    q: 1\n    r: 1\n".toList = "p:\n  a:\n    q: 1\n    r: 1\n".toList := rfl
  have htext : "p:\n  a:\n    q: 1\n    r: 1\n".toList =
      render [⟨0, ['p', ':']⟩, ⟨2, ['a', ':']⟩, ⟨4, ['q', ':', ' ', '1']⟩, ⟨4, ['r', ':', ' ', '1']⟩] := rfl
  have hexisting : valueUnder? [(.str ['p'], .map [(.str ['a'], .map [(.str ['q'], .int 1), (.str ['r'], .int 1)])])]
      (.str ['p']) = some (.map [(.str ['a'], .map [(.str ['q'], .int 1), (.str ['r'], .int 1)])]) := by cbv
  obtain ⟨-, loaded, hloaded, hpaths⟩ := apply_removes_paths Leaves.plain_readBy (Leaves.plain_locatable _)
    Leaves.plain_uncommented Leaves.plain_unmapped locatable_p_a_q List.mem_cons_self block_p_a orderly_p_a
    (hclosed.trans htext) (by rw [hclosed]) hexisting desired_q_below suitsDeep_q_below apply_removes_q_below
  have hfound : valueUnder? [(.str ['a'], .map [(.str ['q'], .int 1), (.str ['r'], .int 1)])] (.str ['a']) =
      some (.map [(.str ['q'], .int 1), (.str ['r'], .int 1)]) := by cbv
  have hasked : valueUnder? (named [(['a'], .map (named [(['q'], .null)]))]) (.str ['a']) =
      some (.map (named [(['q'], .null)])) := by cbv
  have hdiffers : agrees (.map [(.str ['a'], .map [(.str ['q'], .int 1), (.str ['r'], .int 1)])])
      (.map (named [(['a'], .map (named [(['q'], .null)]))])) = false := by cbv
  have hdiffersInner : agrees (.map [(.str ['q'], .int 1), (.str ['r'], .int 1)]) (.map (named [(['q'], .null)])) = false := by
    cbv
  have hapart : ¬ AgreesAbove (.map [(.str ['a'], .map [(.str ['q'], .int 1), (.str ['r'], .int 1)])])
      (.map (named [(['a'], .map (named [(['q'], .null)]))])) [['a'], ['q']] := fun habove =>
    not_agreesAbove_singleton hdiffersInner ((agreesAbove_cons_iff hdiffers hfound hasked).mp habove)
  exact ⟨apply_removes_q_below, loaded, hloaded, (hpaths ['a'] [['q']] _ (by cbv) (by cbv)).1 hapart⟩

/-! ## Exceptions -/

/-- Of any text, an update leaves a mapping that agrees with it as it is, and so every absent value in it that the update
    has too. -/
theorem apply_keeps_agreeing {name text : Text} {entries : List (Value × Value)} {current : Value}
    {updates : List (Text × Value)} (hread : format.read (Text.closeLine text) = .ok (.map entries))
    (hcurrent : valueUnder? entries (.str name) = some current) (hdesired : Desired (.map (named updates)))
    (hagrees : agrees current (.map (named updates)) = true) :
    (apply format keep (.str name) (.map (named updates)) text).result = .ok text ∧
      ∀ path, (Value.map (named updates)).at? path = some .null →
        (Value.map entries).at? (name :: path) = some .null := by
  refine ⟨(Outcome.unchanged _ _ hread (Or.inr rfl) hcurrent hagrees).apply_eq_ok, fun path hpath => ?_⟩
  rw [at?_map hcurrent]
  exact at?_of_agrees hdesired hagrees hpath

/-- A key with the absent value is removed where another value of its mapping is changed. -/
theorem apply_removes_beside_change :
    (apply Format.yaml false (.str ['p']) (.map (named [(['q'], .null), (['r'], .int 2)]))
      "p:\n  q: null\n  r: 1\n".toList).result = .ok "p:\n  r: 2\n".toList := by
  have hread : Format.yaml.read (Text.closeLine "p:\n  q: null\n  r: 1\n".toList) =
      .ok (.map [(.str ['p'], .map [(.str ['q'], .null), (.str ['r'], .int 1)])]) := by cbv
  have hreadMargin : Format.yaml.read (Text.closeLine "q: null\nr: 1\n".toList) =
      .ok (.map [(.str ['q'], .null), (.str ['r'], .int 1)]) := by cbv
  have hfoundQ : valueUnder? [(.str ['q'], .null), (.str ['r'], .int 1)] (.str ['q']) = some .null := by cbv
  have hlocatedQ : Region.ofKey? ['q'] (Text.closeLine "q: null\nr: 1\n".toList) = some ⟨0, 8, [], " null\n".toList⟩ := rfl
  have hremoved := (@Outcome.removed Format.yaml false _ .null _ _ _ _ hreadMargin rfl hfoundQ hlocatedQ).apply_eq_ok
  have hreadR : Format.yaml.read (Text.closeLine "r: 1\n".toList) = .ok (.map [(.str ['r'], .int 1)]) := by cbv
  have hfoundR : valueUnder? [(.str ['r'], .int 1)] (.str ['r']) = some (.int 1) := by cbv
  have hlocatedR : Region.ofKey? ['r'] (Text.closeLine "r: 1\n".toList) = some ⟨0, 5, [], " 1\n".toList⟩ := rfl
  have hkept : Render.entryKeepingKey Format.yaml false ['r'] (.int 2) = .ok "r: 2\n".toList := rfl
  have hdiffersR : agrees (.int 1) (.int 2) = false := by cbv
  have hreplaced := (Outcome.replaced _ _ _ _ hreadR (Or.inl rfl) hfoundR hdiffersR hlocatedR hkept).apply_eq_ok
  have hall : (applyAll Format.yaml false (named [(['q'], .null), (['r'], .int 2)]) "q: null\nr: 1\n".toList).result =
      .ok "r: 2\n".toList :=
    applyAll_cons_eq_ok.mpr ⟨_, hremoved, applyAll_cons_eq_ok.mpr ⟨_, hreplaced, rfl⟩⟩
  have hblock : (Margin.change ['p'] "  q: null\n  r: 1\n".toList
      (applyAll Format.yaml false (named [(['q'], .null), (['r'], .int 2)]))).result = .ok "  r: 2\n".toList :=
    Margin.change_eq_ok.mpr ⟨[' ', ' '], "r: 2\n".toList, rfl, hall, rfl⟩
  have hfound : valueUnder? [(.str ['p'], .map [(.str ['q'], .null), (.str ['r'], .int 1)])] (.str ['p']) =
      some (.map [(.str ['q'], .null), (.str ['r'], .int 1)]) := by cbv
  have hdiffers : agrees (.map [(.str ['q'], .null), (.str ['r'], .int 1)])
      (.map (named [(['q'], .null), (['r'], .int 2)])) = false := by cbv
  have hlocated : Region.ofKey? ['p'] (Text.closeLine "p:\n  q: null\n  r: 1\n".toList) =
      some ⟨0, 20, [], "  q: null\n  r: 1\n".toList⟩ := rfl
  have hresult := (Outcome.merged _ _ _ _ _ hread rfl rfl hfound hdiffers hlocated hblock).apply_eq_ok
  exact hresult

/-- A mapping that agrees with the update is left as it is, with the absent value of a key that the update removes. Where
    another value of the mapping is changed, the same key is removed. -/
theorem apply_not_removes_equal :
    Format.yaml.read "p:\n  q: null\n  r: 1\n".toList =
      .ok (.map [(.str "p".toList, .map [(.str "q".toList, .null), (.str "r".toList, .int 1)])]) ∧
    (apply Format.yaml false (.str "p".toList) (.map [(.str "q".toList, .null), (.str "r".toList, .int 1)])
      "p:\n  q: null\n  r: 1\n".toList).result = .ok "p:\n  q: null\n  r: 1\n".toList ∧
    (Value.map [(.str "q".toList, .null), (.str "r".toList, .int 1)]).at? ["q".toList] = some .null ∧
    (Value.map [(.str "p".toList, .map [(.str "q".toList, .null), (.str "r".toList, .int 1)])]).at?
      ["p".toList, "q".toList] = some .null ∧
    (apply Format.yaml false (.str "p".toList) (.map [(.str "q".toList, .null), (.str "r".toList, .int 2)])
      "p:\n  q: null\n  r: 1\n".toList).result = .ok "p:\n  r: 2\n".toList :=
  ⟨by cbv, by cbv, by cbv, by cbv, apply_removes_beside_change⟩

end Layout
end YamlSplice
