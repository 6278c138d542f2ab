/-
  YamlSplice.Proofs.Edit.Repeat — an edit made twice, and an addition taken back.

  (1) An edit of a mapping laid out in rows, made again, changes nothing (`apply_twice`), be it that a key is removed,
  that a value is set, or that updates are merged into the block below a key, and on into the blocks below its keys. Each
  of these is taken to the margin and put back. Where a merge removes the last key of a block, the absent value stays
  behind as a value, and the next merge replaces it (`removed_below_comes_back`).

  (2) To remove a key that was added at the end of such a text gives the text back (`apply_taken_back`), if the key
  is written as it stands and the text has no line that looks like the line of the key. A key with a colon may look
  like that (`removed_line_of_longer_key`).
-/

import YamlSplice.Proofs.Edit.Deep

namespace YamlSplice

open Edit Value

namespace Edit

variable {format : Format} {keep : Bool} {name text addition : Text} {value : Value}

/-- An entry at the end of a text is what is removed, if no line above it is taken for the line of its key. -/
theorem apply_remove_added {rest : Text} {entries : List (Value × Value)} {existing : Value} (hname : '\n' ∉ name)
    (hclosed : Text.endsLine text = true) (hnone : Region.ofKey? name text = none) (hwhole : Region.Whole addition)
    (hends : Text.endsLine addition = true) (hline : Region.afterColon? name addition = some rest)
    (hread : format.read (text ++ addition) = .ok (.map entries))
    (hfound : valueUnder? entries (.str name) = some existing) :
    (apply format keep (.str name) .null (text ++ addition)).result = .ok text := by
  have hlast : ∀ c ∈ ([] : Text).head?, Region.continues c = false := by simp
  obtain ⟨region, before, hregion, hbefore, hcut, -⟩ :=
    Region.ofKey?_append hname hnone (Or.inr hclosed) hwhole hends hlast hline
  rw [List.append_nil] at hregion hcut
  have hsame : Text.closeLine (text ++ addition) = text ++ addition :=
    Text.closeLine_of_endsLine (Text.endsLine_append hends)
  rw [← hsame] at hread hregion
  have hedit : Outcome format keep name .null (text ++ addition) _ :=
    .removed entries existing region hread rfl hfound hregion
  have hremoved := hedit.apply_eq_ok
  rw [hsame, hcut.splice_eq, hbefore] at hremoved
  simpa using hremoved

end Edit

namespace Layout

variable {L : Leaves} {names : List Text} {format : Format} {keep : Bool} {name text result : Text} {value : Value}
  {ls : List Line} {rows : List (Value × Value)}

/-! ## An edit made twice -/

/-- A key that has been set in a text of comments and blank lines is set again without change. -/
theorem apply_first_again (hreads : L.ReadBy format) (hblock : Block L 0 ls (.rows []))
    (htext : Text.closeLine text = render ls) (hkind : value.treatment ≠ .refuse)
    (hwrites : value.treatment ≠ .remove → WritesRow L format keep name value)
    (h : (apply format keep (.str name) value text).result = .ok result) :
    (apply format keep (.str name) value result).result = .ok result := by
  have hnull : format.read (Text.closeLine text) = .ok .null := by rw [htext, hreads hblock]; rfl
  cases outcome_of_apply h with
  | nothing _ _ => exact h
  | removed _ _ _ hentries | appended _ _ hentries | unchanged _ _ hentries | replaced _ _ _ _ hentries
  | merged _ _ _ _ _ hentries => rw [hnull] at hentries; cases hentries
  | filled addition _ ht hadd =>
    obtain ⟨own, row, rfl, hown, -, -, hcalled, hagrees⟩ := hwrites ht addition (Or.inl hadd)
    obtain ⟨lead, hlead, hfilled⟩ : ∃ lead, Block L 0 lead (.rows []) ∧
        fillEmpty (Text.closeLine text) (render own) = render (lead ++ own) := by
      unfold fillEmpty
      split
      · exact ⟨[], .noRows 0, rfl⟩
      · exact ⟨ls, hblock, by rw [htext, render_append]⟩
    rw [hfilled]
    have hlines : lead ++ own ≠ [] := List.append_ne_nil_of_right_ne_nil _ (hown.ne_nil rfl)
    have hread : format.read (Text.closeLine (render (lead ++ own))) = .ok (.map [row]) := by
      rw [closeLine_render hlines, hreads (hlead.append hown)]
      rfl
    have hfound : valueUnder? [row] (.str name) = some row.2 := @valueUnder?_between [] [] row.1 row.2 name hcalled (by simp)
    exact (Outcome.unchanged _ _ hread (set_of_treatment hkind ht) hfound hagrees).apply_eq_ok

/-- Where no section is left, nothing but comments and blank lines is. -/
theorem read_lead {lead : Text} (hreads : L.ReadBy format)
    (h : Sectioned (marginRows L) L.Keys names lead []) :
    format.read (Text.closeLine (textOf lead [])) = .ok .null := by
  obtain ⟨ls, hlead, hrows⟩ := h.lead_rows
  rcases h.lead_closed with hempty | hends
  · -- the empty text is read as an empty line
    have hline : Block L 0 [⟨0, []⟩] (.rows []) := .skip (Or.inl rfl) (.noRows 0)
    rw [hempty]
    exact hreads hline
  · rw [textOf, List.flatMap_nil, List.append_nil, Text.closeLine_of_endsLine hends, hlead]
    exact hreads hrows

/-- A key that has been set or removed in a block mapping at the margin is set or removed again without change. -/
theorem apply_row_again (hreads : L.ReadBy format) (hL : L.Locatable names) (hnames : ∀ other ∈ names, Locatable other)
    (hname : name ∈ names) (hblock : Block L 0 ls (.rows rows)) (hdiffer : Differ rows)
    (htext : Text.closeLine text = render ls) (hkind : value.treatment ≠ .refuse)
    (hunmerged : value.treatment = .merge →
      ∀ existing, valueUnder? rows (.str name) = some existing → existing.treatment ≠ .merge)
    (hwrites : value.treatment ≠ .remove → WritesRow L format keep name value)
    (h : (apply format keep (.str name) value text).result = .ok result) :
    (apply format keep (.str name) value result).result = .ok result := by
  by_cases hne : rows = []
  · subst hne
    exact apply_first_again hreads hblock htext hkind hwrites h
  have reading := marginRows_reading hreads
  obtain ⟨lead, sections, hrender, hsectioned, rfl⟩ := hblock.sectioned hL hnames hdiffer
  have hsections : sections ≠ [] := fun hnil => hne (by rw [hnil]; rfl)
  obtain ⟨changed, hresult, hmore, hchanged, hrefines⟩ := apply_sections reading hL.legible hsectioned hsections
    (htext.trans hrender) hname (hnames name hname).newline hunmerged (fun ht => (hwrites ht).section hL hnames) h
  rcases hresult with ⟨rfl, -⟩ | rfl
  · exact h
  · by_cases hnil : changed = []
    · subst hnil
      have ht : value.treatment = .remove := by
        by_contra ht
        exact hmore ht rfl
      exact (Outcome.nothing (Or.inl (read_lead hreads hchanged)) ht).apply_eq_ok
    · have hread := hchanged.read_map reading hL.legible hnil
      rw [← Text.closeLine_of_endsLine (hchanged.endsLine hnil)] at hread
      exact apply_already hread hkind hrefines.removed hrefines.present

/-- Updates that have been merged into the inner mapping change nothing. -/
theorem Nest.apply_held {key : Value} {width : Nat} {above inner below : List Line}
    {rows before existing others : List (Value × Value)} {updates : List (Text × Value)} (hreads : L.ReadBy format)
    (hL : L.Locatable names) (hcomments : L.Uncommented) (hnames : ∀ other ∈ names, Locatable other) (hname : name ∈ names)
    (h : Nest L name key width above inner below rows existing others) (hshown : ∀ l ∈ inner.head?, ¬ Skipped l)
    (hchanges : ∀ u ∈ updates, u.2.treatment = .remove ∨ u.2.treatment = .replace)
    (hheld : Merges updates before existing)
    (htext : text = render (above ++ ⟨0, name ++ [':']⟩ :: (inner ++ below))) :
    (apply format keep (.str name) (.map (named updates)) text).result = .ok text := by
  obtain ⟨l, more, rfl⟩ := List.exists_cons_of_ne_nil (h.block.ne_nil (by simpa [Parts.isEmpty] using h.ne))
  have hread := (h.block.outdent hL hcomments).read_map hreads hL hnames h.ne h.differInner
  rw [htext]
  refine h.apply_same hreads hL hcomments hnames hname (.here (hshown l rfl)) (applyAll_same fun u hu => ?_)
  obtain ⟨update, hupdate, rfl⟩ := List.mem_map.mp hu
  have hkind : update.2.treatment ≠ .refuse := by rcases hchanges update hupdate with ht | ht <;> simp [ht]
  exact apply_already hread hkind (hheld.removed update hupdate) (hheld.present update hupdate)

/-- Updates that have been merged into the block below a key, at any depth, change nothing. -/
theorem apply_deep_again {existing : List (Value × Value)} {updates : List (Text × Value)} (hreads : L.ReadBy format)
    (hL : L.Locatable names) (hcomments : L.Uncommented) (hmaps : L.Unmapped) (hnames : ∀ other ∈ names, Locatable other)
    (hname : name ∈ names) (hblock : Block L 0 ls (.rows rows)) (hordered : Orderly L ls)
    (htext : Text.closeLine text = render ls) (hexisting : valueUnder? rows (.str name) = some (.map existing))
    (hdesired : Desired (.map (named updates))) (hsuits : SuitsDeep L format keep names existing updates)
    (h : (apply format keep (.str name) (.map (named updates)) text).result = .ok result) :
    (apply format keep (.str name) (.map (named updates)) result).result = .ok result := by
  obtain ⟨-, lead, sections, changed, -, hresult, hchanged, h', hupdated⟩ := apply_updated hreads hL hcomments hmaps hnames hname
    hblock hordered htext hexisting hdesired hsuits h
  rcases hresult with ⟨rfl, -⟩ | rfl
  · exact h
  · obtain ⟨ls', htext', hls'⟩ := h'.rows (marginRows_reading hreads)
    rw [htext']
    exact (hupdated.settles.rests hreads hL h' hchanged hls' htext'.symm).apply_same hreads hL hcomments hnames hname (.refl ls')

/-- An edit of one key of a block mapping: the key is removed, a value is set where no mapping stands, or keys of the
    block mapping below it are set and removed, with some entry that stays if any is removed. So it may go on in the
    blocks below those keys, if every line of the text is orderly. -/
inductive Repeatable (L : Leaves) (format : Format) (keep : Bool) (names : List Text) (name : Text) (ls : List Line)
    (rows : List (Value × Value)) : Value → Prop where
  | remove : Repeatable L format keep names name ls rows .null
  | set {value : Value} :
      value.treatment = .replace ∨ value.treatment = .merge ∧
        (∀ existing, valueUnder? rows (.str name) = some existing → existing.treatment ≠ .merge) →
      WritesRow L format keep name value → Repeatable L format keep names name ls rows value
  | merge {key : Value} {width : Nat} {above inner below : List Line} {upper existing lower : List (Value × Value)}
        {updates : List (Text × Value)} :
      Nest L name key width above inner below upper existing lower → (∀ l ∈ inner.head?, ¬ Skipped l) →
      ls = above ++ ⟨0, name ++ [':']⟩ :: (inner ++ below) → L.Uncommented → Changes L format keep updates existing →
      (∀ u ∈ updates, u.1 ∈ names) → Repeatable L format keep names name ls rows (.map (named updates))
  | deep {existing : List (Value × Value)} {updates : List (Text × Value)} :
      L.Uncommented → L.Unmapped → Orderly L ls → valueUnder? rows (.str name) = some (.map existing) →
      Desired (.map (named updates)) → SuitsDeep L format keep names existing updates →
      Repeatable L format keep names name ls rows (.map (named updates))

/-- An edit of a block mapping at the margin, made again, changes nothing. -/
theorem apply_twice (hreads : L.ReadBy format) (hL : L.Locatable names) (hnames : ∀ other ∈ names, Locatable other)
    (hname : name ∈ names) (hblock : Block L 0 ls (.rows rows)) (hdiffer : Differ rows)
    (htext : Text.closeLine text = render ls) (hedit : Repeatable L format keep names name ls rows value)
    (h : (apply format keep (.str name) value text).result = .ok result) :
    (apply format keep (.str name) value result).result = .ok result := by
  cases hedit with
  | remove =>
    exact apply_row_again hreads hL hnames hname hblock hdiffer htext nofun nofun (fun ht => absurd rfl ht) h
  | set hset hwrites =>
    refine apply_row_again hreads hL hnames hname hblock hdiffer htext ?_ (fun ht => ?_) (fun _ => hwrites) h
    · rcases hset with ht | ⟨ht, -⟩ <;> simp [ht]
    · rcases hset with ht' | ⟨-, hnone⟩
      · rw [ht'] at ht; cases ht
      · exact hnone
  | merge hnest hshown hlines hcomments hchanges hnamed =>
    have hunit := hnest.block.unitWidth hL hnest.ne hnest.right hshown
    rcases hnest.apply_cases hreads hL hcomments hnames hname hchanges hnamed hunit (htext.trans (hlines ▸ rfl)) h with
      ⟨rfl, -⟩ | ⟨inner', merged, hresult, hnest', hmerges, hshown'⟩
    · exact h
    · exact hnest'.apply_held hreads hL hcomments hnames hname (hshown' hshown) hchanges.simple hmerges hresult
  | deep hcomments hmaps hordered hexisting hdesired hsuits =>
    exact apply_deep_again hreads hL hcomments hmaps hnames hname hblock hordered htext hexisting hdesired hsuits h

/-- A key in the block below another key, and one two blocks below. -/
theorem apply_twice_merged_key :
    (apply Format.yaml false (.str ['p']) (.map (named [(['b'], .int 2)])) "p:\n  a: 1\n".toList).result =
      .ok "p:\n  a: 1\n  b: 2\n".toList ∧
    (apply Format.yaml false (.str ['p']) (.map (named [(['b'], .int 2)])) "p:\n  a: 1\n  b: 2\n".toList).result =
      .ok "p:\n  a: 1\n  b: 2\n".toList ∧
    (apply Format.yaml false (.str ['p']) (.map (named [(['a'], .map (named [(['q'], .null)]))]))
      "p:\n  a:\n    q: 1\n    r: 1\n".toList).result = .ok "p:\n  a:\n    r: 1\n".toList ∧
    (apply Format.yaml false (.str ['p']) (.map (named [(['a'], .map (named [(['q'], .null)]))]))
      "p:\n  a:\n    r: 1\n".toList).result = .ok "p:\n  a:\n    r: 1\n".toList := by
  refine ⟨apply_merges_b, ?_, apply_removes_q_below, ?_⟩
  · have htext : Text.closeLine "p:\n  a: 1\n".toList =
        render ([] ++ ⟨0, ['p'] ++ [':']⟩ :: ([⟨2, ['a', ':', ' ', '1']⟩] ++ [])) := rfl
    have hshown : ∀ l ∈ ([⟨2, ['a', ':', ' ', '1']⟩] : List Line).head?, ¬ Skipped l := by simp [Skipped]
    exact apply_twice Leaves.simple_readBy (Leaves.simple_locatable _) locatable_p_b List.mem_cons_self
      nest_p.whole (by simp [Differ]) htext
      (.merge nest_p hshown rfl Leaves.simple_uncommented (updates_b.changes _) (by simp)) apply_merges_b
  · have htext : Text.closeLine "p:\n  a:\n    q: 1\n    r: 1\n".toList =
        render [⟨0, ['p', ':']⟩, ⟨2, ['a', ':']⟩, ⟨4, ['q', ':', ' ', '1']⟩, ⟨4, ['r', ':', ' ', '1']⟩] := rfl
    have hexisting : valueUnder? [(.str ['p'], .map [(.str ['a'], .map [(.str ['q'], .int 1), (.str ['r'], .int 1)])])]
        (.str ['p']) = some (.map [(.str ['a'], .map [(.str ['q'], .int 1), (.str ['r'], .int 1)])]) := by cbv
    exact apply_twice Leaves.plain_readBy (Leaves.plain_locatable _) locatable_p_a_q List.mem_cons_self block_p_a
      (by simp [Differ]) htext (.deep Leaves.plain_uncommented Leaves.plain_unmapped orderly_p_a hexisting desired_q_below
        suitsDeep_q_below) apply_removes_q_below

/-! ## An addition taken back -/

/-- A key that is added at the end of a block mapping, written as it stands, is removed without a trace. -/
theorem apply_taken_back (hreads : L.ReadBy format) (hL : L.Locatable [name]) (hname : Locatable name)
    (hblock : Block L 0 ls (.rows rows)) (hne : rows ≠ []) (hdiffer : Differ rows) (htext : text = render ls)
    (hlast : Text.trailingNewlines text = ['\n']) (habsent : valueUnder? rows (.str name) = none)
    (ht : value.treatment = .replace) (hwrites : WritesRow L format keep name value)
    (hspelled : ∀ line, Render.entry format keep (.str name) value = .ok line → Region.afterColon? name line ≠ none)
    (h : (apply format keep (.str name) value text).result = .ok result) :
    (apply format keep (.str name) .null result).result = .ok text := by
  have hnames : ∀ other ∈ [name], Locatable other := by simpa using hname
  have reading := marginRows_reading hreads
  obtain ⟨lead, sections, hrender, hsectioned, rfl⟩ := hblock.sectioned hL hnames hdiffer
  have hsections : sections ≠ [] := fun hnil => hne (by rw [hnil]; rfl)
  have hends : Text.endsLine text = true := Text.endsLine_of_trailingNewlines (by simp [hlast])
  have hclosed : Text.closeLine text = text := Text.closeLine_of_endsLine hends
  have hwhole : Text.closeLine text = textOf lead sections := by rw [hclosed, htext, hrender]
  have hread := hsectioned.read_map reading hL.legible hsections
  -- the key is found afterwards, whatever the first edit did
  obtain ⟨changed, hresult, hmore, hchanged, hrefines⟩ := apply_sections reading hL.legible hsectioned hsections
    hwhole (by simp) hname.newline (by simp [ht]) (fun _ => hwrites.section hL hnames) h
  have hset : value.treatment ≠ .remove := by simp [ht]
  obtain ⟨found, hfound, -⟩ := hrefines.present hset
  have hafter : format.read result = .ok (.map (rowsOf changed)) := by
    rcases hresult with ⟨rfl, rfl⟩ | rfl
    · rw [habsent] at hfound
      cases hfound
    · exact hchanged.read_map reading hL.legible (hmore hset)
  -- and the first edit added it
  cases outcome_of_apply h with
  | nothing _ ht' => rw [ht] at ht'; cases ht'
  | filled _ hnull _ _ => rw [hwhole, hread] at hnull; cases hnull
  | removed _ _ _ _ ht' _ _ => rw [ht] at ht'; cases ht'
  | unchanged _ _ hentries _ hexisting _ | replaced _ _ _ _ hentries _ hexisting _ _ _
  | merged _ _ _ _ _ hentries _ _ hexisting _ _ _ =>
    rw [hwhole, hread] at hentries
    cases hentries
    rw [habsent] at hexisting
    cases hexisting
  | appended entries addition _ _ _ hadd =>
    obtain ⟨front, hfront, -, happend⟩ := append_closed hends addition
    rw [hlast, List.tail_cons, List.append_nil] at hfront happend
    obtain rfl := hfront
    rw [hclosed, happend] at hafter ⊢
    obtain ⟨row, hsound, -, -, -, -⟩ := hwrites.section hL hnames addition (Or.inl hadd)
    obtain ⟨rest, hline⟩ := Option.ne_none_iff_exists'.mp (hspelled addition hadd)
    have hnone : Region.ofKey? name text = none := by
      rw [htext, hrender]
      exact hsectioned.not_located List.mem_cons_self hname.newline fun s hs =>
        valueUnder?_eq_none_iff.mp habsent s.row (List.mem_map_of_mem hs)
    exact apply_remove_added hname.newline hends hnone hsound.one hsound.endsLine hline hafter hfound

/-- A second key, added below the first. -/
theorem apply_adds_b : (apply Format.yaml false (.str ['b']) (.str ['y']) "a: 1\n".toList).result =
    .ok "a: 1\nb: y\n".toList := by
  have hread : Format.yaml.read (Text.closeLine "a: 1\n".toList) = .ok (.map [(.str ['a'], .int 1)]) := by cbv
  have habsent : valueUnder? [(.str ['a'], .int 1)] (.str ['b']) = none := by cbv
  have hentry : Render.entry Format.yaml false (.str ['b']) (.str ['y']) = .ok "b: y\n".toList := rfl
  exact (Outcome.appended _ _ hread (Or.inl rfl) habsent hentry).apply_eq_ok

theorem block_a : Block Leaves.simple 0 [⟨0, ['a', ':', ' ', '1']⟩] (.rows [(.str ['a'], .int 1)]) :=
  .charRow Leaves.plain_within (c := 'a') (d := '1') (by decide) (by decide) rfl rfl (.noRows 0)

theorem apply_taken_back_added_key :
    (apply Format.yaml false (.str ['b']) (.str ['y']) "a: 1\n".toList).result = .ok "a: 1\nb: y\n".toList ∧
    (apply Format.yaml false (.str ['b']) .null "a: 1\nb: y\n".toList).result = .ok "a: 1\n".toList := by
  have htext : "a: 1\n".toList = render [⟨0, ['a', ':', ' ', '1']⟩] := rfl
  have habsent : valueUnder? [(.str ['a'], .int 1)] (.str ['b']) = none := by cbv
  exact ⟨apply_adds_b, apply_taken_back Leaves.simple_readBy (Leaves.simple_locatable _) locatable_b block_a (by simp)
    (by simp [Differ]) htext rfl habsent rfl (writable_y.writesRow isWrittenKey_b (.scalar rfl (same_of_isPlainKey rfl)))
    (writable_y.spelled isWrittenKey_b) apply_adds_b⟩

/-! ## Exceptions -/

/-- Where the last key of a block is removed, the key above it holds the absent value. The same edit then replaces
    that value, and the key that was removed comes back. -/
theorem removed_below_comes_back :
    (apply Format.yaml false (.str ['p']) (.map [(.str ['q'], .null)]) "p:\n  q: 1\n".toList).result =
      .ok "p:\n\n".toList ∧
    (apply Format.yaml false (.str ['p']) (.map [(.str ['q'], .null)]) "p:\n\n".toList).result =
      .ok "p:\n  q: null\n".toList := by
  constructor
  · have hread : Format.yaml.read (Text.closeLine "p:\n  q: 1\n".toList) =
        .ok (.map [(.str ['p'], .map [(.str ['q'], .int 1)])]) := by cbv
    have hreadBlock : Format.yaml.read (Text.closeLine "q: 1\n".toList) = .ok (.map [(.str ['q'], .int 1)]) := by cbv
    have hfoundBlock : valueUnder? [(.str ['q'], .int 1)] (.str ['q']) = some (.int 1) := by cbv
    have hregionBlock : Region.ofKey? ['q'] (Text.closeLine "q: 1\n".toList) = some ⟨0, 5, [], " 1\n".toList⟩ := rfl
    have hremoved : (apply Format.yaml false (.str ['q']) .null "q: 1\n".toList).result = .ok [] :=
      (Outcome.removed _ _ _ hreadBlock rfl hfoundBlock hregionBlock).apply_eq_ok
    have hall : (applyAll Format.yaml false [(.str ['q'], .null)] "q: 1\n".toList).result = .ok [] := by
      rw [applyAll_cons]
      exact Run.bind_eq_ok.mpr ⟨_, hremoved, rfl⟩
    have hblock : (Margin.change ['p'] "  q: 1\n".toList (applyAll Format.yaml false [(.str ['q'], .null)])).result =
        .ok "\n".toList :=
      Run.bind_eq_ok.mpr ⟨[' ', ' '], rfl, Run.bind_eq_ok.mpr ⟨(), rfl, Run.bind_eq_ok.mpr ⟨_, hall, rfl⟩⟩⟩
    have hfound : valueUnder? [(.str ['p'], .map [(.str ['q'], .int 1)])] (.str ['p']) =
        some (.map [(.str ['q'], .int 1)]) := by cbv
    have hdiffers : agrees (.map [(.str ['q'], .int 1)]) (.map [(.str ['q'], .null)]) = false := by cbv
    have hregion : Region.ofKey? ['p'] (Text.closeLine "p:\n  q: 1\n".toList) = some ⟨0, 10, [], "  q: 1\n".toList⟩ :=
      rfl
    exact (Outcome.merged _ _ _ _ _ hread rfl rfl hfound hdiffers hregion hblock).apply_eq_ok
  · have hread : Format.yaml.read (Text.closeLine "p:\n\n".toList) = .ok (.map [(.str ['p'], .null)]) := by cbv
    have hfound : valueUnder? [(.str ['p'], .null)] (.str ['p']) = some .null := by cbv
    have hdiffers : agrees .null (.map [(.str ['q'], .null)]) = false := by cbv
    have hregion : Region.ofKey? ['p'] (Text.closeLine "p:\n\n".toList) = some ⟨0, 4, [], "\n".toList⟩ := rfl
    have hentry : Render.entryKeepingKey Format.yaml false ['p'] (.map [(.str ['q'], .null)]) =
        .ok "p:\n  q: null\n".toList := rfl
    exact (Outcome.replaced _ _ _ _ hread (Or.inr ⟨rfl, Or.inr rfl⟩) hfound hdiffers hregion hentry).apply_eq_ok

/-- The line of a longer key, with a colon in it, is taken for the line of the key that was added. -/
theorem removed_line_of_longer_key :
    (apply Format.yaml false (.str ['k']) (.int 2) "k:x: 1\n".toList).result = .ok "k:x: 1\nk: 2\n".toList ∧
    (apply Format.yaml false (.str ['k']) .null "k:x: 1\nk: 2\n".toList).result = .ok "k: 2\n".toList := by
  constructor
  · have hread : Format.yaml.read (Text.closeLine "k:x: 1\n".toList) = .ok (.map [(.str "k:x".toList, .int 1)]) := by cbv
    have habsent : valueUnder? [(.str "k:x".toList, .int 1)] (.str ['k']) = none := by cbv
    have hentry : Render.entry Format.yaml false (.str ['k']) (.int 2) = .ok "k: 2\n".toList := rfl
    exact (Outcome.appended _ _ hread (Or.inl rfl) habsent hentry).apply_eq_ok
  · have hread : Format.yaml.read (Text.closeLine "k:x: 1\nk: 2\n".toList) =
        .ok (.map [(.str "k:x".toList, .int 1), (.str ['k'], .int 2)]) := by cbv
    have hfound : valueUnder? [(.str "k:x".toList, .int 1), (.str ['k'], .int 2)] (.str ['k']) = some (.int 2) := by cbv
    have hregion : Region.ofKey? ['k'] (Text.closeLine "k:x: 1\nk: 2\n".toList) = some ⟨0, 7, [], "x: 1\n".toList⟩ := rfl
    exact (Outcome.removed _ _ _ hread rfl hfound hregion).apply_eq_ok

end Layout
end YamlSplice
