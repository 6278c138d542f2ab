/-
  YamlSplice.Proofs.Edit.Layout — block layouts are cut into the sections of their rows.

  A row of a block mapping at the margin starts on a line of its own, and its further lines continue
  it, so that the region of its key ends where the next row starts. Lines without content belong to the
  row above them.
  - `Block.trim`: lines without content at the end of a block may be left out.
  - `Block.chunks`: the lines of the rows one by one.
  - `Block.sectioned`: if the keys can be located, these are sections.
-/

import YamlSplice.Proofs.Edit.Sections
import YamlSplice.Proofs.Reading.Layout

namespace YamlSplice.Layout

/-- The keys that leaves have. -/
def Leaves.Keys (L : Leaves) (key : Value) : Prop := ∃ name, L.Key name key

/-- Leaves among which the names can be located: a key starts a row but continues none, it holds no
    colon, and if it is one of the names it reads as it stands. No scalar keeps the blank lines at its end. -/
structure Leaves.Locatable (L : Leaves) (names : List Text) : Prop where
  tidy : L.Tidy
  starts {name : Text} {key : Value} (rest : Text) : L.Key name key → (name ++ ':' :: rest).startsRow = true
  fresh {name : Text} {key : Value} : L.Key name key → ∀ c ∈ name.head?, Region.continues c = false
  colon {name : Text} {key : Value} : L.Key name key → ':' ∉ name
  bare {name : Text} {key : Value} : L.Key name key → ∀ c ∈ name.getLast?, Text.isInlineBlank c = false
  text {name : Text} {key : Value} : name ∈ names → L.Key name key → Value.keyText key = name
  legible : Edit.Legible L.Keys
  ended {first : Text} {more : List Text} {value : Value} :
    L.Scalar first more value → ∀ last ∈ more.getLast?, last ≠ []

/-- Names that can be located among leaves can be located among some of these. -/
theorem Leaves.Locatable.within {L M : Leaves} {names : List Text} (hLM : L.Within M) (h : M.Locatable names) :
    L.Locatable names where
  tidy := ⟨fun hkey => h.tidy.key (hLM.key hkey), fun hscalar => h.tidy.first (hLM.scalar hscalar),
    fun hscalar => h.tidy.more (hLM.scalar hscalar)⟩
  starts rest hkey := h.starts rest (hLM.key hkey)
  fresh hkey := h.fresh (hLM.key hkey)
  colon hkey := h.colon (hLM.key hkey)
  bare hkey := h.bare (hLM.key hkey)
  text hname hkey := h.text hname (hLM.key hkey)
  legible a b ha hb := h.legible a b (ha.imp fun _ => hLM.key) (hb.imp fun _ => hLM.key)
  ended hscalar := h.ended (hLM.scalar hscalar)

/-! ## Lines that continue a row -/

/-- The line continues the row above it. -/
def Line.Continues (l : Line) : Prop := ∀ c ∈ l.render.head?, Region.continues c = true

theorem continues_of_indent {l : Line} (h : 0 < l.indent) : l.Continues := by
  obtain ⟨n, hn⟩ : ∃ n, l.indent = n + 1 := ⟨l.indent - 1, by omega⟩
  intro c hc
  obtain rfl : c = ' ' := by
    simpa [Line.render, Line.content, hn, List.replicate_succ, eq_comm] using hc
  rfl

theorem continues_of_head {l : Line} (h : ∀ c ∈ (l.text ++ ['\n']).head?, Region.continues c = true) : l.Continues := by
  cases hn : l.indent with
  | zero =>
    intro c hc
    exact h c (by simpa [Line.render, Line.content, hn] using hc)
  | succ n => exact continues_of_indent (by omega)

theorem Skipped.continues {l : Line} (h : Skipped l) : l.Continues := by
  refine continues_of_head ?_
  rcases h with h | ⟨comment, h, -⟩
  · simp [h, Region.continues]
  · simp [h, Region.continues]

/-- The further lines of a scalar continue its row. -/
theorem Hung.continues {column : Nat} {hung : List Line} {more : List Text} (h : Hung column hung more) :
    ∀ l ∈ hung, l.Continues := fun l hl => by
  rcases h.2 l hl with hempty | hindent
  · exact Skipped.continues (Or.inl hempty)
  · exact continues_of_indent (by omega)

variable {L : Leaves} {names : List Text}

/-- All lines of a collection below a key continue the row of the key. -/
theorem Block.continues {column : Nat} {ls : List Line} {parts : Parts} (h : Block L column ls parts)
    (hbelow : parts.Below 0 column) : ∀ l ∈ ls, l.Continues := by
  induction h with
  | noRows | noItems => simp
  | skip hskipped _ ih => exact List.forall_mem_cons.mpr ⟨hskipped.continues, ih hbelow⟩
  | scalarRow _ hscalar hhung _ ih =>
    exact List.forall_mem_cons.mpr ⟨continues_of_indent hbelow,
      List.forall_mem_append.mpr ⟨hhung.continues, ih hbelow⟩⟩
  | @innerRow column inner name key parts block ls rows _ _ hparts _ _ ihblock ih =>
    refine List.forall_mem_cons.mpr ⟨continues_of_indent hbelow, List.forall_mem_append.mpr ⟨ihblock ?_, ih hbelow⟩⟩
    cases parts with
    | rows => exact Nat.lt_of_le_of_lt (Nat.zero_le _) hparts
    | items => exact Nat.zero_le _
  | scalarItem hscalar hhung _ ih =>
    exact List.forall_mem_cons.mpr ⟨continues_of_head (by simp [Region.continues]),
      List.forall_mem_append.mpr ⟨hhung.continues, ih hbelow⟩⟩
  | @innerItem column first parts block ls values _ _ _ _ ihblock ih =>
    have hinner : parts.Below 0 (column + 2) := by cases parts <;> simp [Parts.Below]
    exact List.forall_mem_cons.mpr ⟨continues_of_head (by simp [Region.continues]),
      List.forall_mem_append.mpr ⟨(List.forall_mem_cons.mp (ihblock hinner)).2, ih hbelow⟩⟩

/-! ## Lines without content at the end -/

/-- The last line is not empty. -/
def EndsShown (ls : List Line) : Prop := ∀ last ∈ ls.getLast?, last ≠ ⟨0, []⟩

theorem endsShown_append {ls more : List Line} (hmore : EndsShown more) (hne : more ≠ []) : EndsShown (ls ++ more) := by
  intro last hlast
  rw [List.getLast?_append, List.getLast?_eq_some_getLast hne, Option.some_or] at hlast
  exact hmore last (by rwa [List.getLast?_eq_some_getLast hne])

theorem EndsShown.append {ls more : List Line} (h : EndsShown ls) (hmore : EndsShown more) : EndsShown (ls ++ more) := by
  cases more with
  | nil => rwa [List.append_nil]
  | cons l more => exact endsShown_append hmore (by simp)

theorem endsShown_hung (hL : L.Locatable names) {first : Text} {more : List Text} {value : Value} {column : Nat}
    {hung : List Line} {l : Line} (hl : l.text ≠ []) (hscalar : L.Scalar first more value)
    (hhung : Hung column hung more) : EndsShown (l :: hung) := by
  intro last hlast
  cases hung with
  | nil =>
    obtain rfl : l = last := by simpa using hlast
    exact fun hempty => hl (by rw [hempty])
  | cons next hung =>
    have hmem : last.text ∈ more.getLast? := by
      rw [← hhung.1, List.getLast?_map]
      exact Option.mem_map_of_mem _ (by simpa using hlast)
    exact fun hempty => hL.ended hscalar _ hmem (by rw [hempty])

/-- A block of parts has a line. -/
theorem Block.ne_nil {column : Nat} {ls : List Line} {parts : Parts} (h : Block L column ls parts)
    (hne : parts.isEmpty = false) : ls ≠ [] := by
  cases h with
  | noRows | noItems => cases hne
  | skip | scalarRow | innerRow | scalarItem | innerItem => simp

/-- Lines without content at the end of a block may be left out. -/
theorem Block.trim (hL : L.Locatable names) {column : Nat} {ls : List Line} {parts : Parts} (h : Block L column ls parts) :
    ∃ own skips, ls = own ++ skips ∧ (∀ l ∈ skips, Skipped l) ∧ Block L column own parts ∧ EndsShown own := by
  induction h with
  | noRows column => exact ⟨[], [], rfl, by simp, .noRows column, by simp [EndsShown]⟩
  | noItems column => exact ⟨[], [], rfl, by simp, .noItems column, by simp [EndsShown]⟩
  | @skip column l ls parts hskipped _ ih =>
    obtain ⟨own, skips, rfl, hskips, hblock, hends⟩ := ih
    cases own with
    | nil => exact ⟨[], l :: skips, rfl, List.forall_mem_cons.mpr ⟨hskipped, hskips⟩, hblock, by simp [EndsShown]⟩
    | cons o own =>
      exact ⟨[l] ++ o :: own, skips, rfl, hskips, .skip hskipped hblock, endsShown_append hends (by simp)⟩
  | @scalarRow column name first more key value hung ls rows hkey hscalar hhung _ ih =>
    obtain ⟨own, skips, rfl, hskips, hblock, hends⟩ := ih
    exact ⟨(⟨column, name ++ ':' :: ' ' :: first⟩ :: hung) ++ own, skips, by simp, hskips,
      .scalarRow hkey hscalar hhung hblock, (endsShown_hung hL (by simp) hscalar hhung).append hends⟩
  | @innerRow column inner name key parts block ls rows hkey hne hbelow hblock _ ihblock ih =>
    obtain ⟨own, skips, rfl, hskips, hown, hends⟩ := ih
    cases own with
    | nil =>
      obtain ⟨front, back, rfl, hback, hfront, hends⟩ := ihblock
      refine ⟨[⟨column, name ++ [':']⟩] ++ (front ++ []), back ++ skips, by simp,
        List.forall_mem_append.mpr ⟨hback, hskips⟩, .innerRow hkey hne hbelow hfront hown, ?_⟩
      rw [List.append_nil]
      exact endsShown_append hends (hfront.ne_nil hne)
    | cons o own =>
      refine ⟨(⟨column, name ++ [':']⟩ :: block) ++ o :: own, skips, by simp, hskips,
        .innerRow hkey hne hbelow hblock hown, endsShown_append hends (by simp)⟩
  | @scalarItem column first more value hung ls values hscalar hhung _ ih =>
    obtain ⟨own, skips, rfl, hskips, hblock, hends⟩ := ih
    exact ⟨(⟨column, '-' :: ' ' :: first⟩ :: hung) ++ own, skips, by simp, hskips,
      .scalarItem hscalar hhung hblock, (endsShown_hung hL (by simp) hscalar hhung).append hends⟩
  | @innerItem column first parts block ls values hfirst hne hblock _ ihblock ih =>
    obtain ⟨own, skips, rfl, hskips, hown, hends⟩ := ih
    cases own with
    | nil =>
      obtain ⟨front, back, hlines, hback, hfront, hends⟩ := ihblock
      obtain ⟨front, rfl⟩ : ∃ rest, front = ⟨column + 2, first⟩ :: rest := by
        cases front with
        | nil => exact absurd rfl (hfront.ne_nil hne)
        | cons l front => exact ⟨front, by rw [(List.cons.inj hlines).1]⟩
      obtain rfl : block = front ++ back := (List.cons.inj hlines).2
      refine ⟨⟨column, '-' :: ' ' :: first⟩ :: (front ++ []), back ++ skips, by simp,
        List.forall_mem_append.mpr ⟨hback, hskips⟩, .innerItem hfirst hne hfront hown, ?_⟩
      rw [List.append_nil]
      cases front with
      | nil => simp [EndsShown]
      | cons l front =>
        have hlast : EndsShown (l :: front) := fun last hlast => hends last (by simpa using hlast)
        exact @endsShown_append [_] _ hlast (by simp)
    | cons o own =>
      refine ⟨(⟨column, '-' :: ' ' :: first⟩ :: block) ++ o :: own, skips, by simp, hskips,
        .innerItem hfirst hne hblock hown, endsShown_append hends (by simp)⟩

/-! ## Rows one by one -/

/-- The lines of one row at the margin, up to the lines without content below it. -/
structure RowLines (L : Leaves) (own : List Line) (row : Value × Value) : Prop where
  head : ∃ name rest more, own = ⟨0, name ++ ':' :: rest⟩ :: more ∧ L.Key name row.1 ∧ ∀ l ∈ more, l.Continues
  rows : ∀ skips, (∀ l ∈ skips, Skipped l) → Block L 0 (own ++ skips) (.rows [row])
  shown : EndsShown own

theorem block_of_skipped {column : Nat} {skips : List Line} (h : ∀ l ∈ skips, Skipped l) :
    Block L column skips (.rows []) := by
  induction skips with
  | nil => exact .noRows column
  | cons l skips ih =>
    obtain ⟨hl, hskips⟩ := List.forall_mem_cons.mp h
    exact .skip hl (ih hskips)

/-- The lines of the rows, each with those without content below it, behind those above the first row. -/
theorem Block.chunks (hL : L.Locatable names) {ls : List Line} {rows : List (Value × Value)} (h : Block L 0 ls (.rows rows)) :
    ∃ (lead : List Line) (chunks : List (List Line × List Line)),
      ls = lead ++ chunks.flatMap (fun c => c.1 ++ c.2) ∧ (∀ l ∈ lead, Skipped l) ∧
        List.Forall₂ (fun c row => RowLines L c.1 row ∧ ∀ l ∈ c.2, Skipped l) chunks rows := by
  generalize hcolumn : 0 = column at h
  generalize hparts : Parts.rows rows = parts at h
  induction h generalizing rows with
  | noRows => cases hparts; exact ⟨[], [], rfl, by simp, .nil⟩
  | noItems | scalarItem | innerItem => cases hparts
  | @skip column l ls parts hskipped _ ih =>
    obtain ⟨lead, chunks, rfl, hlead, hchunks⟩ := ih hcolumn hparts
    exact ⟨l :: lead, chunks, rfl, List.forall_mem_cons.mpr ⟨hskipped, hlead⟩, hchunks⟩
  | @scalarRow column name first more key value hung ls rows hkey hscalar hhung _ ih =>
    cases hparts
    subst hcolumn
    obtain ⟨lead, chunks, rfl, hlead, hchunks⟩ := ih rfl rfl
    refine ⟨[], (⟨0, name ++ ':' :: ' ' :: first⟩ :: hung, lead) :: chunks, by simp, by simp, .cons ⟨⟨?_, ?_, ?_⟩, hlead⟩ hchunks⟩
    · exact ⟨name, ' ' :: first, hung, rfl, hkey, hhung.continues⟩
    · exact fun skips hskips => .scalarRow hkey hscalar hhung (block_of_skipped hskips)
    · exact endsShown_hung hL (by simp) hscalar hhung
  | @innerRow column inner name key parts block ls rows hkey hne hbelow hblock _ _ ih =>
    cases hparts
    subst hcolumn
    obtain ⟨lead, chunks, rfl, hlead, hchunks⟩ := ih rfl rfl
    obtain ⟨front, back, rfl, hback, hfront, hends⟩ := hblock.trim hL
    refine ⟨[], (⟨0, name ++ [':']⟩ :: front, back ++ lead) :: chunks, by simp, by simp,
      .cons ⟨⟨?_, ?_, ?_⟩, List.forall_mem_append.mpr ⟨hback, hlead⟩⟩ hchunks⟩
    · exact ⟨name, [], front, rfl, hkey, hfront.continues hbelow⟩
    · exact fun skips hskips => .innerRow hkey hne hbelow hfront (block_of_skipped hskips)
    · exact @endsShown_append [_] _ hends (hfront.ne_nil hne)

/-! ## Key lines -/

/-- A name by which keys are located: it starts on a line of its own, and up to the first colon. -/
structure Locatable (name : Text) : Prop where
  head : ∃ c rest, name = c :: rest ∧ Region.continues c = false
  colon : ':' ∉ name
  newline : '\n' ∉ name

/-- Names of one character. -/
theorem locatable_char {c : Char} (hfresh : Region.continues c = false) (hcolon : c ≠ ':') : Locatable [c] where
  head := ⟨c, [], rfl, hfresh⟩
  colon hmem := hcolon (List.mem_singleton.mp hmem).symm
  newline hmem := by
    rw [← List.mem_singleton.mp hmem] at hfresh
    cases hfresh

theorem afterColon?_key (name rest : Text) : Region.afterColon? name (name ++ ':' :: rest) = some rest := by
  have hcolon : Text.isInlineBlank ':' = false := by decide
  simp [Region.afterColon?, Text.after?_eq_some_iff.mpr rfl, hcolon]

theorem eq_of_append_colon {name other rest more : Text} (hname : ':' ∉ name) (hother : ':' ∉ other)
    (h : name ++ ':' :: rest = other ++ ':' :: more) : name = other := by
  have htake : ∀ {text tail : Text}, ':' ∉ text → (text ++ ':' :: tail).takeWhile (· != ':') = text := by
    intro text tail htext
    rw [List.takeWhile_append_of_pos fun c hc => by simpa using fun hsame : c = ':' => htext (hsame ▸ hc)]
    simp
  rw [← htake hname, h, htake hother]

/-- A key line is one of a single name. -/
theorem afterColon?_other {name other rest : Text} (hcolon : ':' ∉ name)
    (hbare : ∀ c ∈ name.getLast?, Text.isInlineBlank c = false) (hother : Locatable other) (hne : other ≠ name) :
    Region.afterColon? other (name ++ ':' :: rest) = none := by
  cases hafter : Region.afterColon? other (name ++ ':' :: rest) with
  | none => rfl
  | some more =>
    obtain ⟨blanks, hblanks, heq⟩ := Region.afterColon?_eq_some hafter
    have hblank := List.all_eq_true.mp hblanks
    have hnot : ':' ∉ other ++ blanks := fun hmem => by
      rcases List.mem_append.mp hmem with hmem | hmem
      · exact hother.colon hmem
      · have := hblank _ hmem
        revert this
        decide
    obtain rfl := eq_of_append_colon hcolon hnot heq
    rcases List.eq_nil_or_concat blanks with rfl | ⟨front, last, rfl⟩
    · simp at hne
    · have hlast := hblank last (by simp)
      rw [hbare last (by simp [← List.append_assoc])] at hlast
      cases hlast

theorem afterColon?_continues {text name : Text} (hname : Locatable name)
    (h : ∀ c ∈ text.head?, Region.continues c = true) : Region.afterColon? name text = none := by
  cases hafter : Region.afterColon? name text with
  | none => rfl
  | some more =>
    obtain ⟨blanks, -, rfl⟩ := Region.afterColon?_eq_some hafter
    obtain ⟨c, rest, rfl, hc⟩ := hname.head
    rw [h c (by simp)] at hc
    cases hc

theorem findFrom_line {name text : Text} {start : Nat} (hne : name ≠ []) (h : '\n' ∉ text) :
    Region.findFrom name start (text ++ ['\n']) = none := by
  obtain ⟨c, rest, rfl⟩ := List.exists_cons_of_ne_nil hne
  induction text generalizing start with
  | nil => rfl
  | cons d text ih =>
    rw [List.mem_cons, not_or] at h
    rw [List.cons_append, Region.findFrom_cons (Ne.symm h.1)]
    exact ih h.2

theorem Line.endsLine_render (l : Line) : Text.endsLine l.render = true := by simp [Line.render, Text.endsLine]

/-- A text of lines none of which is a key line. -/
theorem ofKey?_render_none {ls : List Line} {name : Text} (hname : Locatable name)
    (htidy : ∀ l ∈ ls, Layout.Tidy l.text) (h : ∀ l ∈ ls, Region.afterColon? name l.render = none) :
    Region.ofKey? name (render ls) = none := by
  have hne : name ≠ [] := by
    obtain ⟨c, rest, rfl, -⟩ := hname.head
    simp
  induction ls with
  | nil => exact Region.ofKey?_newlines hname.newline 0
  | cons l ls ih =>
    obtain ⟨hl, hls⟩ := List.forall_mem_cons.mp h
    obtain ⟨hltidy, hlstidy⟩ := List.forall_mem_cons.mp htidy
    have hline : Region.ofKey? name l.render = none :=
      Region.ofKey?_eq_none_iff.mpr ⟨hl, findFrom_line hne (Line.newline_not_mem hltidy)⟩
    exact Region.ofKey?_append_none hname.newline hline l.endsLine_render (ih hlstidy hls)

theorem whole_line {text : Text} (h : '\n' ∉ text) : Region.Whole (text ++ ['\n']) := by
  induction text with
  | nil => rfl
  | cons c text ih =>
    rw [List.mem_cons, not_or] at h
    rw [Region.Whole, List.cons_append, Region.takeValue_cons (Ne.symm h.1), ih h.2]

/-- Lines that continue the first are one whole with it. -/
theorem whole_render {first : Line} {more : List Line} (htidy : ∀ l ∈ first :: more, Layout.Tidy l.text)
    (hmore : ∀ l ∈ more, l.Continues) : Region.Whole (render (first :: more)) := by
  induction more generalizing first with
  | nil =>
    have hline : render [first] = first.render := by simp [render]
    rw [hline]
    exact whole_line (Line.newline_not_mem (htidy first (by simp)))
  | cons next more ih =>
    obtain ⟨hfirst, hrest⟩ := List.forall_mem_cons.mp htidy
    obtain ⟨hnext, hmore⟩ := List.forall_mem_cons.mp hmore
    refine Region.Whole.append (whole_line (Line.newline_not_mem hfirst)) first.endsLine_render (ih hrest hmore) ?_
    intro c hc
    refine hnext c ?_
    cases hrender : next.render with
    | nil => simp [Line.render] at hrender
    | cons d rest => simpa [render, hrender] using hc

theorem trailingNewlines_line {text : Text} (h : '\n' ∉ text) (hne : text ≠ []) :
    Text.trailingNewlines (text ++ ['\n']) = ['\n'] := by
  obtain ⟨front, last, rfl⟩ := (List.eq_nil_or_concat text).resolve_left hne
  have hlast : last ≠ '\n' := fun hsame => h (by simp [hsame])
  simp [Text.trailingNewlines, hlast]

/-- A text the last line of which is not empty ends with a single newline. -/
theorem trailingNewlines_render {ls : List Line} (htidy : ∀ l ∈ ls, Layout.Tidy l.text) (hne : ls ≠ [])
    (hshown : EndsShown ls) : Text.trailingNewlines (render ls) = ['\n'] := by
  obtain ⟨front, last, rfl⟩ := (List.eq_nil_or_concat ls).resolve_left hne
  rw [List.concat_eq_append] at *
  have hlast := hshown last (by simp)
  have htidy := htidy last (by simp)
  have hne : last.content ≠ [] := by
    intro hnil
    rw [Line.content, List.append_eq_nil_iff, List.replicate_eq_nil_iff] at hnil
    exact hlast (by cases last; simp_all)
  have hline := trailingNewlines_line (Line.newline_not_mem htidy) hne
  obtain ⟨c, rest, hc⟩ := List.exists_cons_of_ne_nil hne
  have hcn : c ≠ '\n' := fun hsame => Line.newline_not_mem htidy (by rw [hc, hsame]; simp)
  have hrender : render (front ++ [last]) = render front ++ (last.content ++ ['\n']) := by simp [render, Line.render]
  rw [hrender, Text.trailingNewlines_append (c := c) (by rw [hc]; simp) hcn, hline]

/-- The empty lines at the end of lines. -/
theorem exists_blankLines (ls : List Line) :
    ∃ front n, ls = front ++ List.replicate n ⟨0, []⟩ ∧ EndsShown front := by
  induction ls using List.reverseRecOn with
  | nil => exact ⟨[], 0, rfl, by simp [EndsShown]⟩
  | append_singleton ls last ih =>
    by_cases hlast : last = ⟨0, []⟩
    · obtain ⟨front, n, rfl, hfront⟩ := ih
      exact ⟨front, n + 1, by rw [hlast, List.replicate_succ', List.append_assoc], hfront⟩
    · exact ⟨ls ++ [last], 0, by simp, by simpa [EndsShown] using hlast⟩

theorem render_replicate (n : Nat) : render (List.replicate n ⟨0, []⟩) = List.replicate n '\n' := by
  induction n with
  | zero => rfl
  | succ n ih => rw [List.replicate_succ, List.replicate_succ, ← ih]; rfl

/-! ## Sections -/

open Edit

theorem render_append_newlines (ls : List Line) (n : Nat) :
    render (ls ++ List.replicate n ⟨0, []⟩) = render ls ++ List.replicate n '\n' := by
  rw [render_append, render_replicate]

/-- The key line of a row, and the lines that continue it. -/
theorem RowLines.cons (hL : L.Locatable names) {own : List Line} {row : Value × Value} (h : RowLines L own row) :
    ∃ name rest more, own = ⟨0, name ++ ':' :: rest⟩ :: more ∧ L.Key name row.1 ∧ (∀ l ∈ more, l.Continues) ∧
      ∀ l ∈ own, Layout.Tidy l.text := by
  obtain ⟨name, rest, more, rfl, hkey, hmore⟩ := h.head
  have htidy := (h.rows [] (by simp)).tidy hL.tidy
  rw [List.append_nil] at htidy
  exact ⟨name, rest, more, rfl, hkey, hmore, htidy⟩

/-- Lines without content count to the row above them. -/
theorem RowLines.append {own skips : List Line} {row : Value × Value} (h : RowLines L own row)
    (hskips : ∀ l ∈ skips, Skipped l) (hshown : EndsShown skips) : RowLines L (own ++ skips) row := by
  obtain ⟨name, rest, more, hown, hkey, hmore⟩ := h.head
  refine ⟨⟨name, rest, more ++ skips, by rw [hown]; rfl, hkey, ?_⟩, fun more hmore => ?_, ?_⟩
  · exact List.forall_mem_append.mpr ⟨hmore, fun l hl => (hskips l hl).continues⟩
  · rw [List.append_assoc]
    exact h.rows _ (List.forall_mem_append.mpr ⟨hskips, hmore⟩)
  · cases skips with
    | nil => simpa using h.shown
    | cons l skips => exact endsShown_append hshown (by simp)

/-- The lines of a row are a section, and so they are with empty lines below them. -/
theorem RowLines.section (hL : L.Locatable names) (hnames : ∀ name ∈ names, Locatable name) {own : List Line}
    {row : Value × Value} (h : RowLines L own row) (n : Nat) :
    Section.Sound (marginRows L) ⟨render own, n, row⟩ ∧ ∀ name ∈ names, Section.Shows name ⟨render own, n, row⟩ := by
  obtain ⟨name, rest, more, hown, hkey, hmore, htidy⟩ := h.cons hL
  have htext : render own = name ++ ':' :: (rest ++ '\n' :: render more) := by
    rw [hown, render_cons]
    simp
  refine ⟨⟨fun m => ⟨own ++ List.replicate m ⟨0, []⟩, (render_append_newlines own m).symm, h.rows _ fun l hl => ?_⟩,
    ?_, ?_, ?_, ?_⟩, fun other hother => ⟨fun hfound => ?_, fun hnone => ?_⟩⟩
  · rw [List.eq_of_mem_replicate hl]
    exact Or.inl rfl
  · simp only [htext]
    exact hL.starts _ hkey
  · intro c hc
    refine hL.fresh hkey c ?_
    obtain ⟨d, tail, rfl⟩ := List.exists_cons_of_ne_nil (hL.tidy.key hkey).2
    simpa [htext] using hc
  · simp only [hown]
    exact whole_render (hown ▸ htidy) hmore
  · exact trailingNewlines_render htidy (by simp [hown]) h.shown
  · have hsame : other = name := by
      by_contra hne
      refine hfound ?_
      simp only [htext]
      exact afterColon?_other (hL.colon hkey) (hL.bare hkey) (hnames other hother) hne
    rw [Value.isCalled_str_iff, hL.text (hsame ▸ hother) hkey, hsame]
  · refine ofKey?_render_none (hnames other hother) htidy ?_
    rw [hown]
    refine List.forall_mem_cons.mpr ⟨?_, fun l hl => afterColon?_continues (hnames other hother) (hmore l hl)⟩
    have hne : other ≠ name := by
      rintro rfl
      simp only [htext, afterColon?_key] at hnone
      cases hnone
    simpa [Line.render, Line.content] using afterColon?_other (hL.colon hkey) (hL.bare hkey) (hnames other hother) hne

/-- Rows whose keys differ to the eye. -/
def Differ (rows : List (Value × Value)) : Prop :=
  rows.Pairwise fun a b => Value.keyText a.1 ≠ Value.keyText b.1

/-- The section is the lines of its row, and these are among the lines of the text. -/
def Laid (L : Leaves) (ls : List Line) (s : Section) : Prop :=
  ∃ own, s.text = render own ∧ RowLines L own s.row ∧ own ++ List.replicate s.blankLines ⟨0, []⟩ <:+: ls

theorem Laid.mono {ls more : List Line} {s : Section} (h : Laid L ls s) (hmore : ls <:+: more) : Laid L more s := by
  obtain ⟨own, htext, hown, hlines⟩ := h
  exact ⟨own, htext, hown, hlines.trans hmore⟩

/-- The rows of a block mapping at the margin are sections made of its lines, if their keys differ. -/
theorem Block.sectioned_laid (hL : L.Locatable names) (hnames : ∀ name ∈ names, Locatable name)
    {ls : List Line} {rows : List (Value × Value)} (h : Block L 0 ls (.rows rows))
    (hdiffer : Differ rows) :
    ∃ lead sections, render ls = textOf lead sections ∧ Sectioned (marginRows L) L.Keys names lead sections ∧
      rowsOf sections = rows ∧ ∀ s ∈ sections, Laid L ls s := by
  obtain ⟨lead, chunks, rfl, hlead, hchunks⟩ := h.chunks hL
  have hsections : ∃ sections : List Section,
      render (chunks.flatMap fun c => c.1 ++ c.2) = sections.flatMap Section.whole ∧ sections.map Section.row = rows ∧
        (∀ s ∈ sections, s.Sound (marginRows L) ∧ (∀ name ∈ names, s.Shows name) ∧ L.Keys s.row.1) ∧
        ∀ s ∈ sections, Laid L (chunks.flatMap fun c => c.1 ++ c.2) s := by
    clear h hdiffer
    induction hchunks with
    | nil => exact ⟨[], rfl, rfl, by simp, by simp⟩
    | @cons c row chunks rows hc _ ih =>
      obtain ⟨own, skips⟩ := c
      obtain ⟨mid, n, rfl, hmid⟩ := exists_blankLines skips
      obtain ⟨hmidSkips, -⟩ := List.forall_mem_append.mp hc.2
      have hlines := hc.1.append hmidSkips hmid
      obtain ⟨sections, hrender, rfl, hall, hlaid⟩ := ih
      obtain ⟨name, -, -, -, hkey, -⟩ := hlines.cons hL
      obtain ⟨hsound, hshows⟩ := hlines.section hL hnames n
      refine ⟨⟨render (own ++ mid), n, row⟩ :: sections, ?_, rfl,
        List.forall_mem_cons.mpr ⟨⟨hsound, hshows, name, hkey⟩, hall⟩,
        List.forall_mem_cons.mpr ⟨⟨own ++ mid, rfl, hlines, ?_⟩, fun s hs => (hlaid s hs).mono ?_⟩⟩
      · rw [List.flatMap_cons, render_append, List.flatMap_cons, hrender, ← List.append_assoc, render_append_newlines]
        rfl
      · rw [List.flatMap_cons, ← List.append_assoc]
        exact (List.prefix_append _ _).isInfix
      · rw [List.flatMap_cons]
        exact (List.suffix_append _ _).isInfix
  obtain ⟨sections, hrender, rfl, hall, hlaid⟩ := hsections
  refine ⟨render lead, sections, by rw [render_append, hrender, textOf], ⟨⟨lead, rfl, block_of_skipped hlead⟩, ?_, ?_,
    fun s hs => (hall s hs).1, fun s hs => (hall s hs).2.1, fun s hs => (hall s hs).2.2, ?_⟩, rfl,
    fun s hs => (hlaid s hs).mono (List.suffix_append _ _).isInfix⟩
  · cases List.eq_nil_or_concat lead with
    | inl hnil => exact Or.inl (by rw [hnil]; rfl)
    | inr hlast =>
      obtain ⟨front, last, rfl⟩ := hlast
      right
      rw [List.concat_eq_append, render_append]
      exact Text.endsLine_append (by simpa [render] using last.endsLine_render)
  · exact fun name hname => ofKey?_render_none (hnames name hname) (fun l hl => (hlead l hl).tidy)
      fun l hl => afterColon?_continues (hnames name hname) ((hlead l hl).continues)
  · rw [Differ, List.pairwise_map] at hdiffer
    exact hdiffer

/-- The rows of a block mapping at the margin are sections, if their keys differ. -/
theorem Block.sectioned (hL : L.Locatable names) (hnames : ∀ name ∈ names, Locatable name)
    {ls : List Line} {rows : List (Value × Value)} (h : Block L 0 ls (.rows rows))
    (hdiffer : Differ rows) :
    ∃ lead sections, render ls = textOf lead sections ∧ Sectioned (marginRows L) L.Keys names lead sections ∧
      rowsOf sections = rows := by
  obtain ⟨lead, sections, hrender, hsectioned, hrows, -⟩ := h.sectioned_laid hL hnames hdiffer
  exact ⟨lead, sections, hrender, hsectioned, hrows⟩

/-- They are a mapping as they are. -/
theorem Block.ofPairs_rows (hL : L.Locatable names) (hnames : ∀ name ∈ names, Locatable name) {ls : List Line}
    {rows : List (Value × Value)} (h : Block L 0 ls (.rows rows)) (hdiffer : Differ rows) :
    Value.ofPairs rows = rows := by
  obtain ⟨lead, sections, -, hsectioned, rfl⟩ := h.sectioned hL hnames hdiffer
  exact hsectioned.ofPairs_rows hL.legible

end YamlSplice.Layout
