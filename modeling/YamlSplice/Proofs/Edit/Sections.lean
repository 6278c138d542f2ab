/-
  YamlSplice.Proofs.Edit.Sections — updates of a mapping that stands in a text entry by entry.

  A text is cut into the sections of its entries: each starts on a line of its own, every further line
  continues it, and the blank lines below it do not belong to its value. The sections of a text are
  `Sectioned` for the names of the updates if text and mapping agree about which section is that of
  which name. An update keeps this, so it holds after any number of them.
  - `Sectioned.rows`: a sectioned text is made of the rows of its sections.
  - `Altered`: what an edit makes of the sections, for each way in which it changes them.
  - `apply_sections` / `applyAll_sections`: one update, and a run of updates.
  - `Merges`: what a run of updates makes of the mapping.
-/

import YamlSplice.Proofs.Edit.Frame
import YamlSplice.Proofs.Edit.Refine
import YamlSplice.Proofs.Reading.Rows
import YamlSplice.Proofs.Region.Locate

namespace YamlSplice

namespace Text

theorem endsLine_of_trailingNewlines {text : Text} (h : trailingNewlines text ≠ []) : endsLine text = true := by
  have hsplit := dropTrailingNewlines_append text
  rw [trailingNewlines_eq_replicate] at hsplit
  cases hn : (trailingNewlines text).length with
  | zero => exact absurd (List.eq_nil_of_length_eq_zero hn) h
  | succ n =>
    rw [hn, List.replicate_succ', ← List.append_assoc] at hsplit
    rw [← hsplit]
    simp [endsLine]

theorem trailingNewlines_append_newlines (text : Text) (n : Nat) :
    trailingNewlines (text ++ List.replicate n '\n') = trailingNewlines text ++ List.replicate n '\n' := by
  have hcomm : List.replicate n '\n' ++ trailingNewlines text = trailingNewlines text ++ List.replicate n '\n' := by
    rw [trailingNewlines_eq_replicate text, List.replicate_append_replicate, List.replicate_append_replicate,
      Nat.add_comm]
  rw [← hcomm, trailingNewlines, List.reverse_append, List.reverse_replicate,
    List.takeWhile_append_of_pos (by simp)]
  rfl

theorem trailingNewlines_append {text more : Text} {c : Char} (hmem : c ∈ more) (hc : c ≠ '\n') :
    trailingNewlines (text ++ more) = trailingNewlines more := by
  have hstop : (more.reverse.takeWhile (· == '\n')).length ≠ more.reverse.length := by
    intro hall
    have hself := (List.takeWhile_prefix (· == '\n')).eq_of_length hall
    have hmem : c ∈ more.reverse.takeWhile (· == '\n') := by rw [hself]; exact List.mem_reverse.mpr hmem
    exact hc (by simpa using List.all_eq_true.mp List.all_takeWhile c hmem)
  rw [trailingNewlines, List.reverse_append, List.takeWhile_append, if_neg hstop]
  rfl

theorem atDocumentMark_of_newline {text : Text} (h : '\n' ∈ text.take 3) : Yaml.atDocumentMark text = false := by
  match text with
  | [] | [_] | [_, _] => rfl
  | a :: b :: c :: rest =>
    simp only [List.take_succ_cons, List.take_zero, List.mem_cons, List.not_mem_nil, or_false] at h
    rcases h with rfl | rfl | rfl <;> simp [Yaml.atDocumentMark, Yaml.atMark]

/-- Whether a text starts as a row shows in its first line. -/
theorem startsRow_append {text : Text} (h : '\n' ∈ text) (more : Text) :
    startsRow (text ++ more) = startsRow text := by
  have hshort (hlength : text.length ≤ 3) :
      Yaml.atDocumentMark (text ++ more) = false ∧ Yaml.atDocumentMark text = false := by
    have htake : text.take 3 = text := List.take_of_length_le hlength
    refine ⟨atDocumentMark_of_newline ?_, atDocumentMark_of_newline (htake.symm ▸ h)⟩
    rw [List.take_append, htake]
    exact List.mem_append_left _ h
  match text with
  | [] => cases h
  | a :: b :: c :: d :: rest => rfl
  | [a] | [a, b] | [a, b, c] =>
    have hmarks := hshort (by simp)
    simp only [List.cons_append] at hmarks
    simp only [List.cons_append, startsRow, hmarks.1, hmarks.2]

end Text

namespace Edit

open Value

/-- An entry as it stands in a text, from the first column on, and the blank lines below it. -/
structure Section where
  text : Text
  blankLines : Nat
  row : Value × Value

namespace Section

/-- The entry with the blank lines below it. -/
def whole (s : Section) : Text := s.text ++ List.replicate s.blankLines '\n'

/-- The text is one row on its own, whatever blank lines stand below it, and all of its lines but the
    first continue the first. -/
structure Sound (Rows : RowText) (s : Section) : Prop where
  rows (n : Nat) : Rows (s.text ++ List.replicate n '\n') [s.row]
  starts : s.text.startsRow = true
  fresh : ∀ c ∈ s.text.head?, Region.continues c = false
  one : Region.Whole s.text
  ends : Text.trailingNewlines s.text = ['\n']

/-- If the section starts with a key line of the name, its key is called by it; otherwise it has none. -/
structure Shows (name : Text) (s : Section) : Prop where
  called : Region.afterColon? name s.text ≠ none → isCalled s.row.1 (.str name) = true
  quiet : Region.afterColon? name s.text = none → Region.ofKey? name s.text = none

variable {Rows : RowText} {s : Section}

theorem Sound.endsLine (h : s.Sound Rows) : Text.endsLine s.text = true :=
  Text.endsLine_of_trailingNewlines (by simp [h.ends])

theorem Sound.newline_mem (h : s.Sound Rows) : '\n' ∈ s.text := Text.newline_mem_of_endsLine h.endsLine

theorem Sound.rows_whole (h : s.Sound Rows) : Rows s.whole [s.row] := h.rows s.blankLines

theorem Sound.starts_whole (h : s.Sound Rows) : s.whole.startsRow = true := by
  rw [whole, Text.startsRow_append h.newline_mem, h.starts]

theorem Sound.whole_ne_nil (h : s.Sound Rows) : s.whole ≠ [] :=
  List.ne_nil_of_mem (List.mem_append_left _ h.newline_mem)

theorem Sound.fresh_whole (h : s.Sound Rows) : ∀ c ∈ s.whole.head?, Region.continues c = false := by
  intro c hc
  cases htext : s.text with
  | nil => exact absurd h.newline_mem (by simp [htext])
  | cons d rest =>
    rw [whole, htext] at hc
    exact h.fresh c (by rw [htext]; exact hc)

theorem Sound.endsLine_whole (h : s.Sound Rows) : Text.endsLine s.whole = true :=
  Text.endsLine_of_trailingNewlines (by simp [whole, Text.trailingNewlines_append_newlines, h.ends])

theorem Sound.one_whole (h : s.Sound Rows) : Region.Whole s.whole := by
  refine h.one.append h.endsLine (Region.whole_newlines _) fun c hc => ?_
  have hc := List.eq_of_mem_replicate (List.mem_of_mem_head? hc)
  rw [hc]
  rfl

theorem Shows.quiet_whole {name : Text} (hname : '\n' ∉ name) (h : s.Shows name) (hs : s.Sound Rows)
    (hquiet : Region.afterColon? name s.text = none) : Region.ofKey? name s.whole = none :=
  Region.ofKey?_append_none hname (h.quiet hquiet) hs.endsLine (Region.ofKey?_newlines hname _)

end Section

/-! ## Sectioned texts -/

/-- What stands above the sections, and the sections. -/
def textOf (lead : Text) (sections : List Section) : Text := lead ++ sections.flatMap Section.whole

/-- The entries of sections. -/
def rowsOf (sections : List Section) : List (Value × Value) := sections.map Section.row

variable (Rows : RowText) (Keys : Value → Prop) (names : List Text)

/-- The text is cut into the sections of its entries, with keys that differ to the eye, and it shows
    for each of the names the section that the mapping has for it. -/
structure Sectioned (lead : Text) (sections : List Section) : Prop where
  lead_rows : Rows lead []
  lead_closed : lead = [] ∨ Text.endsLine lead = true
  lead_quiet : ∀ name ∈ names, Region.ofKey? name lead = none
  sound : ∀ s ∈ sections, s.Sound Rows
  shows : ∀ s ∈ sections, ∀ name ∈ names, s.Shows name
  known : ∀ s ∈ sections, Keys s.row.1
  unlike : sections.Pairwise fun a b => keyText a.row.1 ≠ keyText b.row.1

/-- Keys that are the same read the same. -/
def Legible : Prop := ∀ a b, Keys a → Keys b → same a b = true → keyText a = keyText b

variable {Rows Keys names} {lead : Text} {sections : List Section}

theorem Sectioned.rows {format : Format} (reading : RowReading format Rows)
    (h : Sectioned Rows Keys names lead sections) : Rows (textOf lead sections) (rowsOf sections) := by
  have hrows : ∀ (done : List (Value × Value)) above, Rows above done → ∀ rest : List Section, (∀ s ∈ rest, s.Sound Rows) →
      Rows (above ++ rest.flatMap Section.whole) (done ++ rest.map Section.row) := by
    intro done above habove rest hrest
    induction rest generalizing done above with
    | nil => simpa using habove
    | cons s rest ih =>
      have hs := hrest s List.mem_cons_self
      have := ih _ _ (reading.append habove hs.rows_whole hs.starts_whole)
        fun t ht => hrest t (List.mem_cons_of_mem _ ht)
      simpa using this
  simpa [textOf, rowsOf] using hrows [] lead h.lead_rows sections h.sound

/-- The entries of sections are a mapping. -/
theorem Sectioned.ofPairs_rows (hkeys : Legible Keys) (h : Sectioned Rows Keys names lead sections) :
    ofPairs (rowsOf sections) = rowsOf sections := by
  refine ofPairs_eq_self (List.pairwise_map.mpr ?_)
  refine h.unlike.imp_of_mem fun {a b} ha hb hunlike => ?_
  rw [Bool.eq_false_iff]
  exact fun hsame => hunlike (hkeys _ _ (h.known a ha) (h.known b hb) hsame)

/-- Keys that read differently are told apart by any name. -/
theorem Sectioned.distinct (hkeys : Legible Keys) (h : Sectioned Rows Keys names lead sections) (name : Text) :
    Distinct name (rowsOf sections) := by
  intro a ha b hb hsame
  obtain ⟨s, hs, rfl⟩ := List.mem_map.mp ha
  obtain ⟨t, ht, rfl⟩ := List.mem_map.mp hb
  have := hkeys _ _ (h.known s hs) (h.known t ht) hsame
  exact Bool.eq_iff_iff.mpr (by rw [isCalled_str_iff, isCalled_str_iff, this])

/-- At most one section is called by a name. -/
theorem Sectioned.not_called {before after : List Section} {s : Section} {name : Text}
    (h : Sectioned Rows Keys names lead (before ++ s :: after)) (hs : isCalled s.row.1 (.str name) = true) :
    ∀ t ∈ before ++ after, isCalled t.row.1 (.str name) = false := by
  intro t ht
  rw [Bool.eq_false_iff]
  intro hcalled
  rw [isCalled_str_iff] at hs hcalled
  have hunlike := h.unlike
  rw [List.pairwise_append, List.pairwise_cons] at hunlike
  rcases List.mem_append.mp ht with ht | ht
  · exact hunlike.2.2 t ht s List.mem_cons_self (hcalled.trans hs.symm)
  · exact hunlike.2.1.1 t ht (hs.trans hcalled.symm)

/-! ## One update -/

/-- The first of some sections starts a line of its own. -/
theorem fresh_sections {rest : List Section} (h : ∀ s ∈ rest, s.Sound Rows) :
    ∀ c ∈ (rest.flatMap Section.whole).head?, Region.continues c = false := by
  cases rest with
  | nil => simp
  | cons s rest =>
    intro c hc
    have hs := h s List.mem_cons_self
    refine hs.fresh_whole c ?_
    cases hwhole : s.whole with
    | nil => exact absurd hwhole hs.whole_ne_nil
    | cons d more => simpa [hwhole] using hc

/-- Sections that do not start with a key line of a name hold none. -/
theorem ofKey?_sections {above : Text} {name : Text} {rest : List Section} (hline : '\n' ∉ name)
    (habove : Region.ofKey? name above = none) (hclosed : above = [] ∨ Text.endsLine above = true)
    (hrest : ∀ s ∈ rest, s.Sound Rows ∧ s.Shows name ∧ Region.afterColon? name s.text = none) :
    Region.ofKey? name (above ++ rest.flatMap Section.whole) = none ∧
      (above ++ rest.flatMap Section.whole = [] ∨ Text.endsLine (above ++ rest.flatMap Section.whole) = true) := by
  induction rest generalizing above with
  | nil => simpa using ⟨habove, hclosed⟩
  | cons s rest ih =>
    obtain ⟨hs, hshows, hnot⟩ := hrest s List.mem_cons_self
    have hquiet := hshows.quiet_whole hline hs hnot
    have hnone : Region.ofKey? name (above ++ s.whole) = none := by
      rcases hclosed with rfl | hclosed
      · simpa using hquiet
      · exact Region.ofKey?_append_none hline habove hclosed hquiet
    have := ih hnone (Or.inr (Text.endsLine_append hs.endsLine_whole))
      fun t ht => hrest t (List.mem_cons_of_mem _ ht)
    simpa using this

/-- A name that calls none of the sections is not located. -/
theorem Sectioned.not_located {name : Text} (hname : name ∈ names) (hline : '\n' ∉ name)
    (h : Sectioned Rows Keys names lead sections) (hnone : ∀ s ∈ sections, isCalled s.row.1 (.str name) = false) :
    Region.ofKey? name (textOf lead sections) = none := by
  refine (@ofKey?_sections Rows lead name sections hline (h.lead_quiet name hname) h.lead_closed fun s hs => ?_).1
  refine ⟨h.sound s hs, h.shows s hs name hname, ?_⟩
  by_contra hfirst
  have hcalled := (h.shows s hs name hname).called hfirst
  rw [hnone s hs] at hcalled
  cases hcalled

/-- The region of a name is the section that is called by it. -/
theorem Sectioned.located {name : Text} {region : Region} (hname : name ∈ names) (hline : '\n' ∉ name)
    (h : Sectioned Rows Keys names lead sections) (hregion : Region.ofKey? name (textOf lead sections) = some region) :
    ∃ before s after rest, sections = before ++ s :: after ∧ isCalled s.row.1 (.str name) = true ∧
      Region.afterColon? name s.whole = some rest ∧ region.value = Region.dropHeader rest ∧
      ∀ replacement, region.splice (textOf lead sections) replacement =
        textOf lead before ++ replacement ++ after.flatMap Section.whole := by
  by_cases hsome : ∃ s ∈ sections, Region.afterColon? name s.text ≠ none
  · obtain ⟨s, hs, hfirst⟩ := hsome
    obtain ⟨before, after, rfl⟩ := List.append_of_mem hs
    have hcalled := (h.shows s hs name hname).called hfirst
    have hsound := h.sound s hs
    obtain ⟨rest, hrest⟩ : ∃ rest, Region.afterColon? name s.whole = some rest := by
      rw [← Option.isSome_iff_exists, Section.whole, Region.afterColon?_append hline hsound.newline_mem,
        Option.isSome_map, Option.isSome_iff_ne_none]
      exact hfirst
    obtain ⟨hnone, hclosed⟩ := @ofKey?_sections _ lead name before hline (h.lead_quiet name hname) h.lead_closed
      fun t ht => ⟨h.sound t (by simp [ht]), h.shows t (by simp [ht]) name hname, by
        by_contra hline
        have hother := h.not_called hcalled t (by simp [ht])
        rw [(h.shows t (by simp [ht]) name hname).called hline] at hother
        cases hother⟩
    have hbelow := @fresh_sections Rows after fun t ht => h.sound t (by simp [ht])
    obtain ⟨region', front, hfound, hfront, hcut, hvalue⟩ :=
      Region.ofKey?_append hline hnone hclosed hsound.one_whole hsound.endsLine_whole hbelow hrest
    have htext : textOf lead (before ++ s :: after) =
        lead ++ before.flatMap Section.whole ++ s.whole ++ after.flatMap Section.whole := by
      simp [textOf]
    obtain rfl : region' = region := Option.some.inj (hfound.symm.trans (htext ▸ hregion))
    refine ⟨before, s, after, rest, rfl, hcalled, hrest, hvalue, fun replacement => ?_⟩
    rw [htext, hcut.splice_eq, hfront]
    rfl
  · have hnone := (ofKey?_sections hline (h.lead_quiet name hname) h.lead_closed fun s hs =>
      ⟨h.sound s hs, h.shows s hs name hname, by
        by_contra hfirst
        exact hsome ⟨s, hs, hfirst⟩⟩).1
    rw [textOf, hnone] at hregion
    cases hregion

theorem Sectioned.endsLine (h : Sectioned Rows Keys names lead sections) (hne : sections ≠ []) :
    Text.endsLine (textOf lead sections) = true := by
  obtain ⟨front, last, rfl⟩ := (List.eq_nil_or_concat sections).resolve_left hne
  have hlast := (h.sound last (by simp)).endsLine_whole
  simpa [textOf, ← List.append_assoc] using Text.endsLine_append hlast

/-- The blank lines at the end of a text are those below its last section. -/
theorem Sectioned.trailingNewlines {front : List Section} {last : Section}
    (h : Sectioned Rows Keys names lead (front ++ [last])) :
    Text.trailingNewlines (textOf lead (front ++ [last])) = '\n' :: List.replicate last.blankLines '\n' := by
  have hlast := h.sound last (by simp)
  obtain ⟨c, rest, htext⟩ := List.exists_cons_of_ne_nil (List.ne_nil_of_mem hlast.newline_mem)
  have hc : c ≠ '\n' := by
    rintro rfl
    have := hlast.fresh '\n' (by simp [htext])
    revert this
    decide
  have hwhole : textOf lead (front ++ [last]) =
      textOf lead front ++ last.text ++ List.replicate last.blankLines '\n' := by
    simp [textOf, Section.whole]
  rw [hwhole, Text.trailingNewlines_append_newlines,
    Text.trailingNewlines_append (by simp [htext] : c ∈ last.text) hc, hlast.ends]
  rfl

/-- What is written for a key is a section of its own, for no other name. -/
def WritesSection (Rows : RowText) (Keys : Value → Prop) (names : List Text) (format : Format) (keep : Bool)
    (name : Text) (value : Value) : Prop :=
  ∀ text, Render.entry format keep (.str name) value = .ok text ∨
      Render.entryKeepingKey format keep name value = .ok text →
    ∃ row, Section.Sound Rows ⟨text, 0, row⟩ ∧ (∀ other ∈ names, Section.Shows other ⟨text, 0, row⟩) ∧
      Keys row.1 ∧ isCalled row.1 (.str name) = true ∧ agrees row.2 value = true

theorem Section.Sound.with_blankLines {text : Text} {row : Value × Value} {m : Nat}
    (h : Section.Sound Rows ⟨text, m, row⟩) (n : Nat) : Section.Sound Rows ⟨text, n, row⟩ :=
  ⟨h.rows, h.starts, h.fresh, h.one, h.ends⟩

/-- Sections of which one is put in the place of others. -/
theorem Sectioned.put {before own after : List Section} {new : Section} {name : Text}
    (h : Sectioned Rows Keys names lead (before ++ own ++ after)) (hsound : new.Sound Rows)
    (hshows : ∀ other ∈ names, new.Shows other) (hknown : Keys new.row.1)
    (hcalled : isCalled new.row.1 (.str name) = true)
    (hothers : ∀ t ∈ before ++ after, isCalled t.row.1 (.str name) = false) :
    Sectioned Rows Keys names lead (before ++ [new] ++ after) := by
  have hunlike : ∀ t ∈ before ++ after, keyText t.row.1 ≠ keyText new.row.1 := by
    intro t ht hsame
    have := hothers t ht
    rw [isCalled_str_iff.mp hcalled] at hsame
    rw [isCalled_str_iff.mpr hsame] at this
    cases this
  have hmem : ∀ t ∈ before ++ [new] ++ after, t = new ∨ t ∈ before ++ own ++ after := by
    intro t ht
    simp only [List.mem_append, List.mem_singleton] at ht ⊢
    tauto
  refine ⟨h.lead_rows, h.lead_closed, h.lead_quiet, fun t ht => ?_, fun t ht => ?_, fun t ht => ?_, ?_⟩
  · rcases hmem t ht with rfl | ht
    · exact hsound
    · exact h.sound t ht
  · rcases hmem t ht with rfl | ht
    · exact hshows
    · exact h.shows t ht
  · rcases hmem t ht with rfl | ht
    · exact hknown
    · exact h.known t ht
  · have hold := h.unlike
    simp only [List.append_assoc, List.pairwise_append, List.mem_append] at hold
    simp only [List.append_assoc, List.pairwise_append, List.pairwise_singleton, List.mem_append,
      List.mem_singleton, true_and]
    refine ⟨hold.1, ⟨hold.2.1.2.1, ?_⟩, ?_⟩
    · rintro a rfl b hb
      exact (hunlike b (by simp [hb])).symm
    · rintro a ha b (rfl | hb)
      · exact hunlike a (by simp [ha])
      · exact hold.2.2 a ha b (Or.inr hb)

/-- How many blank lines stand below the last section makes no difference. -/
theorem Sectioned.with_blankLines {front : List Section} {last : Section}
    (h : Sectioned Rows Keys names lead (front ++ [last])) (n : Nat) :
    Sectioned Rows Keys names lead (front ++ [⟨last.text, n, last.row⟩]) := by
  have hmem : last ∈ front ++ [last] := by simp
  have hcalled : isCalled last.row.1 (.str (keyText last.row.1)) = true := isCalled_str_iff.mpr rfl
  have hothers : ∀ t ∈ front ++ [], isCalled t.row.1 (.str (keyText last.row.1)) = false := h.not_called hcalled
  have hshows : ∀ other ∈ names, Section.Shows other ⟨last.text, n, last.row⟩ := fun other hother =>
    ⟨(h.shows last hmem other hother).called, (h.shows last hmem other hother).quiet⟩
  have h := h
  rw [← List.append_nil (front ++ [last])] at h
  have hput : Sectioned Rows Keys names lead (front ++ [⟨last.text, n, last.row⟩] ++ []) :=
    h.put ((h.sound last (by simp)).with_blankLines n) hshows (h.known last (by simp)) hcalled hothers
  simpa using hput

/-- A section in the place of others is an edit of the mapping. -/
theorem Sectioned.put_refines (hkeys : Legible Keys) {before own after : List Section} {new : Section}
    {name : Text} {value : Value} (h : Sectioned Rows Keys names lead (before ++ own ++ after))
    (h' : Sectioned Rows Keys names lead (before ++ [new] ++ after)) (ht : value.treatment ≠ .remove)
    (hcalled : isCalled new.row.1 (.str name) = true) (hagrees : Value.agrees new.row.2 value = true)
    (hown : ∀ t ∈ own, isCalled t.row.1 (.str name) = true)
    (hothers : ∀ t ∈ before ++ after, isCalled t.row.1 (.str name) = false) :
    Refines name value (rowsOf (before ++ own ++ after)) (rowsOf (before ++ [new] ++ after)) := by
  have hedit : Refines name value (ofPairs (rowsOf before ++ rowsOf own ++ rowsOf after))
      (ofPairs (rowsOf before ++ [new.row] ++ rowsOf after)) := by
    refine .of_row ?_ ?_ ?_ hcalled ?_ ht hagrees
    · simpa [rowsOf] using h.distinct hkeys name
    · simpa [rowsOf] using h'.distinct hkeys name
    · simpa [rowsOf] using hown
    · simpa [rowsOf, or_imp, forall_and] using hothers
  have hbefore := h.ofPairs_rows hkeys
  have hafter := h'.ofPairs_rows hkeys
  simp only [rowsOf, List.map_append, List.map_cons, List.map_nil] at hedit hbefore hafter ⊢
  rwa [hbefore, hafter] at hedit

/-- Sections may be left out. -/
theorem Sectioned.sublist {fewer : List Section} (hfewer : fewer.Sublist sections)
    (h : Sectioned Rows Keys names lead sections) : Sectioned Rows Keys names lead fewer where
  lead_rows := h.lead_rows
  lead_closed := h.lead_closed
  lead_quiet := h.lead_quiet
  sound s hs := h.sound s (hfewer.subset hs)
  shows s hs := h.shows s (hfewer.subset hs)
  known s hs := h.known s (hfewer.subset hs)
  unlike := h.unlike.sublist hfewer

/-- To leave out the section of a key is an edit of the mapping. -/
theorem Sectioned.remove_refines (hkeys : Legible Keys) {before after : List Section} {s : Section} {name : Text}
    {value : Value} (h : Sectioned Rows Keys names lead (before ++ s :: after)) (ht : value.treatment = .remove)
    (hcalled : isCalled s.row.1 (.str name) = true) :
    Refines name value (rowsOf (before ++ s :: after)) (rowsOf (before ++ after)) := by
  have hothers := h.not_called hcalled
  have hfewer : (before ++ after).Sublist (before ++ s :: after) :=
    (List.Sublist.refl before).append (List.sublist_cons_self s after)
  have hedit : Refines name value (ofPairs (rowsOf before ++ [s.row] ++ rowsOf after))
      (ofPairs (rowsOf before ++ [] ++ rowsOf after)) := by
    refine .of_removed ?_ ?_ ?_ ht
    · simpa [rowsOf] using h.distinct hkeys name
    · simpa using hcalled
    · simpa [rowsOf, or_imp, forall_and] using hothers
  have hold := h.ofPairs_rows hkeys
  have hnew := (h.sublist hfewer).ofPairs_rows hkeys
  simp only [rowsOf, List.map_append, List.map_cons, List.append_nil, List.append_assoc, List.singleton_append] at hedit hold hnew ⊢
  rwa [hold, hnew] at hedit

theorem Sectioned.read {format : Format} (reading : RowReading format Rows) (hkeys : Legible Keys)
    (h : Sectioned Rows Keys names lead sections) :
    ∃ loaded, format.read (textOf lead sections) = .ok loaded ∧ loaded.Holds (rowsOf sections) := by
  have hread := reading.read (h.rows reading)
  rwa [h.ofPairs_rows hkeys] at hread

theorem Sectioned.read_map {format : Format} (reading : RowReading format Rows) (hkeys : Legible Keys)
    (h : Sectioned Rows Keys names lead sections) (hne : sections ≠ []) :
    format.read (textOf lead sections) = .ok (.map (rowsOf sections)) := by
  obtain ⟨loaded, hloaded, rfl | ⟨-, hnone⟩⟩ := h.read reading hkeys
  · exact hloaded
  · exact absurd (List.map_eq_nil_iff.mp hnone) hne

/-- Every section that the name does not call was there before, with as many blank lines below it or more. -/
def Inherits (name : Text) (before after : List Section) : Prop :=
  ∀ t ∈ after, isCalled t.row.1 (.str name) = false →
    ∃ s ∈ before, s.text = t.text ∧ s.row = t.row ∧ t.blankLines ≤ s.blankLines

theorem Inherits.of_subset {name : Text} {before after : List Section} (h : after ⊆ before) : Inherits name before after :=
  fun t ht _ => ⟨t, h ht, rfl, rfl, Nat.le_refl _⟩

theorem Inherits.of_put {before own after : List Section} {new : Section} {name : Text}
    (hcalled : isCalled new.row.1 (.str name) = true) :
    Inherits name (before ++ own ++ after) (before ++ [new] ++ after) := by
  intro t ht hnot
  simp only [List.mem_append, List.mem_singleton] at ht
  rcases ht with (ht | rfl) | ht
  · exact ⟨t, by simp [ht], rfl, rfl, Nat.le_refl _⟩
  · rw [hcalled] at hnot
    cases hnot
  · exact ⟨t, by simp [ht], rfl, rfl, Nat.le_refl _⟩

/-- What an edit of a key makes of sections: it edits their mapping, and those of the other keys are still there. -/
structure Altered (Rows : RowText) (Keys : Value → Prop) (names : List Text) (lead name : Text) (value : Value)
    (before after : List Section) : Prop where
  sectioned : Sectioned Rows Keys names lead after
  refines : Refines name value (rowsOf before) (rowsOf after)
  inherits : Inherits name before after
  /-- None may be left only where a key is removed. -/
  left : value.treatment ≠ .remove → after ≠ []

/-- Nothing is done where the mapping is already as it should be. -/
theorem Altered.refl {name : Text} {value : Value} (h : Sectioned Rows Keys names lead sections) (hne : sections ≠ [])
    (hrefines : Refines name value (rowsOf sections) (rowsOf sections)) :
    Altered Rows Keys names lead name value sections sections :=
  ⟨h, hrefines, .of_subset (List.Subset.refl _), fun _ => hne⟩

theorem Sectioned.altered_removed (hkeys : Legible Keys) {before after : List Section} {s : Section} {name : Text}
    {value : Value} (h : Sectioned Rows Keys names lead (before ++ s :: after)) (ht : value.treatment = .remove)
    (hcalled : isCalled s.row.1 (.str name) = true) :
    Altered Rows Keys names lead name value (before ++ s :: after) (before ++ after) := by
  have hfewer : (before ++ after).Sublist (before ++ s :: after) :=
    (List.Sublist.refl before).append (List.sublist_cons_self s after)
  exact ⟨h.sublist hfewer, h.remove_refines hkeys ht hcalled, .of_subset hfewer.subset, fun hset => absurd ht hset⟩

theorem Sectioned.altered_replaced (hkeys : Legible Keys) {before after : List Section} {s new : Section} {name : Text}
    {value : Value} (h : Sectioned Rows Keys names lead (before ++ s :: after)) (ht : value.treatment ≠ .remove)
    (hs : isCalled s.row.1 (.str name) = true) (hsound : new.Sound Rows) (hshows : ∀ other ∈ names, new.Shows other)
    (hknown : Keys new.row.1) (hcalled : isCalled new.row.1 (.str name) = true)
    (hagrees : agrees new.row.2 value = true) :
    Altered Rows Keys names lead name value (before ++ s :: after) (before ++ [new] ++ after) := by
  have hothers := h.not_called hs
  rw [List.append_cons] at h ⊢
  have hput := h.put hsound hshows hknown hcalled hothers
  exact ⟨hput, h.put_refines hkeys hput ht hcalled hagrees (by simpa using hs) hothers, .of_put hcalled, by simp⟩

/-- A new section takes the blank lines from below the last one. -/
theorem Sectioned.altered_appended (hkeys : Legible Keys) {front : List Section} {last : Section} {text name : Text}
    {row : Value × Value} {value : Value} (h : Sectioned Rows Keys names lead (front ++ [last]))
    (ht : value.treatment ≠ .remove) (hothers : ∀ s ∈ front ++ [last], isCalled s.row.1 (.str name) = false)
    (hsound : Section.Sound Rows ⟨text, 0, row⟩) (hshows : ∀ other ∈ names, Section.Shows other ⟨text, 0, row⟩)
    (hknown : Keys row.1) (hcalled : isCalled row.1 (.str name) = true) (hagrees : agrees row.2 value = true) :
    Altered Rows Keys names lead name value (front ++ [last])
      (front ++ [⟨last.text, 0, last.row⟩] ++ [⟨text, last.blankLines, row⟩]) := by
  have hclose : Sectioned Rows Keys names lead (front ++ [⟨last.text, 0, last.row⟩] ++ [] ++ []) := by
    simpa using h.with_blankLines 0
  have hquiet : ∀ s ∈ front ++ [⟨last.text, 0, last.row⟩] ++ [], isCalled s.row.1 (.str name) = false := by
    intro s hs
    simp only [List.append_nil, List.mem_append, List.mem_singleton] at hs
    rcases hs with hs | rfl
    · exact hothers s (by simp [hs])
    · exact hothers last (by simp)
  have hput : Sectioned Rows Keys names lead
      (front ++ [⟨last.text, 0, last.row⟩] ++ [⟨text, last.blankLines, row⟩] ++ []) :=
    hclose.put (hsound.with_blankLines _)
      (fun other hother => ⟨(hshows other hother).called, (hshows other hother).quiet⟩) hknown hcalled hquiet
  have hrefines := hclose.put_refines hkeys hput ht hcalled hagrees (by simp) hquiet
  refine ⟨by simpa using hput, by simpa [rowsOf] using hrefines, fun t ht hnot => ?_, by simp⟩
  simp only [List.mem_append, List.mem_singleton] at ht
  rcases ht with (ht | rfl) | rfl
  · exact ⟨t, by simp [ht], rfl, rfl, Nat.le_refl _⟩
  · exact ⟨last, by simp, rfl, rfl, Nat.zero_le _⟩
  · rw [hcalled] at hnot
    cases hnot

theorem Sectioned.append_eq {front : List Section} {last : Section}
    (h : Sectioned Rows Keys names lead (front ++ [last])) (addition : Text) (row : Value × Value) :
    append (textOf lead (front ++ [last])) addition =
      textOf lead (front ++ [⟨last.text, 0, last.row⟩] ++ [⟨addition, last.blankLines, row⟩]) := by
  obtain ⟨above, hwhole, -, hresult⟩ := append_closed (h.endsLine (by simp)) addition
  rw [h.trailingNewlines, List.tail_cons] at hwhole hresult
  obtain rfl : above = textOf lead (front ++ [⟨last.text, 0, last.row⟩]) := by
    refine List.append_cancel_right (hwhole.symm.trans ?_)
    simp [textOf, Section.whole]
  rw [hresult]
  simp [textOf, Section.whole]

/-- An edit of a sectioned text is an edit of its mapping, unless a mapping is merged into another. It alters the
    sections, or leaves the text as it is, which may lack the newline at its end. -/
theorem apply_altered {format : Format} (reading : RowReading format Rows) (hkeys : Legible Keys) {keep : Bool}
    {name text result : Text} {value : Value} (h : Sectioned Rows Keys names lead sections) (hne : sections ≠ [])
    (htext : Text.closeLine text = textOf lead sections) (hname : name ∈ names) (hline : '\n' ∉ name)
    (hunmerged : value.treatment = .merge →
      ∀ existing, valueUnder? (rowsOf sections) (.str name) = some existing → existing.treatment ≠ .merge)
    (hwrites : value.treatment ≠ .remove → WritesSection Rows Keys names format keep name value)
    (hrun : (apply format keep (.str name) value text).result = .ok result) :
    ∃ changed, (result = text ∧ changed = sections ∨ result = textOf lead changed) ∧
      Altered Rows Keys names lead name value sections changed := by
  have hread := h.read_map reading hkeys hne
  rw [← htext] at hread
  have hsame : ∀ {entries}, format.read (Text.closeLine text) = .ok (.map entries) → entries = rowsOf sections :=
    fun hentries => (Value.map.inj (Except.ok.inj (hread.symm.trans hentries))).symm
  cases outcome_of_apply hrun with
  | nothing habsent ht =>
    have hnone : valueUnder? (rowsOf sections) (.str name) = none := by
      rcases habsent with hnull | ⟨entries, hentries, hnone⟩
      · cases hread.symm.trans hnull
      · rwa [hsame hentries] at hnone
    have hrefines : Refines name value (rowsOf sections) (rowsOf sections) :=
      ⟨.refl name _, fun _ => valueUnder?_eq_none_iff.mp hnone, fun ht' => absurd ht ht'⟩
    exact ⟨sections, Or.inl ⟨rfl, rfl⟩, .refl h hne hrefines⟩
  | unchanged entries existing hentries ht hfound hagrees =>
    obtain rfl := hsame hentries
    have hrefines : Refines name value (rowsOf sections) (rowsOf sections) :=
      ⟨.refl name _, fun ht' => by simp [ht'] at ht, fun _ => ⟨existing, hfound, hagrees⟩⟩
    exact ⟨sections, Or.inl ⟨rfl, rfl⟩, .refl h hne hrefines⟩
  | filled _ hnull _ _ => cases hread.symm.trans hnull
  | merged entries existing region updates block hentries hvalue ht hfound _ _ _ =>
    obtain rfl := hsame hentries
    subst hvalue
    exact absurd ht (hunmerged rfl existing hfound)
  | removed entries existing region _ ht _ hregion =>
    rw [htext] at hregion ⊢
    obtain ⟨before, s, after, -, rfl, hcalled, -, -, hsplice⟩ := h.located hname hline hregion
    refine ⟨before ++ after, Or.inr ?_, h.altered_removed hkeys ht hcalled⟩
    rw [hsplice]
    simp [textOf]
  | replaced entries existing region replacement _ hreplaces _ _ hregion hrep =>
    have ht : value.treatment ≠ .remove := by rcases hreplaces with ht | ⟨ht, -⟩ <;> simp [ht]
    rw [htext] at hregion ⊢
    obtain ⟨before, s, after, -, rfl, hs, -, -, hsplice⟩ := h.located hname hline hregion
    obtain ⟨row, hsound, hshows, hknown, hcalled, hagrees⟩ := hwrites ht replacement (Or.inr hrep)
    refine ⟨_, Or.inr ?_, h.altered_replaced hkeys ht hs hsound hshows hknown hcalled hagrees⟩
    rw [hsplice]
    simp [textOf, Section.whole]
  | appended entries addition hentries hset habsent hadd =>
    obtain rfl := hsame hentries
    have ht : value.treatment ≠ .remove := by rcases hset with ht | ht <;> simp [ht]
    have hothers : ∀ s ∈ sections, isCalled s.row.1 (.str name) = false := fun s hs =>
      valueUnder?_eq_none_iff.mp habsent s.row (List.mem_map_of_mem hs)
    obtain ⟨row, hsound, hshows, hknown, hcalled, hagrees⟩ := hwrites ht addition (Or.inl hadd)
    obtain ⟨front, last, rfl⟩ := (List.eq_nil_or_concat sections).resolve_left hne
    rw [List.concat_eq_append] at h htext hothers ⊢
    rw [htext, h.append_eq addition row]
    exact ⟨_, Or.inr rfl, h.altered_appended hkeys ht hothers hsound hshows hknown hcalled hagrees⟩

/-- An edit of a sectioned text is an edit of its mapping, unless a mapping is merged into another. It leaves a
    sectioned text, or the text as it is, which may lack the newline at its end. -/
theorem apply_sections {format : Format} (reading : RowReading format Rows) (hkeys : Legible Keys) {keep : Bool}
    {name text result : Text} {value : Value} (h : Sectioned Rows Keys names lead sections) (hne : sections ≠ [])
    (htext : Text.closeLine text = textOf lead sections) (hname : name ∈ names) (hline : '\n' ∉ name)
    (hunmerged : value.treatment = .merge →
      ∀ existing, valueUnder? (rowsOf sections) (.str name) = some existing → existing.treatment ≠ .merge)
    (hwrites : value.treatment ≠ .remove → WritesSection Rows Keys names format keep name value)
    (hrun : (apply format keep (.str name) value text).result = .ok result) :
    ∃ changed, (result = text ∧ changed = sections ∨ result = textOf lead changed) ∧
      (value.treatment ≠ .remove → changed ≠ []) ∧ Sectioned Rows Keys names lead changed ∧
      Refines name value (rowsOf sections) (rowsOf changed) := by
  obtain ⟨changed, hresult, haltered⟩ := apply_altered reading hkeys h hne htext hname hline hunmerged hwrites hrun
  exact ⟨changed, hresult, haltered.left, haltered.sectioned, haltered.refines⟩

/-! ## Runs of updates -/

/-- The mapping `after` is `before` with every key of the updates set, or removed if the value is absent, and
    otherwise the same. -/
structure Merges (updates : List (Text × Value)) (before after : List (Value × Value)) : Prop where
  present : ∀ u ∈ updates, u.2.treatment ≠ .remove →
    ∃ found, valueUnder? after (.str u.1) = some found ∧ agrees found u.2 = true
  removed : ∀ u ∈ updates, u.2.treatment = .remove → ∀ e ∈ after, isCalled e.1 (.str u.1) = false
  /-- What is found under any other key is what was found there. -/
  kept : ∀ e ∈ before, (∀ u ∈ updates, isCalled e.1 (.str u.1) = false) →
    ∃ found, valueUnder? before e.1 = some found ∧ valueUnder? after e.1 = some found
  /-- The other entries are the same ones, in the same order. -/
  others : after.filter (fun e => updates.all fun u => !isCalled e.1 (.str u.1)) =
    before.filter fun e => updates.all fun u => !isCalled e.1 (.str u.1)

theorem Merges.nil (entries : List (Value × Value)) : Merges [] entries entries where
  present _ hu := absurd hu List.not_mem_nil
  removed _ hu := absurd hu List.not_mem_nil
  kept _ he _ := (valueUnder?_isSome he).imp fun _ hfound => ⟨hfound, hfound⟩
  others := rfl

/-- None of the updates is one of a key that another name calls. -/
theorem all_not_called {updates : List (Text × Value)} {name : Text} (hnew : ∀ u ∈ updates, u.1 ≠ name)
    {e : Value × Value} (he : isCalled e.1 (.str name) = true) :
    (updates.all fun u => !isCalled e.1 (.str u.1)) = true :=
  List.all_eq_true.mpr fun u hu => by rw [isCalled_other he (hnew u hu)]; rfl

/-- Edits of other keys leave what is found under a name. -/
theorem Merges.valueUnder?_eq {updates : List (Text × Value)} {before after : List (Value × Value)}
    (h : Merges updates before after) {name : Text} (hnew : ∀ u ∈ updates, u.1 ≠ name) :
    valueUnder? after (.str name) = valueUnder? before (.str name) := by
  have hkept : ∀ entries : List (Value × Value),
      valueUnder? (entries.filter fun e => updates.all fun u => !isCalled e.1 (.str u.1)) (.str name) =
        valueUnder? entries (.str name) :=
    fun entries => valueUnder?_keeping fun _ he => all_not_called hnew he
  rw [← hkept after, h.others, hkept]

/-- An edit of one key, and edits of other keys after it. -/
theorem Merges.cons {name : Text} {value : Value} {rest : List (Text × Value)}
    {before between after : List (Value × Value)} (hfirst : Refines name value before between)
    (hrest : Merges rest between after) (hnew : ∀ u ∈ rest, u.1 ≠ name) :
    Merges ((name, value) :: rest) before after where
  present := by
    refine List.forall_mem_cons.mpr ⟨fun ht => ?_, hrest.present⟩
    obtain ⟨found, hfound, hagrees⟩ := hfirst.present ht
    exact ⟨found, (hrest.valueUnder?_eq hnew).trans hfound, hagrees⟩
  removed := by
    refine List.forall_mem_cons.mpr ⟨fun ht => ?_, hrest.removed⟩
    refine valueUnder?_eq_none_iff.mp ((hrest.valueUnder?_eq hnew).trans ?_)
    exact valueUnder?_eq_none_iff.mpr (hfirst.removed ht)
  kept := by
    intro e he hnone
    have hname := hnone (name, value) List.mem_cons_self
    obtain ⟨found, hbefore, hbetween⟩ := hfirst.kept e he hname
    have hmem : e ∈ between := hfirst.mem he hname
    obtain ⟨found', hfound', hafter⟩ := hrest.kept e hmem fun u hu => hnone u (List.mem_cons_of_mem _ hu)
    rw [hbetween] at hfound'
    exact ⟨found, hbefore, hfound' ▸ hafter⟩
  others := by
    -- the entries that are left when those of the first key are left out, and then those of the others
    have hsplit : ∀ entries : List (Value × Value),
        (entries.filter fun e => ((name, value) :: rest).all fun u => !isCalled e.1 (.str u.1)) =
          (entries.filter fun e => rest.all fun u => !isCalled e.1 (.str u.1)).filter fun e =>
            !isCalled e.1 (.str name) := fun entries => by simp only [List.all_cons, List.filter_filter]
    have hswap : ∀ entries : List (Value × Value),
        (entries.filter fun e => rest.all fun u => !isCalled e.1 (.str u.1)).filter (fun e => !isCalled e.1 (.str name)) =
          (entries.filter fun e => !isCalled e.1 (.str name)).filter fun e =>
            rest.all fun u => !isCalled e.1 (.str u.1) := fun entries => List.filter_comm _ _ entries
    rw [hsplit after, hsplit before, hrest.others, hswap, hswap, hfirst.others]

/-- Updates of keys given by their names. -/
def named (updates : List (Text × Value)) : List (Value × Value) := updates.map fun u => (.str u.1, u.2)

/-- Updates of a sectioned text, with different names, are a merge into its mapping, if some entry stays where others
    are removed. -/
theorem applyAll_sections {format : Format} (reading : RowReading format Rows) (hkeys : Legible Keys) {keep : Bool}
    {updates : List (Text × Value)} {result : Text} (h : Sectioned Rows Keys names lead sections)
    (hne : sections ≠ []) (hnames : ∀ u ∈ updates, u.1 ∈ names ∧ '\n' ∉ u.1 ∧ u.2.treatment ≠ .merge ∧
      (u.2.treatment ≠ .remove → WritesSection Rows Keys names format keep u.1 u.2))
    (hdifferent : (updates.map (·.1)).Nodup)
    (hstays : (∃ u ∈ updates, u.2.treatment = .remove) →
      ∃ e ∈ rowsOf sections, ∀ u ∈ updates, isCalled e.1 (.str u.1) = false)
    (hrun : (applyAll format keep (named updates) (textOf lead sections)).result = .ok result) :
    ∃ changed, result = textOf lead changed ∧ changed ≠ [] ∧ Sectioned Rows Keys names lead changed ∧
      Merges updates (rowsOf sections) (rowsOf changed) := by
  induction updates generalizing sections with
  | nil =>
    cases hrun
    exact ⟨sections, rfl, hne, h, .nil _⟩
  | cons u rest ih =>
    obtain ⟨hname, hline, hunmerged, hwrites⟩ := hnames u List.mem_cons_self
    rw [List.map_cons, List.nodup_cons] at hdifferent
    rw [named, List.map_cons, applyAll_cons] at hrun
    obtain ⟨between, hfirst, hrun⟩ := Run.bind_eq_ok.mp hrun
    have hclosed := Text.closeLine_of_endsLine (h.endsLine hne)
    obtain ⟨changed, hbetween, hne', h', hrefines⟩ :=
      apply_sections reading hkeys h hne hclosed hname hline (fun ht => absurd ht hunmerged) hwrites hfirst
    have hstay : (∃ t ∈ u :: rest, t.2.treatment = .remove) →
        ∃ e ∈ rowsOf changed, ∀ t ∈ rest, isCalled e.1 (.str t.1) = false := by
      intro hremoves
      obtain ⟨e, he, hnone⟩ := hstays hremoves
      exact ⟨e, hrefines.mem he (hnone u List.mem_cons_self), fun t ht => hnone t (List.mem_cons_of_mem _ ht)⟩
    have hne' : changed ≠ [] := by
      by_cases ht : u.2.treatment = .remove
      · obtain ⟨e, he, -⟩ := hstay ⟨u, List.mem_cons_self, ht⟩
        rintro rfl
        cases he
      · exact hne' ht
    obtain rfl : between = textOf lead changed := by
      rcases hbetween with ⟨rfl, rfl⟩ | rfl <;> rfl
    obtain ⟨last, rfl, hne, h, hmerges⟩ :=
      ih h' hne' (fun t htail => hnames t (List.mem_cons_of_mem _ htail)) hdifferent.2
        (fun ⟨t, htail, ht⟩ => hstay ⟨t, List.mem_cons_of_mem _ htail, ht⟩) hrun
    exact ⟨last, rfl, hne, h, .cons hrefines hmerges fun t htail hsame =>
      hdifferent.1 (List.mem_map.mpr ⟨t, htail, hsame⟩)⟩

end Edit
end YamlSplice
