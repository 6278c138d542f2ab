/-
  YamlSplice.Proofs.Edit.Rows — rows that are written for a key, and rows of simple leaves.

  - `WritesRow`: what is written to set a key are the lines of one row, with a value that agrees.
  - `WritesRow.section`: then it is a section of a text, as edits ask for it.
  - `Leaves.simple_readBy` / `Leaves.simple_locatable`: blocks of simple leaves are read, and any names are located in them.
-/

import YamlSplice.Operations
import YamlSplice.Proofs.Edit.Layout
import YamlSplice.Proofs.Yaml.Unfold

namespace YamlSplice.Layout

open Edit Value

variable {L : Leaves} {names : List Text}

/-! ## Written rows -/

/-- The lines of one row, the first and the last of which are no blank lines. -/
theorem Block.rowLines (hL : L.Locatable names) {ls : List Line} {row : Value × Value} (h : Block L 0 ls (.rows [row]))
    (hfirst : ∀ l ∈ ls.head?, ¬ Skipped l) (hlast : EndsShown ls) : RowLines L ls row := by
  obtain ⟨lead, chunks, rfl, hlead, hchunks⟩ := h.chunks hL
  obtain ⟨⟨own, skips⟩, rfl, hown, hskips⟩ : ∃ c, chunks = [c] ∧ RowLines L c.1 row ∧ ∀ l ∈ c.2, Skipped l := by
    cases hchunks with
    | @cons c _ chunks _ hc hrest =>
      cases hrest
      exact ⟨c, rfl, hc⟩
  obtain rfl : lead = [] := by
    cases lead with
    | nil => rfl
    | cons l lead => exact absurd (hlead l List.mem_cons_self) (hfirst l (by simp))
  simp only [List.nil_append, List.flatMap_cons, List.flatMap_nil, List.append_nil] at hlast ⊢
  refine hown.append hskips ?_
  cases skips with
  | nil => simp [EndsShown]
  | cons l skips => exact fun last hmem => hlast last (by rw [List.getLast?_append, hmem]; rfl)

/-- What is written for a key are the lines of one row, for the key and with a value that agrees. -/
def WritesRow (L : Leaves) (format : Format) (keep : Bool) (name : Text) (value : Value) : Prop :=
  ∀ text, Render.entry format keep (.str name) value = .ok text ∨
      Render.entryKeepingKey format keep name value = .ok text →
    ∃ ls row, text = render ls ∧ Block L 0 ls (.rows [row]) ∧ (∀ l ∈ ls.head?, ¬ Skipped l) ∧ EndsShown ls ∧
      isCalled row.1 (.str name) = true ∧ agrees row.2 value = true

/-- It is enough to know what is written. -/
theorem WritesRow.of_written {format : Format} {keep : Bool} {name : Text} {value : Value} {ls : List Line}
    {row : Value × Value} (hentry : Render.entry format keep (.str name) value = .ok (render ls))
    (hkept : Render.entryKeepingKey format keep name value = .ok (render ls)) (hblock : Block L 0 ls (.rows [row]))
    (hfirst : ∀ l ∈ ls.head?, ¬ Skipped l) (hlast : EndsShown ls) (hcalled : isCalled row.1 (.str name) = true)
    (hagrees : agrees row.2 value = true) : WritesRow L format keep name value := by
  rintro text (htext | htext)
  · rw [hentry] at htext
    exact ⟨ls, row, (Except.ok.inj htext).symm, hblock, hfirst, hlast, hcalled, hagrees⟩
  · rw [hkept] at htext
    exact ⟨ls, row, (Except.ok.inj htext).symm, hblock, hfirst, hlast, hcalled, hagrees⟩

theorem WritesRow.section (hL : L.Locatable names) (hnames : ∀ name ∈ names, Locatable name) {format : Format} {keep : Bool}
    {name : Text} {value : Value} (h : WritesRow L format keep name value) :
    WritesSection (marginRows L) L.Keys names format keep name value := by
  intro text hwritten
  obtain ⟨ls, row, rfl, hblock, hfirst, hlast, hcalled, hagrees⟩ := h text hwritten
  have hlines := hblock.rowLines hL hfirst hlast
  obtain ⟨key, -, -, -, hkey, -⟩ := hlines.cons hL
  obtain ⟨hsound, hshows⟩ := hlines.section hL hnames 0
  exact ⟨row, hsound, hshows, ⟨key, hkey⟩, hcalled, hagrees⟩

/-! ## Simple leaves -/

theorem Leaves.simple_readBy : Leaves.simple.ReadBy Format.yaml := fun h => by
  simp only [Format.yaml, h.read]
  rfl

/-- Any names can be located among simple leaves. -/
theorem Leaves.simple_locatable (names : List Text) : Leaves.simple.Locatable names where
  tidy := simple_tidy
  starts := simple_starts
  fresh {name key} h := by
    obtain ⟨c, rest, rfl, hc⟩ := h.exists_start
    have hne : ∀ y, Yaml.isPlainStart y = false → c ≠ y := fun y hy => Yaml.isPlainStart_ne hc hy
    simp [Region.continues, hne '\n' (by decide), hne '-' (by decide), hne ' ' (by decide), hne '#' (by decide)]
  colon h hmem := Yaml.isPlainChar_ne (h.word.2 _ hmem) (by decide : Yaml.isPlainChar ':' = false) rfl
  bare h c hc := by
    have hblank := Yaml.isBlank_of_isPlainChar (h.word.2 c (List.mem_of_getLast? hc))
    simp [Text.isInlineBlank, hblank]
  text _ h := h.text
  legible := by
    rintro a b ⟨_, ha⟩ ⟨_, hb⟩ hsame
    rw [(same_atom_iff ha.atom hb.atom).mp hsame]
  ended := by
    rintro _ _ _ (⟨_, -, hmore, -⟩ | ⟨_, -, -, rfl, -⟩)
    · exact hmore.getLast_ne_nil
    · simp

theorem Leaves.plain_readBy : Leaves.plain.ReadBy Format.yaml := simple_readBy.within plain_within

theorem Leaves.plain_locatable (names : List Text) : Leaves.plain.Locatable names := (simple_locatable names).within plain_within

theorem isPlainKey_char {c : Char} (h : Yaml.isPlainStart c = true) (hreads : Yaml.Scalar.Reads [c] (.str [c])) :
    Yaml.IsPlainKey [c] (.str [c]) :=
  ⟨⟨by simp, by simpa using Yaml.isPlainChar_of_start h⟩, by simpa using h, by simp, rfl, hreads, rfl⟩

theorem isPhrase_char {c : Char} (h : Yaml.isPlainStart c = true) : Yaml.IsPhrase [c] :=
  Yaml.isPhrase_of_word ⟨by simp, by simpa using Yaml.isPlainChar_of_start h⟩ (by simpa using h)

/-- A row of plain leaves, above other rows. -/
theorem Block.plainRow (hL : Leaves.plain.Within L) {column : Nat} {name first : Text} {key value : Value} {ls : List Line}
    {rows : List (Value × Value)} (hkey : Yaml.IsPlainKey name key) (hfirst : Yaml.IsPhrase first)
    (hreads : Yaml.Scalar.Reads first value) (h : Block L column ls (.rows rows)) :
    Block L column (⟨column, name ++ ':' :: ' ' :: first⟩ :: ls) (.rows ((key, value) :: rows)) :=
  .scalarRow (hL.key hkey) (hL.scalar (Leaves.plain_line hfirst hreads)) (hung_nil column) h

/-- A row of a key and a value of one character each, at the margin. -/
theorem Block.charRow (hL : Leaves.plain.Within L) {c d : Char} {value : Value}
    (hc : Yaml.isPlainStart c = true) (hd : Yaml.isPlainStart d = true)
    (hkey : Yaml.Scalar.Reads [c] (.str [c])) (hvalue : Yaml.Scalar.Reads [d] value) {ls : List Line}
    {rows : List (Value × Value)} (h : Block L 0 ls (.rows rows)) :
    Block L 0 (⟨0, [c, ':', ' ', d]⟩ :: ls) (.rows ((.str [c], value) :: rows)) :=
  .plainRow hL (isPlainKey_char hc hkey) (isPhrase_char hd) hvalue h

end YamlSplice.Layout
