/-
  YamlSplice.Proofs.Reading.Layout — block collections laid out in lines.

  A mapping stands in its rows, a sequence in its items, each on lines of one column. A collection below
  a key is indented further than the key, but a sequence may stand at the column of the key; the first
  line of a collection in a sequence stands behind the mark of its item. How far collections are
  indented is of no account otherwise. What a key and a scalar look like is left to the `Leaves`.
  - `Block.append`: rows may stand below each other.
  - `Block.within`: leaves that are among other leaves make the same blocks.
  - `marginRows_reading`: they are the rows of a reader that reads all blocks.
-/

import YamlSplice.Proofs.Reading.Rows
import YamlSplice.Text.Blank

namespace YamlSplice.Layout

/-- A line without its newline: how far it is indented, and the rest of it. -/
structure Line where
  indent : Nat
  text : Text
  deriving DecidableEq, Repr

/-- The line as it stands, without its newline. -/
def Line.content (l : Line) : Text := List.replicate l.indent ' ' ++ l.text

/-- The text of a line. -/
def Line.render (l : Line) : Text := l.content ++ ['\n']

/-- The text of lines. -/
def render (ls : List Line) : Text := ls.flatMap Line.render

/-- What keys and scalars look like: the text of a key, and a scalar by the rest of its line and by
    its further lines. -/
structure Leaves where
  Key : Text → Value → Prop
  Scalar : (first : Text) → (more : List Text) → Value → Prop

/-- The parts of a block collection. -/
inductive Parts where
  | rows (entries : List (Value × Value))
  | items (values : List Value)

namespace Parts

def value : Parts → Value
  | rows entries => .map (Value.ofPairs entries)
  | items values => .list values

def isEmpty : Parts → Bool
  | rows entries => entries.isEmpty
  | items values => values.isEmpty

/-- A collection may stand at the column `inner` below a key at the column `outer`. -/
def Below (outer inner : Nat) : Parts → Prop
  | rows _ => outer < inner
  | items _ => outer ≤ inner

end Parts

/-- A line without content, or a comment. -/
def Skipped (l : Line) : Prop :=
  l.text = [] ∨ ∃ comment : Text, l.text = '#' :: comment ∧
    ∀ c ∈ comment, Yaml.isAllowed c = true ∧ Yaml.isBreak c = false ∧ c ≠ '\uFEFF'

/-- The further lines of a scalar in a collection at a column. -/
def Hung (column : Nat) (hung : List Line) (more : List Text) : Prop :=
  hung.map Line.text = more ∧ ∀ l ∈ hung, l.text = [] ∨ column < l.indent

theorem hung_nil (column : Nat) : Hung column [] [] := ⟨rfl, by simp⟩

/-- The lines of a block collection at a column. -/
inductive Block (L : Leaves) : Nat → List Line → Parts → Prop where
  | noRows (column : Nat) : Block L column [] (.rows [])
  | noItems (column : Nat) : Block L column [] (.items [])
  | skip {column : Nat} {l : Line} {ls : List Line} {parts : Parts} :
      Skipped l → Block L column ls parts → Block L column (l :: ls) parts
  | scalarRow {column : Nat} {name first : Text} {more : List Text} {key value : Value}
        {hung ls : List Line} {rows : List (Value × Value)} :
      L.Key name key → L.Scalar first more value → Hung column hung more →
      Block L column ls (.rows rows) →
      Block L column (⟨column, name ++ ':' :: ' ' :: first⟩ :: (hung ++ ls)) (.rows ((key, value) :: rows))
  | innerRow {column inner : Nat} {name : Text} {key : Value} {parts : Parts} {block ls : List Line}
        {rows : List (Value × Value)} :
      L.Key name key → parts.isEmpty = false → parts.Below column inner → Block L inner block parts →
      Block L column ls (.rows rows) →
      Block L column (⟨column, name ++ [':']⟩ :: (block ++ ls)) (.rows ((key, parts.value) :: rows))
  | scalarItem {column : Nat} {first : Text} {more : List Text} {value : Value}
        {hung ls : List Line} {values : List Value} :
      L.Scalar first more value → Hung column hung more →
      Block L column ls (.items values) →
      Block L column (⟨column, '-' :: ' ' :: first⟩ :: (hung ++ ls)) (.items (value :: values))
  | innerItem {column : Nat} {first : Text} {parts : Parts} {block ls : List Line} {values : List Value} :
      ¬ Skipped ⟨column + 2, first⟩ → parts.isEmpty = false → Block L (column + 2) (⟨column + 2, first⟩ :: block) parts →
      Block L column ls (.items values) →
      Block L column (⟨column, '-' :: ' ' :: first⟩ :: (block ++ ls)) (.items (parts.value :: values))

/-! ## Blocks below each other -/

theorem Block.append {L : Leaves} {column : Nat} {ls more : List Line} {rows others : List (Value × Value)}
    (h : Block L column ls (.rows rows)) (hmore : Block L column more (.rows others)) :
    Block L column (ls ++ more) (.rows (rows ++ others)) := by
  generalize hparts : Parts.rows rows = parts at h
  induction h generalizing rows with
  | noRows => cases hparts; exact hmore
  | noItems => cases hparts
  | skip hskipped _ ih => exact .skip hskipped (ih hmore hparts)
  | scalarRow hkey hscalar hhung _ ih =>
    cases hparts
    rw [List.cons_append, List.append_assoc]
    exact .scalarRow hkey hscalar hhung (ih hmore rfl)
  | innerRow hkey hne hbelow hblock _ _ ih =>
    cases hparts
    rw [List.cons_append, List.append_assoc]
    exact .innerRow hkey hne hbelow hblock (ih hmore rfl)
  | scalarItem => cases hparts
  | innerItem => cases hparts

/-! ## Leaves among others -/

/-- The keys and scalars of the one are among those of the other. -/
structure Leaves.Within (L M : Leaves) : Prop where
  key {name : Text} {key : Value} : L.Key name key → M.Key name key
  scalar {first : Text} {more : List Text} {value : Value} : L.Scalar first more value → M.Scalar first more value

theorem Leaves.Within.refl (L : Leaves) : L.Within L := ⟨id, id⟩

theorem Block.within {L M : Leaves} (hLM : L.Within M) {column : Nat} {ls : List Line} {parts : Parts}
    (h : Block L column ls parts) : Block M column ls parts := by
  induction h with
  | noRows => exact .noRows _
  | noItems => exact .noItems _
  | skip hskipped _ ih => exact .skip hskipped ih
  | scalarRow hkey hscalar hhung _ ih => exact .scalarRow (hLM.key hkey) (hLM.scalar hscalar) hhung ih
  | innerRow hkey hne hbelow _ _ ihblock ih => exact .innerRow (hLM.key hkey) hne hbelow ihblock ih
  | scalarItem hscalar hhung _ ih => exact .scalarItem (hLM.scalar hscalar) hhung ih
  | innerItem hfirst hne _ _ ihblock ih => exact .innerItem hfirst hne ihblock ih

/-! ## Tidy lines -/

/-- The line holds no newline, and it is empty or starts with something else than a blank. -/
def Tidy (text : Text) : Prop := '\n' ∉ text ∧ (text = [] ∨ ∃ c rest, text = c :: rest ∧ Text.isBlank c = false)

/-- Keys and scalars stand on tidy lines, and no key is empty. -/
structure Leaves.Tidy (L : Leaves) : Prop where
  key {name : Text} {key : Value} : L.Key name key → Layout.Tidy name ∧ name ≠ []
  first {first : Text} {more : List Text} {value : Value} : L.Scalar first more value → '\n' ∉ first
  more {first : Text} {more : List Text} {value : Value} :
    L.Scalar first more value → ∀ text ∈ more, Layout.Tidy text

theorem Skipped.tidy {l : Line} (h : Skipped l) : Layout.Tidy l.text := by
  rcases h with h | ⟨comment, h, hcomment⟩
  · rw [h]
    exact ⟨List.not_mem_nil, Or.inl rfl⟩
  · rw [h]
    refine ⟨fun hmem => ?_, Or.inr ⟨'#', comment, rfl, by decide⟩⟩
    rcases List.mem_cons.mp hmem with hmem | hmem
    · revert hmem; decide
    · have := (hcomment _ hmem).2.1
      revert this; decide

/-- A line that starts with a key is tidy. -/
theorem Leaves.Tidy.key_line {L : Leaves} (hL : L.Tidy) {name rest : Text} {key : Value} (hkey : L.Key name key)
    (hrest : '\n' ∉ rest) : Layout.Tidy (name ++ ':' :: rest) := by
  obtain ⟨⟨hnewline, hname⟩, hne⟩ := hL.key hkey
  obtain ⟨c, more, rfl, hc⟩ := hname.resolve_left hne
  have hcolon : '\n' ≠ ':' := by decide
  refine ⟨?_, Or.inr ⟨c, _, rfl, hc⟩⟩
  simp only [List.mem_append, List.mem_cons, not_or] at hnewline ⊢
  exact ⟨hnewline, hcolon, hrest⟩

theorem tidy_item {first : Text} (h : '\n' ∉ first) : Layout.Tidy ('-' :: ' ' :: first) := by
  refine ⟨?_, Or.inr ⟨'-', _, rfl, by decide⟩⟩
  simp only [List.mem_cons, not_or]
  exact ⟨by decide, by decide, h⟩

theorem Leaves.Tidy.hung {L : Leaves} (hL : L.Tidy) {first : Text} {more : List Text} {value : Value}
    {column : Nat} {hung : List Line} (hscalar : L.Scalar first more value) (hhung : Hung column hung more) :
    ∀ l ∈ hung, Layout.Tidy l.text := fun _ hl =>
  hL.more hscalar _ (hhung.1 ▸ List.mem_map_of_mem hl)

theorem Block.tidy {L : Leaves} (hL : L.Tidy) {column : Nat} {ls : List Line} {parts : Parts}
    (h : Block L column ls parts) : ∀ l ∈ ls, Layout.Tidy l.text := by
  induction h with
  | noRows | noItems => simp
  | skip hskipped _ ih => exact List.forall_mem_cons.mpr ⟨hskipped.tidy, ih⟩
  | scalarRow hkey hscalar hhung _ ih =>
    refine List.forall_mem_cons.mpr ⟨hL.key_line hkey ?_, List.forall_mem_append.mpr ⟨hL.hung hscalar hhung, ih⟩⟩
    simpa using hL.first hscalar
  | innerRow hkey _ _ _ _ ihblock ih =>
    exact List.forall_mem_cons.mpr ⟨hL.key_line hkey List.not_mem_nil, List.forall_mem_append.mpr ⟨ihblock, ih⟩⟩
  | scalarItem hscalar hhung _ ih =>
    exact List.forall_mem_cons.mpr ⟨tidy_item (hL.first hscalar),
      List.forall_mem_append.mpr ⟨hL.hung hscalar hhung, ih⟩⟩
  | innerItem _ _ _ _ ihblock ih =>
    obtain ⟨hfirst, hblock⟩ := List.forall_mem_cons.mp ihblock
    exact List.forall_mem_cons.mpr ⟨tidy_item hfirst.1, List.forall_mem_append.mpr ⟨hblock, ih⟩⟩

/-! ## Texts of blocks -/

theorem render_cons (l : Line) (ls : List Line) :
    render (l :: ls) = List.replicate l.indent ' ' ++ l.text ++ '\n' :: render ls := by
  simp [render, Line.render, Line.content]

theorem Line.newline_not_mem {l : Line} (h : Layout.Tidy l.text) : '\n' ∉ l.content := by
  rw [Line.content, List.mem_append, not_or]
  exact ⟨fun hmem => absurd (List.eq_of_mem_replicate hmem) (by decide), h.1⟩

theorem lines_render {ls : List Line} (h : ∀ l ∈ ls, Layout.Tidy l.text) :
    Text.lines (render ls) = ls.map Line.content ++ [[]] := by
  induction ls with
  | nil => rfl
  | cons l ls ih =>
    obtain ⟨hl, hls⟩ := List.forall_mem_cons.mp h
    rw [render_cons, ← Line.content, Text.lines, Text.pieces_append_cons (Line.newline_not_mem hl), List.map_cons, List.cons_append, ← ih hls]
    rfl

theorem unlines_content (ls : List Line) (last : Text) :
    Text.unlines (ls.map Line.content ++ [last]) = render ls ++ last := by
  induction ls with
  | nil => rfl
  | cons l ls ih =>
    rw [render_cons, ← Line.content, List.append_assoc, List.cons_append, ← ih]
    cases ls <;> simp [Text.unlines, Text.glue]

/-- A text is changed line by line. -/
theorem unlines_map_render {ls : List Line} {f : Text → Text} {g : Line → Line} (h : ∀ l ∈ ls, Layout.Tidy l.text)
    (hf : ∀ l ∈ ls, f l.content = (g l).content) (hlast : f [] = []) :
    Text.unlines ((Text.lines (render ls)).map f) = render (ls.map g) := by
  have hmap : (ls.map Line.content).map f = (ls.map g).map Line.content := by
    rw [List.map_map, List.map_map]
    exact List.map_congr_left fun l hl => hf l hl
  rw [lines_render h, List.map_append, hmap, List.map_singleton, hlast, unlines_content, List.append_nil]

theorem render_append (ls more : List Line) : render (ls ++ more) = render ls ++ render more :=
  List.flatMap_append

/-- The rows of a text by the leaves they are made of. -/
def marginRows (L : Leaves) : RowText := fun text rows => ∃ ls, text = render ls ∧ Block L 0 ls (.rows rows)

/-- All block collections at the margin are read as the value of their parts. -/
def Leaves.ReadBy (L : Leaves) (format : Format) : Prop := ∀ {ls : List Line} {parts : Parts}, Block L 0 ls parts →
  format.read (render ls) = .ok (if parts.isEmpty then .null else parts.value)

theorem Leaves.ReadBy.within {L M : Leaves} {format : Format} (hLM : L.Within M) (h : M.ReadBy format) : L.ReadBy format :=
  fun hblock => h (hblock.within hLM)

/-- Rows may stand below each other, and they are read as a mapping if all blocks are. -/
theorem marginRows_reading {L : Leaves} {format : Format} (hreads : L.ReadBy format) : RowReading format (marginRows L) where
  read {text rows} h := by
    obtain ⟨ls, rfl, hblock⟩ := h
    refine ⟨_, hreads hblock, ?_⟩
    cases rows with
    | nil => exact Or.inr ⟨rfl, rfl⟩
    | cons row rows => exact Or.inl rfl
  append h hmore _ := by
    obtain ⟨ls, rfl, hblock⟩ := h
    obtain ⟨more, rfl, hmore⟩ := hmore
    exact ⟨ls ++ more, (render_append ls more).symm, hblock.append hmore⟩

end YamlSplice.Layout
