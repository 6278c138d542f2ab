/-
  YamlSplice.Proofs.Writing.Block — values written as block layouts, and their list marks moved to the left.

  A value is `Writable` if its scalars and keys are written plain on one line, and what is in its lists keeps its place
  when the list marks are moved. Only the lines of the marks move: a mapping in a list, the mark of which is moved, must
  not have lines of a second entry, and a list in a list must move along. Empty collections stand on the line of their
  key or their mark, in brackets.
  - `writable_int`, `writable_float`, `writable_bool` and `writable_null`: integers, floating-point numbers, truth values
    and the absent value are writable.
  - `Writable.written`: a writable value is written as the lines of a block, and these are read as the value after the
    marks are moved. The induction is on the value, with the column as the invariant.
  - `read_written`: what is written for a writable value is read as the value, and an entry as a mapping of one entry.
  - `list_marks_moved_alone`: other mappings and lists in lists are torn apart.
-/

import YamlSplice.Proofs.Writing.Marks
import YamlSplice.Proofs.Writing.Page
import YamlSplice.Proofs.Yaml.Floating

namespace YamlSplice

namespace Yaml

/-- Text that other programs read as text is read as text. -/
theorem IsPlain.reads {text : Text} (h : IsPlain .str text) : Scalar.Reads text (.str text) := by
  have htag : Tag.ofPlain boolWords text = .str := by
    have hbroad := h.tag
    unfold Tag.ofPlain at hbroad ⊢
    by_cases hempty : text.isEmpty = true
    · rw [if_pos hempty] at hbroad
      cases hbroad
    · rw [if_neg hempty] at hbroad ⊢
      by_cases hword : broadBoolWords.contains (dropFinalNewline text) = true
      · simp only [if_pos hword] at hbroad
        cases hbroad
      · have hfewer : ¬ boolWords.contains (dropFinalNewline text) = true := fun hfewer =>
          hword (List.contains_iff_mem.mpr (List.mem_append_right _ (List.contains_iff_mem.mp hfewer)))
        simp only [if_neg hword] at hbroad
        simp only [if_neg hfewer]
        exact hbroad
  rw [Scalar.Reads, htag]
  rfl

end Yaml

namespace Layout

open Yaml Value

/-! ## Places of collections -/

/-- Where a collection that was written at a column stands afterwards. -/
def Parts.home (keep : Bool) (column : Nat) : Parts → Nat
  | rows _ => column
  | items _ => column - shift keep column

/-- A collection that was written at a column may be read at another one: where it stands afterwards, and a single row
    at any column to the left, since what is below its key stays to the right of it. -/
def Parts.Shown (keep : Bool) (column shown : Nat) (parts : Parts) : Prop :=
  shown = parts.home keep column ∨ shown ≤ column ∧ ∃ row, parts = .rows [row]

/-- Behind a list mark at a column the value keeps its place when the mark is moved: the lines of a list move as far as
    the mark, those of a mapping do not move at all. -/
def Trails (keep : Bool) (column : Nat) : Value → Prop
  | .list values => values = [] ∨ shift keep (column + 2) = shift keep column
  | .map entries => shift keep column = 0 ∨ entries.length ≤ 1
  | _ => True

/-! ## Writable values -/

/-- A scalar of one of the plain types, as it is written. -/
def scalarText? : Value → Option (Tag × Text)
  | .null => some (.null, "null".toList)
  | .bool b => some (.bool, if b then "true".toList else "false".toList)
  | .int n => some (.int, Text.ofInt n)
  | .float x => some (.float, Outline.floatText x)
  | .str text => some (.str, text)
  | _ => none

/-- A key that is written plain on the line of its colon, and is read as it stands. -/
structure IsWrittenKey (name : Text) : Prop where
  key : IsPlainKey name (.str name)
  plain : IsPlain .str name
  short : name.length < 123

theorem IsWrittenKey.no_mark {name : Text} (h : IsWrittenKey name) (more rest : Text) :
    name ++ ':' :: more ≠ '-' :: ' ' :: rest := by
  obtain ⟨c, tail, rfl, hc⟩ := h.key.exists_start
  have hhyphen := isPlainStart_ne hc (by decide : isPlainStart '-' = false)
  simp [hhyphen]

/-- The value is written plain where a collection would stand at `column`, and a scalar would start at `start`. -/
inductive Writable (keep : Bool) : (column start : Nat) → Value → Prop where
  | scalar {column start : Nat} {value : Value} {tag : Tag} {text : Text} :
      scalarText? value = some (tag, text) → IsPhrase text → IsPlain tag text → Scalar.Reads text value →
      Page.Unfolded true start text → Writable keep column start value
  | list {column start : Nat} {values : List Value} :
      (∀ value ∈ values, Trails keep column value) →
      (∀ value ∈ values, Writable keep (column + 2) (column + 2) value) → Writable keep column start (.list values)
  | map {column start : Nat} {entries : List (Value × Value)} :
      (∀ e ∈ entries, ∃ name, e.1 = .str name ∧ IsWrittenKey name) →
      entries.Pairwise (fun a b => a.1 ≠ b.1) →
      (∀ e ∈ entries, Writable keep (column + 2) (column + (keyText e.1).length + 2) e.2) →
      Writable keep column start (.map entries)

theorem Writable.of_spaceless {keep : Bool} {column start : Nat} {value : Value} {tag : Tag} {text : Text}
    (hvalue : scalarText? value = some (tag, text)) (hphrase : IsPhrase text) (hplain : IsPlain tag text)
    (hreads : Scalar.Reads text value) (hspaces : ' ' ∉ text) : Writable keep column start value :=
  .scalar hvalue hphrase hplain hreads fun _ => Or.inl hspaces

/-- A word that starts as a number is written plain if it is no scalar of another type. -/
theorem isPlain_of_startsNumber {tag : Tag} {text : Text} (hword : IsKeyWord text) (hstarts : startsNumber text = true)
    (htag : Tag.ofPlain broadBoolWords text = tag) : IsPhrase text ∧ IsPlain tag text := by
  have hother : ∀ lead rest : Text, startsNumber (lead ++ rest) = false → text ≠ lead ++ rest := by
    rintro lead rest hlead rfl
    rw [hstarts] at hlead
    cases hlead
  have hphrase : IsPhrase text := hword.isPhrase (hother ['-'] [] rfl)
  have hmark : ∀ lead : Text, (∀ rest, startsNumber (lead ++ rest) = false) → Text.startsWith text lead = false := by
    refine fun lead hlead => Bool.eq_false_iff.mpr fun hfound => ?_
    obtain ⟨rest, hrest⟩ := Text.startsWith_iff.mp hfound
    exact hother lead rest (hlead rest) hrest
  have htop : Char.ofNat 0x10FFFF ∉ text := hword.not_mem (by decide)
  exact ⟨hphrase, hword.ne_nil,
    Style.traits_plain hphrase (hmark ['-', '-', '-'] fun _ => rfl) (hmark ['.', '.', '.'] fun _ => rfl) htop, htag⟩

theorem writable_of_startsNumber {keep : Bool} {column start : Nat} {value : Value} {tag : Tag} {text : Text}
    (hvalue : scalarText? value = some (tag, text)) (hword : IsKeyWord text) (hstarts : startsNumber text = true)
    (htag : Tag.ofPlain broadBoolWords text = tag) (hreads : Scalar.Reads text value) : Writable keep column start value :=
  have hplain := isPlain_of_startsNumber hword hstarts htag
  .of_spaceless hvalue hplain.1 hplain.2 hreads (hword.not_mem (by decide))

/-- Every integer is written plain. -/
theorem writable_int {keep : Bool} {column start : Nat} (n : Int) : Writable keep column start (.int n) :=
  writable_of_startsNumber rfl (isKeyWord_ofInt n) (startsNumber_ofInt n) (ofPlain_ofInt (by decide) n) (Scalar.reads_ofInt n)

/-- A value is written by a plain word if the word is read as the value. -/
theorem writable_word {keep : Bool} {column start : Nat} {value : Value} {tag : Tag} {word : Text}
    (hvalue : scalarText? value = some (tag, word)) (hword : (!word.isEmpty && word.all isKeyChar && word != ['-']) = true)
    (hplain : (Style.traits word).plain = true) (htag : Tag.ofPlain broadBoolWords word = tag)
    (hreads : Scalar.Reads word value) : Writable keep column start value := by
  simp only [Bool.and_eq_true, Bool.not_eq_true', List.isEmpty_eq_false_iff, List.all_eq_true, bne_iff_ne] at hword
  have hkey : IsKeyWord word := ⟨hword.1.1, hword.1.2⟩
  exact .of_spaceless hvalue (hkey.isPhrase hword.2) ⟨hword.1.1, hplain, htag⟩ hreads (hkey.not_mem (by decide))

/-- Every floating-point number is written plain, also what is infinite or no number. -/
theorem writable_float {keep : Bool} {column start : Nat} (x : Float) : Writable keep column start (.float x) := by
  rcases Outline.floatText_cases x with ⟨htext, rfl⟩ | ⟨htext, rfl⟩ | ⟨htext, rfl⟩ | hpointed
  · exact writable_word (congrArg (fun text => some (Tag.float, text)) htext) (by decide) rfl rfl rfl
  · exact writable_word (congrArg (fun text => some (Tag.float, text)) htext) (by decide) rfl rfl rfl
  · exact writable_word (congrArg (fun text => some (Tag.float, text)) htext) (by decide) rfl rfl rfl
  · exact writable_of_startsNumber rfl (isKeyWord_of_isPointed hpointed) (startsNumber_of_isPointed hpointed)
      (tag_of_isPointed (by decide) hpointed) (Scalar.reads_of_isPointed hpointed)

/-- A truth value is written by a plain word. -/
theorem writable_bool {keep : Bool} {column start : Nat} (b : Bool) : Writable keep column start (.bool b) := by
  cases b <;> exact writable_word rfl (by decide) rfl rfl rfl

/-- The absent value is written by a plain word. -/
theorem writable_null {keep : Bool} {column start : Nat} : Writable keep column start .null :=
  writable_word rfl (by decide) rfl rfl rfl

/-! ## Compact blocks -/

/-- A block of simple leaves without comments and blank lines. -/
structure Compact (column : Nat) (ls : List Line) (parts : Parts) : Prop where
  block : Block Leaves.simple column ls parts
  shown : ∀ l ∈ ls, ¬ Skipped l

theorem Compact.scalarItem {column : Nat} {text : Text} {value : Value} {ls : List Line} {values : List Value}
    (hleaf : Leaves.simple.Scalar text [] value) (h : Compact column ls (.items values)) :
    Compact column (⟨column, '-' :: ' ' :: text⟩ :: ls) (.items (value :: values)) where
  block := .scalarItem hleaf (hung_nil column) h.block
  shown := List.forall_mem_cons.mpr ⟨not_skipped_item column text, h.shown⟩

theorem Compact.innerItem {column : Nat} {first : Text} {parts : Parts} {block ls : List Line} {values : List Value}
    (hne : parts.isEmpty = false) (hblock : Compact (column + 2) (⟨column + 2, first⟩ :: block) parts)
    (h : Compact column ls (.items values)) :
    Compact column (⟨column, '-' :: ' ' :: first⟩ :: (block ++ ls)) (.items (parts.value :: values)) := by
  obtain ⟨hfirst, hshown⟩ := List.forall_mem_cons.mp hblock.shown
  exact ⟨.innerItem hfirst hne hblock.block h.block,
    List.forall_mem_cons.mpr ⟨not_skipped_item column first, List.forall_mem_append.mpr ⟨hshown, h.shown⟩⟩⟩

theorem not_skipped_row {name : Text} {key : Value} (hkey : IsPlainKey name key) (column : Nat) (rest : Text) :
    ¬ Skipped ⟨column, name ++ ':' :: rest⟩ := (Leaves.simple_locatable [name]).shown hkey column rest

theorem Compact.scalarRow {column : Nat} {name text : Text} {key value : Value} {ls : List Line}
    {rows : List (Value × Value)} (hkey : IsPlainKey name key) (hleaf : Leaves.simple.Scalar text [] value)
    (h : Compact column ls (.rows rows)) :
    Compact column (⟨column, name ++ ':' :: ' ' :: text⟩ :: ls) (.rows ((key, value) :: rows)) where
  block := .scalarRow (L := Leaves.simple) hkey hleaf (hung_nil column) h.block
  shown := List.forall_mem_cons.mpr ⟨not_skipped_row hkey column _, h.shown⟩

theorem Compact.innerRow {column inner : Nat} {name : Text} {key : Value} {parts : Parts} {block ls : List Line}
    {rows : List (Value × Value)} (hkey : IsPlainKey name key) (hne : parts.isEmpty = false)
    (hbelow : parts.Below column inner) (hblock : Compact inner block parts) (h : Compact column ls (.rows rows)) :
    Compact column (⟨column, name ++ [':']⟩ :: (block ++ ls)) (.rows ((key, parts.value) :: rows)) where
  block := .innerRow (L := Leaves.simple) hkey hne hbelow hblock.block h.block
  shown := List.forall_mem_cons.mpr
    ⟨not_skipped_row hkey column [], List.forall_mem_append.mpr ⟨hblock.shown, h.shown⟩⟩

/-! ## Written nodes -/

/-- Written at a column, the lines are those of a block of which the first starts with these characters. -/
def WritesLines (column : Nat) (write : Write.Sheet → Write.Sheet) (first : Text) (block : List Line) : Prop :=
  ∀ (s : Write.Sheet) (text : Text), (s.page.indentTo column).At column text →
    (write s).page.Ends (text ++ (first ++ '\n' :: render block))

/-- Written below other lines, these lines are added to them. -/
def WritesBelow (write : Write.Sheet → Write.Sheet) (ls : List Line) : Prop :=
  ∀ (s : Write.Sheet) (lines : Text), s.page.Ends lines → (write s).page.Ends (lines ++ render ls)

theorem WritesLines.below {column : Nat} {write : Write.Sheet → Write.Sheet} {first : Text} {block : List Line}
    (h : WritesLines column write first block) : WritesBelow write (⟨column, first⟩ :: block) := by
  intro s lines hs
  have hbelow := h s _ (hs.indentTo column)
  rw [render_cons]
  simpa using hbelow

/-- The parts of a collection are written one below the other. -/
theorem WritesLines.append {column : Nat} {write more : Write.Sheet → Write.Sheet} {first : Text} {block ls : List Line}
    (h : WritesLines column write first block) (hmore : WritesBelow more ls) :
    WritesLines column (more ∘ write) first (block ++ ls) := by
  intro s text hs
  have hbelow := hmore _ _ (h s text hs)
  simpa [render_append] using hbelow

/-- A collection has no parts. -/
def isFlat : Value → Bool
  | .list values => values.isEmpty
  | .map entries => entries.isEmpty
  | _ => true

/-- A node that is written on the line where it starts, if it starts at the column. -/
structure WritesLeaf (start : Nat) (value : Value) (o : Outline) (text : Text) : Prop where
  flat : isFlat value = true
  leaf : Leaves.simple.Scalar text [] value
  writes {s : Write.Sheet} {indent : Nat} : s.page.spaced = false → s.page.openEnded = false →
    s.page.column + 1 = start →
    (Write.node [] ⟨some indent, false⟩ o s).page.Ends (s.page.text ++ ' ' :: (text ++ ['\n']))

/-- A node that is written as the lines of a block, the list marks of which are moved. -/
structure WritesBlock (keep : Bool) (column : Nat) (value : Value) (o : Outline) (first : Text) (block : List Line)
    (parts : Parts) : Prop where
  holds : parts.value = value
  rows {entries : List (Value × Value)} : value = .map entries → parts = .rows entries
  trails {outer : Nat} : outer + 2 = column → Trails keep outer value → parts.Shown keep column (outer - shift keep outer + 2)
  ne : parts.isEmpty = false
  writes {place : Write.Place} : Write.inner place.indent = column → WritesLines column (Write.node [] place o) first block
  reads {shown : Nat} : parts.Shown keep column shown →
    Compact shown (⟨shown, first⟩ :: block.map (Line.align keep)) parts
  moved : Line.align keep ⟨column, first⟩ = ⟨parts.home keep column, first⟩

/-- The node of a value is written as lines that are read as the value. -/
structure Written (keep : Bool) (column start : Nat) (value : Value) (o : Outline) : Prop where
  outline (labels : List Nat) : (Outline.ofValue value).run labels = .ok (o, labels)
  unshared (s : Outline.Sharing) : o.meet s = s
  plain : Render.plain value = value
  node : (∃ text, WritesLeaf start value o text) ∨ ∃ first block parts, WritesBlock keep column value o first block parts

/-- The nodes of an entry: the key is written plain, and the value below it or behind it. -/
def WrittenEntry (keep : Bool) (column : Nat) (e : Value × Value) (o : Outline × Outline) : Prop :=
  ∃ name, e.1 = .str name ∧ o.1 = .plain .str name ∧ IsWrittenKey name ∧
    Written keep (column + 2) (column + name.length + 2) e.2 o.2

section

variable {keep : Bool} {column start : Nat}

theorem written_scalar {value : Value} {tag : Tag} {text : Text} (hvalue : scalarText? value = some (tag, text))
    (hphrase : IsPhrase text) (hplain : IsPlain tag text) (hreads : Scalar.Reads text value)
    (hfold : Page.Unfolded true start text) : Written keep column start value (.plain tag text) where
  outline labels := by
    cases value <;> cases hvalue
    all_goals rfl
  unshared s := rfl
  plain := by
    cases value <;> cases hvalue
    all_goals rfl
  node := by
    have hflat : isFlat value = true := by
      cases value <;> cases hvalue
      all_goals rfl
    refine Or.inl ⟨text, hflat, Or.inl (Leaves.plain_line hphrase hreads), fun {s indent} hspaced hopen hstart => ?_⟩
    have hnode : (Write.node [] ⟨some indent, false⟩ (.plain tag text) s).page = s.page.plain true (indent + 2) text :=
      Write.scalar_plain hplain indent false s.page
    rw [hnode]
    exact Page.plain_apart hspaced hopen hplain.ne_nil (hstart ▸ hfold)

/-- A list without items stands in brackets. -/
theorem written_list_nil : Written keep column start (.list []) (.sequence []) where
  outline _ := rfl
  unshared _ := rfl
  plain := rfl
  node := Or.inl ⟨_, rfl, Or.inr ⟨.items [], rfl, rfl, rfl, rfl⟩,
    fun hspaced _ _ => Page.brackets_apart hspaced '[' ']'⟩

/-- A mapping without entries stands in braces. -/
theorem written_map_nil : Written keep column start (.map []) (.mapping false [] none) where
  outline _ := rfl
  unshared _ := rfl
  plain := rfl
  node := Or.inl ⟨_, rfl, Or.inr ⟨.rows [], rfl, rfl, rfl, rfl⟩,
    fun hspaced _ _ => Page.brackets_apart hspaced '\x7b' '\x7d'⟩

/-- One item of a list. -/
theorem Written.item {value : Value} {o : Outline} (h : Written keep (column + 2) (column + 2) value o)
    (htrails : Trails keep column value) :
    ∃ more block, WritesLines column (Write.sequence [] column [o]) ('-' :: ' ' :: more) block ∧
      ∀ {ls : List Line} {values : List Value}, Compact (column - shift keep column) ls (.items values) →
        Compact (column - shift keep column)
          (⟨column - shift keep column, '-' :: ' ' :: more⟩ :: (block.map (Line.align keep) ++ ls))
          (.items (value :: values)) := by
  rcases h.node with ⟨text, hleaf⟩ | ⟨first, block, parts, hblock⟩
  · refine ⟨text, [], fun s pre hs => ?_, fun {ls values} hls => ?_⟩
    · have hmark := hs.mark
      have hnode := @WritesLeaf.writes _ _ _ _ hleaf { s with page := (s.page.indentTo column).mark ['-'] } column
        hmark.spaced hmark.openEnded (by rw [hmark.column])
      rw [hmark.text] at hnode
      simpa [Write.sequence, render] using hnode
    · exact .scalarItem hleaf.leaf hls
  · refine ⟨first, block, fun s pre hs => ?_, fun {ls values} hls => ?_⟩
    · have hmark := hs.mark
      have hnode := @WritesBlock.writes _ _ _ _ _ _ _ hblock ⟨some column, false⟩ rfl
        { s with page := (s.page.indentTo column).mark ['-'] } _ hmark.indentTo
      simpa [Write.sequence] using hnode
    · have hitem := Compact.innerItem hblock.ne (hblock.reads (hblock.trails rfl htrails)) hls
      rwa [hblock.holds] at hitem

/-- The node of a key, its colon, and the node of its value. -/
theorem mapping_row {name : Text} {o : Outline} (hkey : IsWrittenKey name) {s : Write.Sheet} {text : Text}
    (hs : (s.page.indentTo column).At column text) :
    ∃ s' : Write.Sheet, s'.page.Behind (column + name.length + 1) (text ++ (name ++ [':'])) ∧
      Write.mapping [] column [(.plain .str name, o)] s = Write.node [] ⟨some column, false⟩ o s' := by
  have htag : (Write.tagText .str).length = 5 := by decide
  have hsimple := Write.isSimpleKey_plain hkey.plain (by rw [htag]; have := hkey.short; omega)
    { s with page := s.page.indentTo column }
  have hnode : (Write.node [] ⟨some column, true⟩ (.plain .str name) { s with page := s.page.indentTo column }).page =
      (s.page.indentTo column).plain false (column + 2) name :=
    Write.scalar_plain hkey.plain column true (s.page.indentTo column)
  have hwritten : ((s.page.indentTo column).plain false (column + 2) name).Behind (column + name.length) (text ++ name) :=
    Page.plain_at hs hkey.plain.ne_nil (by simp [Page.Unfolded])
  have hbehind := hwritten.close
  rw [← hnode, List.append_assoc] at hbehind
  let key := Write.node [] ⟨some column, true⟩ (.plain .str name) { s with page := s.page.indentTo column }
  refine ⟨{ key with page := key.page.close [':'] }, hbehind, ?_⟩
  rw [Write.mapping, hsimple, Write.mapping]
  rfl

/-- One row of a mapping. -/
theorem Written.row {name : Text} {value : Value} {o : Outline} (hkey : IsWrittenKey name)
    (h : Written keep (column + 2) (column + name.length + 2) value o) :
    ∃ more block, WritesLines column (Write.mapping [] column [(.plain .str name, o)]) (name ++ ':' :: more) block ∧
      ∀ {shown : Nat} {ls : List Line} {rows : List (Value × Value)}, shown ≤ column →
        Compact shown ls (.rows rows) →
        Compact shown (⟨shown, name ++ ':' :: more⟩ :: (block.map (Line.align keep) ++ ls))
          (.rows ((.str name, value) :: rows)) := by
  rcases h.node with ⟨text, hleaf⟩ | ⟨first, block, parts, hblock⟩
  · refine ⟨' ' :: text, [], fun s pre hs => ?_, fun {shown ls rows} _ hls => ?_⟩
    · obtain ⟨s', hbehind, hrow⟩ := mapping_row (o := o) hkey hs
      have hnode := @WritesLeaf.writes _ _ _ _ hleaf s' column hbehind.spaced hbehind.openEnded (by rw [hbehind.column])
      rw [hbehind.text] at hnode
      rw [hrow]
      simpa [render] using hnode
    · exact .scalarRow hkey.key hleaf.leaf hls
  · refine ⟨[], ⟨column + 2, first⟩ :: block, fun s pre hs => ?_, fun {shown ls rows} hle hls => ?_⟩
    · obtain ⟨s', hbehind, hrow⟩ := mapping_row (o := o) hkey hs
      have hends : s'.page.Ends (pre ++ (name ++ [':']) ++ ['\n']) := ⟨_, _, hbehind, rfl⟩
      have hnode := (@WritesBlock.writes _ _ _ _ _ _ _ hblock ⟨some column, false⟩ rfl).below s' _ hends
      rw [hrow]
      simpa using hnode
    · have hbelow : parts.Below shown (parts.home keep (column + 2)) := by
        cases parts with
        | rows rows => exact Nat.lt_of_le_of_lt hle (by simp [Parts.home])
        | items values =>
          have hshift := shift_le_two keep (column + 2)
          simp only [Parts.Below, Parts.home]
          omega
      have hrow := Compact.innerRow hkey.key hblock.ne hbelow (hblock.reads (Or.inl rfl)) hls
      rw [hblock.holds] at hrow
      rw [List.map_cons, hblock.moved]
      exact hrow

/-! ## Written collections -/

theorem exists_forall₂ {α β : Type} {R : α → β → Prop} {xs : List α} (h : ∀ x ∈ xs, ∃ y, R x y) :
    ∃ ys, List.Forall₂ R xs ys := by
  induction xs with
  | nil => exact ⟨[], .nil⟩
  | cons x xs ih =>
    obtain ⟨hx, hxs⟩ := List.forall_mem_cons.mp h
    obtain ⟨y, hy⟩ := hx
    obtain ⟨ys, hys⟩ := ih hxs
    exact ⟨y :: ys, .cons hy hys⟩

theorem sequence_cons (column : Nat) (o : Outline) (os : List Outline) :
    Write.sequence [] column (o :: os) = Write.sequence [] column os ∘ Write.sequence [] column [o] := rfl

theorem mapping_cons (column : Nat) (o : Outline × Outline) (os : List (Outline × Outline)) :
    Write.mapping [] column (o :: os) = Write.mapping [] column os ∘ Write.mapping [] column [o] := rfl

/-- The items of a list below other lines. -/
theorem items_below {values : List Value} {os : List Outline}
    (h : List.Forall₂ (Written keep (column + 2) (column + 2)) values os)
    (htrails : ∀ value ∈ values, Trails keep column value) :
    ∃ ls, WritesBelow (Write.sequence [] column os) ls ∧
      Compact (column - shift keep column) (ls.map (Line.align keep)) (.items values) := by
  induction h with
  | nil => exact ⟨[], fun s lines hs => by simpa [Write.sequence, render] using hs, .noItems _, by simp⟩
  | @cons value o values os hvalue _ ih =>
    obtain ⟨hfirst, hrest⟩ := List.forall_mem_cons.mp htrails
    obtain ⟨ls, hbelow, hls⟩ := ih hrest
    obtain ⟨more, block, hwrites, hitem⟩ := hvalue.item hfirst
    refine ⟨_, (hwrites.append hbelow).below, ?_⟩
    rw [List.map_cons, Line.align_item, List.map_append]
    exact hitem hls

/-- The rows of a mapping below other lines. -/
theorem rows_below {entries : List (Value × Value)} {os : List (Outline × Outline)}
    (h : List.Forall₂ (WrittenEntry keep column) entries os) :
    ∃ ls, WritesBelow (Write.mapping [] column os) ls ∧ (entries = [] → ls = []) ∧
      Compact column (ls.map (Line.align keep)) (.rows entries) := by
  induction h with
  | nil => exact ⟨[], fun s lines hs => by simpa [Write.mapping, render] using hs, fun _ => rfl, .noRows _, by simp⟩
  | @cons e o entries os hentry _ ih =>
    obtain ⟨ls, hbelow, -, hls⟩ := ih
    obtain ⟨name, hname, ho, hkey, hvalue⟩ := hentry
    obtain ⟨more, block, hwrites, hrow⟩ := hvalue.row hkey
    rw [← ho] at hwrites
    refine ⟨_, (hwrites.append hbelow).below, fun hnil => absurd hnil (List.cons_ne_nil e entries), ?_⟩
    rw [List.map_cons, Line.align_other (hkey.no_mark more), List.map_append]
    have := hrow (Nat.le_refl _) hls
    rwa [← hname] at this

theorem outline_items {values : List Value} {os : List Outline} {c d : Nat}
    (h : List.Forall₂ (Written keep c d) values os) :
    (∀ labels, (Outline.ofItems values).run labels = .ok (os, labels)) ∧ (∀ s, Outline.meetItems os s = s) ∧
      Render.plainItems values = values := by
  induction h with
  | nil => exact ⟨fun _ => rfl, fun _ => rfl, rfl⟩
  | @cons value o values os hvalue _ ih =>
    obtain ⟨houtlines, hunshared, hplain⟩ := ih
    refine ⟨fun labels => ?_, fun s => ?_, ?_⟩
    · simp only [Outline.ofItems, bind_pure_comp, StateT.run_bind, hvalue.outline, StateT.run_map, houtlines, Except.map_ok]
      rfl
    · rw [Outline.meetItems, hvalue.unshared, hunshared]
    · rw [Render.plainItems, hvalue.plain, hplain]

theorem outline_entries {entries : List (Value × Value)} {os : List (Outline × Outline)}
    (h : List.Forall₂ (WrittenEntry keep column) entries os) :
    (∀ labels, (Outline.ofEntries entries).run labels = .ok (os, labels)) ∧ (∀ s, Outline.meetEntries os s = s) ∧
      Render.plainEntries entries = entries := by
  induction h with
  | nil => exact ⟨fun _ => rfl, fun _ => rfl, rfl⟩
  | @cons e o entries os hentry _ ih =>
    obtain ⟨key, value⟩ := e
    obtain ⟨keyNode, node⟩ := o
    obtain ⟨name, rfl, rfl, hkey, hvalue⟩ := hentry
    obtain ⟨houtlines, hunshared, hplain⟩ := ih
    refine ⟨fun labels => ?_, fun s => ?_, ?_⟩
    · simp only [Outline.ofEntries, Outline.ofValue, bind_pure_comp, pure_bind, StateT.run_bind, hvalue.outline,
        StateT.run_map, houtlines, Except.map_ok]
      rfl
    · rw [Outline.meetEntries, hvalue.unshared, hunshared]
      rfl
    · rw [Render.plainEntries, hvalue.plain, hplain]

theorem written_list {values : List Value} {os : List Outline}
    (h : List.Forall₂ (Written keep (column + 2) (column + 2)) values os)
    (htrails : ∀ value ∈ values, Trails keep column value) : Written keep column start (.list values) (.sequence os) := by
  obtain ⟨houtlines, hunshared, hplain⟩ := outline_items h
  cases h with
  | nil => exact written_list_nil
  | @cons value o values os hvalue hvalues =>
    refine ⟨fun labels => ?_, fun s => ?_, ?_, Or.inr ?_⟩
    · simp [Outline.ofValue, houtlines]
    · rw [Outline.meet, hunshared]
    · rw [Render.plain, hplain]
    · obtain ⟨hfirst, hrest⟩ := List.forall_mem_cons.mp htrails
      obtain ⟨ls, hbelow, hls⟩ := items_below hvalues hrest
      obtain ⟨more, block, hwrites, hitem⟩ := hvalue.item hfirst
      have hlines := hwrites.append hbelow
      refine ⟨'-' :: ' ' :: more, block ++ ls, .items (value :: values), rfl, fun hmap => (by cases hmap), ?_, rfl, ?_, ?_, rfl⟩
      · rintro outer rfl (hnil | hsame)
        · cases hnil
        · have hle := shift_le keep outer
          exact Or.inl (by simp only [Parts.home]; omega)
      · rintro place rfl s text hs
        rw [Write.node, if_neg (by simp), sequence_cons]
        exact hlines s text hs
      · rintro shown (rfl | ⟨-, row, hrow⟩)
        · rw [List.map_append]
          exact hitem hls
        · cases hrow

theorem written_map {entries : List (Value × Value)} {os : List (Outline × Outline)}
    (h : List.Forall₂ (WrittenEntry keep column) entries os) (hpairs : ofPairs entries = entries) :
    Written keep column start (.map entries) (.mapping false os none) := by
  obtain ⟨houtlines, hunshared, hplain⟩ := outline_entries h
  cases h with
  | nil => exact written_map_nil
  | @cons e o entries os hentry hentries =>
    refine ⟨fun labels => ?_, fun s => ?_, ?_, Or.inr ?_⟩
    · simp [Outline.ofValue, houtlines]
    · simp [Outline.meet, Outline.Sharing.meet, hunshared]
    · rw [Render.plain, hplain]
    · obtain ⟨ls, hbelow, hempty, hls⟩ := rows_below hentries
      obtain ⟨key, value⟩ := e
      obtain ⟨keyNode, node⟩ := o
      obtain ⟨name, rfl, rfl, hkey, hvalue⟩ := hentry
      obtain ⟨more, block, hwrites, hrow⟩ := hvalue.row hkey
      have hlines := hwrites.append hbelow
      refine ⟨name ++ ':' :: more, block ++ ls, .rows ((.str name, value) :: entries), ?_, ?_, ?_, rfl, ?_, ?_, ?_⟩
      · rw [Parts.value, hpairs]
      · rintro _ ⟨⟩
        rfl
      · rintro outer rfl (hzero | hone)
        · exact Or.inl (by simp [Parts.home, hzero])
        · obtain rfl : entries = [] := by simpa using hone
          exact Or.inr ⟨by omega, _, rfl⟩
      · rintro place rfl s text hs
        have hnode := hlines s text hs
        rw [← mapping_cons] at hnode
        simpa [Write.node, Write.mentioned, Write.mention] using hnode
      · rintro shown (rfl | ⟨hle, row, hrow'⟩)
        · rw [List.map_append]
          exact hrow (Nat.le_refl _) hls
        · cases hrow'
          obtain rfl := hempty rfl
          rw [List.map_append]
          exact hrow hle ⟨.noRows shown, by simp⟩
      · exact Line.align_other (hkey.no_mark more) keep column

/-- What is written for a writable value are the lines of the value. -/
theorem Writable.written {value : Value} (h : Writable keep column start value) : ∃ o, Written keep column start value o := by
  induction h with
  | scalar hvalue hphrase hplain hreads hfold => exact ⟨_, written_scalar hvalue hphrase hplain hreads hfold⟩
  | list htrails _ ih =>
    obtain ⟨os, hos⟩ := exists_forall₂ ih
    exact ⟨_, written_list hos htrails⟩
  | @map column start entries hkeys hdistinct _ ih =>
    have hentries : ∀ e ∈ entries, ∃ o, WrittenEntry keep column e o := by
      intro e he
      obtain ⟨name, hname, hkey⟩ := hkeys e he
      obtain ⟨o, ho⟩ := ih e he
      refine ⟨(.plain .str name, o), name, hname, rfl, hkey, ?_⟩
      rwa [hname] at ho
    obtain ⟨os, hos⟩ := exists_forall₂ hentries
    have hatoms : ∀ e ∈ entries, e.1.isAtom = true := fun e he => by
      obtain ⟨name, hname, -⟩ := hkeys e he
      rw [hname]
      rfl
    have hpairs : ofPairs entries = entries := by
      refine ofPairs_eq_self (hdistinct.imp_of_mem fun {a b} ha hb hab => ?_)
      rw [Bool.eq_false_iff]
      exact fun hsame => hab ((same_atom_iff (hatoms a ha) (hatoms b hb)).mp hsame)
    exact ⟨_, written_map hos hpairs⟩

/-! ## Texts of values -/

/-- A document is written as the lines of its node. -/
theorem document_lines {value : Value} {o : Outline} {first : Text} {block : List Line} (h : Written keep column start value o)
    (hlines : WritesLines 0 (Write.node [] ⟨none, false⟩ o) first block) :
    (Write.document o).text = render (⟨0, first⟩ :: block) := by
  have hshared : o.sharedLabels = [] := by rw [Outline.sharedLabels, h.unshared]
  have hnode := (hlines {} [] Page.at_start.indentTo).indentTo 0
  rw [Write.document, hshared, if_neg (by simp [hnode.openEnded]), hnode.text]
  simp [render_cons]

/-- What is written for a block before its list marks are moved, and what is read afterwards. -/
theorem WritesBlock.lines {value : Value} {o : Outline} {first : Text} {block : List Line} {parts : Parts}
    (h : WritesBlock keep 0 value o first block parts) (hwritten : Written keep 0 0 value o) :
    ∃ ls, Format.yaml.write value = .ok (render ls) ∧ (∀ l ∈ ls, Tidy l.text) ∧
      Compact 0 (ls.map (Line.align keep)) parts := by
  have hlines : WritesLines 0 (Write.node [] ⟨none, false⟩ o) first block := h.writes rfl
  have hcompact : Compact 0 ((⟨0, first⟩ :: block).map (Line.align keep)) parts := by
    have hzero : parts.home keep 0 = 0 := by cases parts <;> simp [Parts.home]
    have hreads := h.reads (Or.inl rfl)
    have hmoved := h.moved
    rw [hzero] at hreads hmoved
    rw [List.map_cons, hmoved]
    exact hreads
  refine ⟨⟨0, first⟩ :: block, ?_, fun l hl => ?_, hcompact⟩
  · rw [← document_lines hwritten hlines]
    simp only [Format.yaml, write, writeShared, hwritten.outline]
    rfl
  · rw [← Line.align_text keep l]
    exact hcompact.block.tidy Leaves.simple_tidy _ (List.mem_map_of_mem hl)

end

/-- Of a scalar nothing is left but its text. -/
theorem value_scalar {keep : Bool} {value : Value} {tag : Tag} {text : Text} (hvalue : scalarText? value = some (tag, text))
    (hphrase : IsPhrase text) (hplain : IsPlain tag text) (hfold : Page.Unfolded true 0 text) :
    Render.value Format.yaml keep value = .ok (text ++ ['\n']) := by
  have hwrite : Format.yaml.write (Render.plain value) = .ok (text ++ "\n...\n".toList) := by
    rw [← Write.document_plain hplain hfold]
    cases value <;> cases hvalue
    all_goals rfl
  have hdrop : Render.dropDocumentEnd (text ++ "\n...\n".toList) = text ++ ['\n'] := by
    have hends : Render.documentEnd.isSuffixOf (text ++ "\n...\n".toList) = true :=
      List.isSuffixOf_iff_suffix.mpr ⟨text, rfl⟩
    rw [Render.dropDocumentEnd, if_pos hends]
    simp [Render.documentEnd, List.take_append, List.take_of_length_le]
  have hmoved : Render.outdentLists keep (text ++ ['\n']) = text ++ ['\n'] := by
    have hline : text ++ ['\n'] = render [⟨0, text⟩] := by simp [render, Line.render, Line.content]
    rw [hline, outdentLists_render (by simpa using tidy_words hphrase.words), List.map_singleton,
      Line.align_other hphrase.no_mark]
  rw [Render.value, hwrite]
  simp only [hdrop, hmoved]

/-- What is written for a writable value is read as the value, and an entry as a mapping of one entry. -/
theorem read_written {keep : Bool} {value : Value} (h : Writable keep 0 0 value) :
    ∃ text, Render.value Format.yaml keep value = .ok text ∧ Format.yaml.read text = .ok value ∧
      ∀ key inner, value = .map [(key, inner)] → Render.entry Format.yaml keep key inner = .ok text := by
  obtain ⟨o, hwritten⟩ := h.written
  rcases hwritten.node with ⟨_, hnode⟩ | ⟨first, block, parts, hnode⟩
  · cases h with
    | @scalar _ _ _ tag text hvalue hphrase hplain hreads hfold =>
      refine ⟨text ++ ['\n'], value_scalar hvalue hphrase hplain hfold, ?_, ?_⟩
      · have hmark := Style.atDocumentMark_of_plain hplain.ne_nil hplain.traits
        simp only [Format.yaml, read_phrase hphrase hmark hreads]
        rfl
      · rintro key inner rfl
        cases hvalue
    | list =>
      obtain rfl := List.isEmpty_iff.mp hnode.flat
      exact ⟨"[]\n".toList, by cases keep <;> rfl, by cbv, by rintro _ _ ⟨⟩⟩
    | map =>
      obtain rfl := List.isEmpty_iff.mp hnode.flat
      exact ⟨"\x7b\x7d\n".toList, by cases keep <;> rfl, by cbv, by rintro _ _ ⟨⟩⟩
  · obtain ⟨ls, hwrite, htidy, hblock, -⟩ := hnode.lines hwritten
    have hmarks : ∀ l ∈ ls, l.indent = 0 → l.text ≠ "...".toList := fun l hl hmargin =>
      Line.align_text keep l ▸ hblock.ne_documentEnd _ (List.mem_map_of_mem hl)
        (Nat.le_zero.mp (hmargin ▸ Line.align_indent_le keep l))
    refine ⟨render (ls.map (Line.align keep)), ?_, ?_, ?_⟩
    · rw [Render.value, hwritten.plain, hwrite]
      simp only [dropDocumentEnd_render htidy hmarks, outdentLists_render htidy]
    · rw [Leaves.simple_readBy hblock, hnode.ne, hnode.holds]
      rfl
    · rintro key inner rfl
      have hinner : Render.plain inner = inner := by simpa [Render.plain, Render.plainEntries] using hwritten.plain
      rw [Render.entry, hinner, hwrite]
      simp only [outdentLists_render htidy]

theorem isWrittenKey_char {c : Char} (hc : isPlainStart c = true) (hplain : IsPlain .str [c]) : IsWrittenKey [c] :=
  ⟨isPlainKey_char hc hplain.reads, hplain, by simp⟩

theorem writable_char {keep : Bool} {column start : Nat} {value : Value} {tag : Tag} {c : Char}
    (hvalue : scalarText? value = some (tag, [c])) (hc : isPlainStart c = true) (hplain : IsPlain tag [c])
    (hreads : Scalar.Reads [c] value) : Writable keep column start value :=
  .scalar hvalue (isPhrase_char hc) hplain hreads fun _ =>
    Or.inl (by simpa using (isPlainStart_ne hc (by decide : isPlainStart ' ' = false)).symm)

/-- A list of a mapping with one entry and a text. -/
theorem read_written_list :
    Render.entry Format.yaml false (.str ['k']) (.list [.map [(.str ['a'], .str ['x'])], .str ['y']]) =
      .ok "k:\n- a: x\n- y\n".toList ∧
    Format.yaml.read "k:\n- a: x\n- y\n".toList =
      .ok (.map [(.str ['k'], .list [.map [(.str ['a'], .str ['x'])], .str ['y']])]) := by
  have hk : IsWrittenKey ['k'] := isWrittenKey_char (by decide) ⟨by simp, by decide, rfl⟩
  have ha : IsWrittenKey ['a'] := isWrittenKey_char (by decide) ⟨by simp, by decide, rfl⟩
  have hx : Writable false 6 7 (.str ['x']) := writable_char rfl (by decide) ⟨by simp, by decide, rfl⟩ rfl
  have hy : Writable false 4 4 (.str ['y']) := writable_char rfl (by decide) ⟨by simp, by decide, rfl⟩ rfl
  have hinner : Writable false 4 4 (.map [(.str ['a'], .str ['x'])]) :=
    .map (by simpa using ha) (by simp) (List.forall_mem_singleton.mpr hx)
  have hlist : Writable false 2 3 (.list [.map [(.str ['a'], .str ['x'])], .str ['y']]) :=
    .list (by simp [Trails]) (by simpa using ⟨hinner, hy⟩)
  have hwhole : Writable false 0 0 (.map [(.str ['k'], .list [.map [(.str ['a'], .str ['x'])], .str ['y']])]) :=
    .map (by simpa using hk) (by simp) (List.forall_mem_singleton.mpr hlist)
  obtain ⟨text, -, hread, hentry⟩ := read_written hwhole
  have hwritten := hentry _ _ rfl
  have htext : Render.entry Format.yaml false (.str ['k']) (.list [.map [(.str ['a'], .str ['x'])], .str ['y']]) =
      .ok "k:\n- a: x\n- y\n".toList := rfl
  rw [htext] at hwritten
  obtain rfl := Except.ok.inj hwritten
  exact ⟨htext, hread⟩

/-! ## Exceptions -/

/-- Only the lines of list marks are moved. The second entry of a mapping in a list stays where it was, and the text
    cannot be read; at the margin the second mark of an inner list leaves it, and the text is read as another list. -/
theorem list_marks_moved_alone :
    Render.entry Format.yaml false (.str ['k']) (.list [.map [(.str ['a'], .int 1), (.str ['b'], .int 2)]]) =
      .ok "k:\n- a: 1\n    b: 2\n".toList ∧
    Format.yaml.read "k:\n- a: 1\n    b: 2\n".toList = .error (.notYaml "k:\n- a: 1\n    b: 2\n".toList) ∧
    Render.value Format.yaml false (.list [.list [.str ['x'], .str ['y']]]) = .ok "- - x\n- y\n".toList ∧
    Format.yaml.read "- - x\n- y\n".toList = .ok (.list [.list [.str ['x']], .str ['y']]) :=
  ⟨rfl, by cbv, rfl, by cbv⟩

end Layout
end YamlSplice
