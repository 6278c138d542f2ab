/-
  YamlSplice.Proofs.Yaml.Spelling — the tokens of block collections.

  `Leaves.plain` are keys of a word and scalars of words, which may go on over further lines, each with the value of
  its type. `Leaves.simple` are these and empty collections in brackets. A block of simple leaves is lexed into tokens
  that spell its parts (`Block.lexes`): by induction on the block, with the column as the invariant. While the lines of
  a block are passed over, the innermost collection is at its column; a block further to the right is opened by its
  first line and closed behind its last.
-/

import YamlSplice.Proofs.Value.Entries
import YamlSplice.Proofs.Yaml.Lexer
import YamlSplice.Yaml.Scalar

namespace YamlSplice

open Yaml

/-! ## Leaves -/

/-- A plain scalar has this value. -/
def Yaml.Scalar.Reads (text : Text) (value : Value) : Prop :=
  Scalar.value (Tag.ofPlain boolWords text) text = .ok value

/-- A key that is a word of at most 1024 characters and reads as it stands. -/
structure Yaml.IsPlainKey (name : Text) (key : Value) : Prop where
  word : IsWord name
  start : name.head?.any isPlainStart = true
  short : name.length ≤ 1024
  atom : key.isAtom = true
  reads : Scalar.Reads name key
  text : key.keyText = name

theorem Yaml.IsPlainKey.exists_start {name : Text} {key : Value} (h : IsPlainKey name key) :
    ∃ c rest, name = c :: rest ∧ isPlainStart c = true := by
  obtain ⟨c, rest, rfl⟩ := List.exists_cons_of_ne_nil h.word.1
  exact ⟨c, rest, rfl, by simpa using h.start⟩

/-- The keys are words, and the scalars are made of words. Further lines are folded. -/
def Layout.Leaves.plain : Layout.Leaves where
  Key := IsPlainKey
  Scalar first more value := ∃ added, IsPhrase first ∧ Folds more added ∧ Scalar.Reads (first ++ added) value

/-- Plain leaves, and empty collections in brackets. -/
def Layout.Leaves.simple : Layout.Leaves where
  Key := IsPlainKey
  Scalar first more value := Leaves.plain.Scalar first more value ∨
    ∃ parts : Layout.Parts, parts.isEmpty = true ∧ first = parts.brackets ∧ more = [] ∧ value = parts.value

namespace Layout

theorem isInline_newline : Yaml.isInline '\n' = false := by decide

theorem newline_not_mem_words {text : Text} (h : IsWords text) : '\n' ∉ text := fun hmem => by
  have := (h.isAllowed_inline _ hmem).2
  rw [isInline_newline] at this
  cases this

theorem tidy_words {text : Text} (h : IsWords text) : Tidy text := by
  obtain ⟨c, rest, htext, hc⟩ := h.exists_cons
  exact ⟨newline_not_mem_words h, Or.inr ⟨c, rest, htext, isBlank_of_isPlainChar hc⟩⟩

namespace Leaves

/-- A scalar on one line. -/
theorem plain_line {text : Text} {value : Value} (h : IsPhrase text) (hreads : Scalar.Reads text value) :
    Leaves.plain.Scalar text [] value := ⟨[], h, .nil, by rwa [List.append_nil]⟩

theorem plain_within : Leaves.plain.Within Leaves.simple := ⟨id, Or.inl⟩

theorem simple_tidy : Leaves.simple.Tidy where
  key hkey := ⟨tidy_words (isWords_of_word hkey.word), hkey.word.1⟩
  first := by
    rintro first _ _ (⟨_, hfirst, -, -⟩ | ⟨parts, -, rfl, -, -⟩)
    · exact newline_not_mem_words hfirst.words
    · cases parts <;> simp [Parts.brackets]
  more := by
    rintro _ more _ (⟨_, -, hmore, -⟩ | ⟨_, -, -, rfl, -⟩) line hline
    · rcases hmore.of_mem hline with rfl | hwords
      · exact ⟨List.not_mem_nil, Or.inl rfl⟩
      · exact tidy_words hwords
    · cases hline

/-- A word in front of a colon is not the mark of a document. -/
theorem atDocumentMark_word {word : Text} (h : IsWord word) (rest : Text) :
    atDocumentMark (word ++ ':' :: rest) = false := by
  have hwhite : ∀ c ∈ word, isWhite c = false ∧ isBreak c = false := fun c hc => by
    have hplain := h.2 c hc
    exact ⟨isWhite_of_isPlainChar hplain, isBreak_of_isInline (isInline_of_isPlainChar hplain)⟩
  match word with
  | [] => exact absurd rfl h.1
  | [a] => cases rest <;> simp [atDocumentMark, atMark]
  | [a, b] => simp [atDocumentMark, atMark]
  | [a, b, c] => simp [atDocumentMark, atMark, atWhite, isWhite, isBreak]
  | a :: b :: c :: d :: more =>
    have hd := hwhite d (by simp)
    simp [atDocumentMark, atMark, atWhite, hd]

theorem simple_starts {name : Text} {key : Value} (rest : Text) (h : Leaves.simple.Key name key) :
    Text.startsRow (name ++ ':' :: rest) = true := by
  have hmark := atDocumentMark_word h.word rest
  obtain ⟨c, more, rfl, hc⟩ := h.exists_start
  have hne : ∀ y, isPlainStart y = false → (c == y) = false := fun y hy => by simpa using isPlainStart_ne hc hy
  have hbreak := isBreak_of_isInline (isInline_of_isPlainChar (isPlainChar_of_start hc))
  simp only [List.cons_append] at hmark ⊢
  simp [Text.startsRow, isWhite, hne ' ' (by decide), hne '\t' (by decide), hne '#' (by decide), hne '%' (by decide),
    hne '\uFEFF' (by decide), hbreak, hmark]

end Leaves

/-! ## Tokens -/

/-- A node, or the parts of a collection. -/
inductive Piece where
  | node (value : Value)
  | parts (parts : Parts)

/-- The token that opens a collection. -/
def Parts.opening : Parts → Token
  | rows _ => .blockMappingStart
  | items _ => .blockSequenceStart

/-- The tokens of a piece. Where a sequence stands at the column of its key nothing opens or closes it. -/
inductive Spelled : List Token → Piece → Prop where
  | scalar {text : Text} {value : Value} : Scalar.Reads text value → Spelled [.scalar text true] (.node value)
  | brackets {parts : Parts} : parts.isEmpty = true → Spelled [parts.flowStart, parts.flowEnd] (.node parts.value)
  | inner {ts : List Token} {parts : Parts} :
      parts.isEmpty = false → Spelled ts (.parts parts) →
      Spelled (parts.opening :: (ts ++ [.blockEnd])) (.node parts.value)
  | noRows : Spelled [] (.parts (.rows []))
  | row {name : Text} {key value : Value} {node ts : List Token} {rows : List (Value × Value)} :
      Scalar.Reads name key → key.isAtom = true → Spelled node (.node value) →
      Spelled ts (.parts (.rows rows)) →
      Spelled (.key :: .scalar name true :: .value :: (node ++ ts)) (.parts (.rows ((key, value) :: rows)))
  | flushRow {name : Text} {key : Value} {node ts : List Token} {values : List Value} {rows : List (Value × Value)} :
      Scalar.Reads name key → key.isAtom = true → values ≠ [] → Spelled node (.parts (.items values)) →
      Spelled ts (.parts (.rows rows)) →
      Spelled (.key :: .scalar name true :: .value :: (node ++ ts)) (.parts (.rows ((key, .list values) :: rows)))
  | noItems : Spelled [] (.parts (.items []))
  | item {value : Value} {node ts : List Token} {values : List Value} :
      Spelled node (.node value) → Spelled ts (.parts (.items values)) →
      Spelled (.blockEntry :: (node ++ ts)) (.parts (.items (value :: values)))

/-! ## Lexing blocks -/

theorem shows_key {name more : Text} {key : Value} (column : Nat) (h : Leaves.simple.Key name key) :
    Line.Shows ⟨column, name ++ ':' :: more⟩ := fun tail => by
  simpa using Leaves.simple_starts (more ++ '\n' :: tail) h

theorem shows_item (column : Nat) (first : Text) : Line.Shows ⟨column, '-' :: ' ' :: first⟩ := fun tail => by
  cases first <;> simp [Text.startsRow, isWhite, isBreak, atDocumentMark, atMark]

/-- A block starts at its column, if it has any content. -/
theorem Block.returns {column : Nat} {ls rest : List Line} {parts : Parts} (h : Block Leaves.simple column ls parts)
    (hrest : Returns column rest) : Returns column (ls ++ rest) := by
  induction h with
  | noRows | noItems => exact hrest
  | skip hskipped _ ih => exact .skip hskipped (ih hrest)
  | scalarRow hkey | innerRow hkey => exact .line (Int.le_refl _) (shows_key _ hkey)
  | scalarItem | innerItem => exact .line (Int.le_refl _) (shows_item _ _)

open Lexer

section

variable {c : Cursor} {done done' all : List Token} {indent : Int} {outer outer' : List Int} {column : Nat}
  {ls rest : List Line}

/-- The key of a row, up to its colon. -/
theorem ends_key {name more : Text} {key : Value} (hkey : Leaves.simple.Key name key)
    (hc : c.Before (⟨column, name ++ ':' :: more⟩ :: ls)) (hmore : atWhite (more ++ '\n' :: render ls) = true)
    (hopens : Opens .blockMappingStart column indent outer outer' done done')
    (h : ∀ next : Cursor, next.rest = more ++ '\n' :: render ls → column < next.column →
      Ends { ready next (.value :: .scalar name true :: .key :: done') column outer' with keyAllowed := false } all) :
    Ends (ready c done indent outer) all := by
  obtain ⟨index, line, hcontent⟩ := hc.shows (shows_key column hkey)
  have hrow : (name ++ ':' :: more) ++ '\n' :: render ls = name ++ ':' :: (more ++ '\n' :: render ls) := by simp
  simp only [hrow] at hcontent
  have hstarts := Leaves.simple_starts (more ++ '\n' :: render ls) hkey
  obtain ⟨hword, hstart, hlength, -, -, -⟩ := hkey
  exact Ends.key hcontent rfl hc.unmarked (isPhrase_of_word hword hstart) hlength hmore hstarts hopens
    (h _ rfl (by simp only; omega))

/-- The mark of an item. -/
theorem ends_item {first : Text} (hc : c.Before (⟨column, '-' :: ' ' :: first⟩ :: ls))
    (hopens : Opens .blockSequenceStart column indent outer outer' done done')
    (h : ∀ next : Cursor, next.rest = ' ' :: (first ++ '\n' :: render ls) → next.column = column + 1 →
      Ends (ready next (.blockEntry :: done') column outer') all) :
    Ends (ready c done indent outer) all := by
  obtain ⟨index, line, hcontent⟩ := hc.shows (shows_item column first)
  exact Ends.dash hcontent rfl hc.unmarked hopens (h _ rfl rfl)

/-- How the tokens of a leaf are found behind a colon or the mark of an item, further lines included. -/
def LexesLeaf (column : Nat) (first : Text) (hung : List Line) (ts : List Token) : Prop :=
  ∀ ⦃allowed : Bool⦄ ⦃ls : List Line⦄ ⦃c : Cursor⦄ ⦃done all : List Token⦄ ⦃outer : List Int⦄,
    c.rest = ' ' :: (first ++ '\n' :: render (hung ++ ls)) → column < c.column → Returns column ls →
    (∀ next : Cursor, next.Before ls → Ends (ready next (ts.reverse ++ done) column outer) all) →
    Ends { ready c done column outer with keyAllowed := allowed } all

theorem lexesLeaf_scalar {first added : Text} {more : List Text} {hung : List Line} (hfirst : IsPhrase first)
    (hmore : Folds more added) (hhung : Hung column hung more) :
    LexesLeaf column first hung [.scalar (first ++ added) true] := by
  intro allowed ls c done all outer hc hcolumn hreturns h
  obtain ⟨x, rest, rfl, hx⟩ := hfirst.words.exists_cons
  have hspaces : c.rest = List.replicate 1 ' ' ++ (x :: rest ++ '\n' :: render (hung ++ ls)) := hc
  let d : Cursor := ⟨x :: rest ++ '\n' :: render (hung ++ ls), c.index + 1, c.line, c.column + 1⟩
  have hd : content d = (d, false) := content_of_char rfl (isPlainChar_ne hx (by decide))
    (isPlainChar_ne hx (by decide)) (isBreak_of_isInline (isInline_of_isPlainChar hx))
  have hcontent : (content c).1 = d := by rw [content_spaces hspaces, hd]
  exact Ends.scalar hcontent rfl (by simp [hc]) hfirst hmore hhung (by simp only [d]; omega) hreturns h

theorem lexesLeaf_brackets (parts : Parts) : LexesLeaf column parts.brackets [] [parts.flowStart, parts.flowEnd] := by
  intro allowed ls c done all outer hc hcolumn _ h
  have hspaces : c.rest = List.replicate 1 ' ' ++ (parts.brackets ++ '\n' :: render ls) := hc
  let d : Cursor := ⟨parts.brackets ++ '\n' :: render ls, c.index + 1, c.line, c.column + 1⟩
  have hd : content d = (d, false) := by cases parts <;> exact content_of_char rfl (by decide) (by decide) (by decide)
  have hcontent : (content c).1 = d := by rw [content_spaces hspaces, hd]
  exact Ends.brackets hcontent rfl (by simp [hc]) (by simp only [d]; omega) h

/-- The tokens of a leaf spell its value. -/
theorem exists_lexesLeaf {first : Text} {more : List Text} {value : Value} {hung : List Line}
    (hscalar : Leaves.simple.Scalar first more value) (hhung : Hung column hung more) :
    ∃ ts, Spelled ts (.node value) ∧ LexesLeaf column first hung ts := by
  rcases hscalar with ⟨added, hfirst, hmore, hreads⟩ | ⟨parts, hempty, rfl, rfl, rfl⟩
  · exact ⟨_, .scalar hreads, lexesLeaf_scalar hfirst hmore hhung⟩
  · obtain rfl := List.map_eq_nil_iff.mp hhung.1
    exact ⟨_, .brackets hempty, lexesLeaf_brackets parts⟩

/-- How the tokens of a block are found: they stand behind the token that opens the block, if need be,
    and in front of what follows the lines. -/
def Lexes (column : Nat) (ls : List Line) (parts : Parts) (ts : List Token) : Prop :=
  ∀ {rest : List Line} {c : Cursor} {done done' all : List Token} {indent : Int} {outer outer' : List Int},
    c.Before (ls ++ rest) → Returns column rest → (parts.isEmpty = true → indent = column) →
    Opens parts.opening column indent outer outer' done done' →
    (∀ next : Cursor, next.Before rest → Ends (ready next (ts.reverse ++ done') column outer') all) →
    Ends (ready c done indent outer) all

/-- How tokens are found in a collection that is open at its column. -/
def LexesInside (column : Nat) (ls : List Line) (ts : List Token) : Prop :=
  ∀ ⦃rest : List Line⦄ ⦃c : Cursor⦄ ⦃done all : List Token⦄ ⦃outer : List Int⦄,
    c.Before (ls ++ rest) → Returns column rest →
    (∀ next : Cursor, next.Before rest → Ends (ready next (ts.reverse ++ done) column outer) all) →
    Ends (ready c done column outer) all

variable {name text : Text} {key value : Value} {parts : Parts} {block : List Line} {node ts : List Token}
  {rows : List (Value × Value)} {values : List Value}

/-- A block in the column of the collection goes on with it. -/
theorem Lexes.inside (h : Lexes column ls parts ts) : LexesInside column ls ts := fun _ _ _ _ _ hc hreturns hnext =>
  h hc hreturns (fun _ => rfl) (Or.inl ⟨rfl, rfl, rfl⟩) hnext

/-- A block to the right of the present one is opened and closed. -/
theorem Lexes.inner {inner : Nat} (h : Lexes inner block parts ts) (hne : parts.isEmpty = false)
    (hinner : column < inner) : LexesInside column block (parts.opening :: (ts ++ [.blockEnd])) := by
  intro rest c done all outer hc hreturns hnext
  refine h hc (hreturns.mono (by omega)) (by simp [hne]) (Or.inr ⟨by omega, rfl, rfl⟩) fun next hbefore => ?_
  refine Ends.close ?_ hbefore hreturns (by omega) (by omega)
  have := hnext next hbefore
  simpa using this

theorem LexesInside.append (hblock : LexesInside column block node)
    (hls : ∀ {rest : List Line}, Returns column rest → Returns column (ls ++ rest)) (h : LexesInside column ls ts) :
    LexesInside column (block ++ ls) (node ++ ts) := by
  intro rest c done all outer hc hreturns hnext
  rw [List.append_assoc] at hc
  refine hblock hc (hls hreturns) fun between hbetween => h hbetween hreturns fun next hbefore => ?_
  have := hnext next hbefore
  rwa [List.reverse_append, List.append_assoc] at this

theorem Lexes.nil (hempty : parts.isEmpty = true) : Lexes column [] parts [] := by
  intro rest c done done' all indent outer outer' hc _ hindent hopens hnext
  obtain ⟨rfl, rfl, rfl⟩ := hopens.resolve_right fun h => absurd (hindent hempty) (Int.ne_of_lt h.1)
  exact hnext _ hc

theorem Lexes.scalarRow {first : Text} {hung : List Line} (hkey : Leaves.simple.Key name key)
    (hleaf : LexesLeaf column first hung node)
    (hls : ∀ {rest : List Line}, Returns column rest → Returns column (ls ++ rest)) (h : LexesInside column ls ts) :
    Lexes column (⟨column, name ++ ':' :: ' ' :: first⟩ :: (hung ++ ls)) (.rows ((key, value) :: rows))
      (.key :: .scalar name true :: .value :: (node ++ ts)) := by
  intro rest c done done' all indent outer outer' hc hreturns _ hopens hnext
  rw [List.cons_append, List.append_assoc] at hc
  refine ends_key hkey hc rfl hopens fun behind hbehind hright => ?_
  refine hleaf hbehind hright (hls hreturns) fun next hbefore => h hbefore hreturns fun last hlast => ?_
  simpa using hnext last hlast

/-- A row whose value stands below its key. -/
theorem Lexes.row (hkey : Leaves.simple.Key name key) (h : LexesInside column ls ts) :
    Lexes column (⟨column, name ++ [':']⟩ :: ls) (.rows ((key, value) :: rows))
      (.key :: .scalar name true :: .value :: ts) := by
  intro rest c done done' all indent outer outer' hc hreturns _ hopens hnext
  refine ends_key hkey hc rfl hopens fun behind hbehind _ => ?_
  refine Ends.newline hbehind fun next hbefore => h hbefore hreturns fun last hlast => ?_
  simpa using hnext last hlast

theorem Lexes.scalarItem {first : Text} {hung : List Line} (hleaf : LexesLeaf column first hung node)
    (hls : ∀ {rest : List Line}, Returns column rest → Returns column (ls ++ rest)) (h : LexesInside column ls ts) :
    Lexes column (⟨column, '-' :: ' ' :: first⟩ :: (hung ++ ls)) (.items (value :: values))
      (.blockEntry :: (node ++ ts)) := by
  intro rest c done done' all indent outer outer' hc hreturns _ hopens hnext
  rw [List.cons_append, List.append_assoc] at hc
  refine ends_item hc hopens fun behind hbehind hright => ?_
  refine @hleaf true _ _ _ _ _ hbehind (by omega) (hls hreturns) fun next hbefore => h hbefore hreturns fun last hlast => ?_
  simpa using hnext last hlast

/-- An item whose collection begins on the line of its mark. -/
theorem Lexes.item (h : LexesInside column (⟨column + 2, text⟩ :: ls) ts) :
    Lexes column (⟨column, '-' :: ' ' :: text⟩ :: ls) (.items (value :: values)) (.blockEntry :: ts) := by
  intro rest c done done' all indent outer outer' hc hreturns _ hopens hnext
  refine ends_item hc hopens fun behind hbehind hcolumn => ?_
  have hat : behind.At (⟨column + 2, text⟩ :: (ls ++ rest)) := ⟨1, by simp only [hcolumn], by simpa using hbehind⟩
  refine h (.of_at hat (by simp [hbehind])) hreturns fun last hlast => ?_
  simpa using hnext last hlast

end

/-- The tokens of a block spell its parts. -/
theorem Block.lexes {column : Nat} {ls : List Line} {parts : Parts} (h : Block Leaves.simple column ls parts) :
    ∃ ts, Spelled ts (.parts parts) ∧ Lexes column ls parts ts := by
  induction h with
  | noRows => exact ⟨[], .noRows, Lexes.nil rfl⟩
  | noItems => exact ⟨[], .noItems, Lexes.nil rfl⟩
  | skip hskipped _ ih =>
    obtain ⟨ts, hspelled, hlexes⟩ := ih
    exact ⟨ts, hspelled, fun hc => hlexes (hc.skipped hskipped)⟩
  | scalarRow hkey hscalar hhung hrows ih =>
    obtain ⟨ts, hspelled, hlexes⟩ := ih
    obtain ⟨node, hnode, hleaf⟩ := exists_lexesLeaf hscalar hhung
    exact ⟨_, .row hkey.reads hkey.atom hnode hspelled, Lexes.scalarRow hkey hleaf hrows.returns hlexes.inside⟩
  | @innerRow column inner _ _ parts _ _ _ hkey hne hbelow hblock hrows ihblock ih =>
    obtain ⟨ts, hspelled, hlexes⟩ := ih
    obtain ⟨node, hnode, hinside⟩ := ihblock
    by_cases hinner : column < inner
    · exact ⟨_, .row hkey.reads hkey.atom (.inner hne hnode) hspelled,
        Lexes.row hkey ((hinside.inner hne hinner).append hrows.returns hlexes.inside)⟩
    · -- a sequence at the column of its key
      cases parts with
      | rows entries => exact absurd hbelow hinner
      | items values =>
        obtain rfl : inner = column := Nat.le_antisymm (Nat.not_lt.mp hinner) hbelow
        have hvalues : values ≠ [] := by simpa [Parts.isEmpty] using hne
        exact ⟨_, .flushRow hkey.reads hkey.atom hvalues hnode hspelled,
          Lexes.row hkey (hinside.inside.append hrows.returns hlexes.inside)⟩
  | scalarItem hscalar hhung hitems ih =>
    obtain ⟨ts, hspelled, hlexes⟩ := ih
    obtain ⟨node, hnode, hleaf⟩ := exists_lexesLeaf hscalar hhung
    exact ⟨_, .item hnode hspelled, Lexes.scalarItem hleaf hitems.returns hlexes.inside⟩
  | innerItem _ hne _ hitems ihblock ih =>
    obtain ⟨ts, hspelled, hlexes⟩ := ih
    obtain ⟨node, hnode, hinside⟩ := ihblock
    exact ⟨_, .item (.inner hne hnode) hspelled,
      Lexes.item ((hinside.inner hne (Nat.lt_add_of_pos_right (by decide))).append hitems.returns hlexes.inside)⟩

/-! ## Texts of blocks -/

theorem Block.skipped {L : Leaves} {column : Nat} {ls : List Line} {parts : Parts} (h : Block L column ls parts)
    (hempty : parts.isEmpty = true) : ∀ l ∈ ls, Skipped l := by
  induction h with
  | noRows | noItems => simp
  | skip hskipped _ ih => exact List.forall_mem_cons.mpr ⟨hskipped, ih hempty⟩
  | scalarRow | innerRow | scalarItem | innerItem => cases hempty

theorem before_of_skipped {c : Cursor} {ls : List Line} (hc : c.Before ls) (h : ∀ l ∈ ls, Skipped l) : c.Before [] := by
  induction ls with
  | nil => exact hc
  | cons l ls ih =>
    obtain ⟨hl, hls⟩ := List.forall_mem_cons.mp h
    exact ih (hc.skipped hl) hls

theorem isAllowed_words {text : Text} (h : IsWords text) : ∀ c ∈ text, Yaml.isAllowed c = true := fun c hc =>
  (h.isAllowed_inline c hc).1

theorem isAllowed_brackets (parts : Parts) : ∀ c ∈ parts.brackets, Yaml.isAllowed c = true := by
  cases parts with
  | rows => exact List.all_eq_true.mp (by decide : "\x7b\x7d".toList.all Yaml.isAllowed = true)
  | items => exact List.all_eq_true.mp (by decide : "[]".toList.all Yaml.isAllowed = true)

/-- The lines of a leaf. -/
theorem isAllowed_leaf {column : Nat} {first : Text} {hung : List Line} {more : List Text} {value : Value}
    (hscalar : Leaves.simple.Scalar first more value) (h : Hung column hung more) :
    (∀ c ∈ first, Yaml.isAllowed c = true) ∧ ∀ l ∈ hung, ∀ c ∈ l.text, Yaml.isAllowed c = true := by
  rcases hscalar with ⟨added, hfirst, hmore, -⟩ | ⟨parts, -, rfl, rfl, -⟩
  · refine ⟨isAllowed_words hfirst.words, fun l hl => ?_⟩
    rcases hmore.of_mem (h.1 ▸ List.mem_map_of_mem hl) with hempty | hwords
    · simp [hempty]
    · exact isAllowed_words hwords
  · obtain rfl := List.map_eq_nil_iff.mp h.1
    exact ⟨isAllowed_brackets parts, by simp⟩

theorem Block.isAllowed {column : Nat} {ls : List Line} {parts : Parts} (h : Block Leaves.simple column ls parts) :
    ∀ l ∈ ls, ∀ c ∈ l.text, Yaml.isAllowed c = true := by
  have hword : ∀ {name : Text} {key : Value}, Leaves.simple.Key name key → ∀ c ∈ name, Yaml.isAllowed c = true :=
    fun h => isAllowed_words (isWords_of_word h.word)
  induction h with
  | noRows | noItems => simp
  | skip hskipped _ ih =>
    refine List.forall_mem_cons.mpr ⟨?_, ih⟩
    rcases hskipped with hempty | ⟨comment, htext, hcomment⟩
    · simp [hempty]
    · rw [htext]
      exact List.forall_mem_cons.mpr ⟨by decide, fun c hc => (hcomment c hc).1⟩
  | scalarRow hkey hscalar hhung _ ih =>
    obtain ⟨hfirst, hhung⟩ := isAllowed_leaf hscalar hhung
    refine List.forall_mem_cons.mpr ⟨List.forall_mem_append.mpr ⟨hword hkey, ?_⟩, List.forall_mem_append.mpr ⟨hhung, ih⟩⟩
    exact List.forall_mem_cons.mpr ⟨by decide, List.forall_mem_cons.mpr ⟨by decide, hfirst⟩⟩
  | innerRow hkey _ _ _ _ ihblock ih =>
    refine List.forall_mem_cons.mpr ⟨List.forall_mem_append.mpr ⟨hword hkey, List.forall_mem_singleton.mpr (by decide)⟩, ?_⟩
    exact List.forall_mem_append.mpr ⟨ihblock, ih⟩
  | scalarItem hscalar hhung _ ih =>
    obtain ⟨hfirst, hhung⟩ := isAllowed_leaf hscalar hhung
    refine List.forall_mem_cons.mpr ⟨?_, List.forall_mem_append.mpr ⟨hhung, ih⟩⟩
    exact List.forall_mem_cons.mpr ⟨by decide, List.forall_mem_cons.mpr ⟨by decide, hfirst⟩⟩
  | innerItem _ _ _ _ ihblock ih =>
    obtain ⟨hfirst, hblock⟩ := List.forall_mem_cons.mp ihblock
    refine List.forall_mem_cons.mpr ⟨?_, List.forall_mem_append.mpr ⟨hblock, ih⟩⟩
    exact List.forall_mem_cons.mpr ⟨by decide, List.forall_mem_cons.mpr ⟨by decide, hfirst⟩⟩

theorem isAllowed_render {ls : List Line} (h : ∀ l ∈ ls, ∀ c ∈ l.text, Yaml.isAllowed c = true) :
    (render ls).all Yaml.isAllowed = true := by
  refine List.all_eq_true.mpr fun c hc => ?_
  obtain ⟨l, hl, hmem⟩ := List.mem_flatMap.mp hc
  simp only [Line.render, Line.content, List.mem_append, List.mem_singleton] at hmem
  rcases hmem with (hmem | hmem) | rfl
  · rw [List.eq_of_mem_replicate hmem]
    decide
  · exact h l hl c hmem
  · decide

/-- All tokens of a text that is a block. -/
theorem Block.tokens {ls : List Line} {parts : Parts} (h : Block Leaves.simple 0 ls parts) :
    ∃ ts, Spelled ts (.parts parts) ∧ Tokens.ofText (render ls) =
      ⟨if parts.isEmpty then [.streamEnd] else parts.opening :: (ts ++ [.blockEnd, .streamEnd]), none⟩ := by
  obtain ⟨ts, hspelled, hlexes⟩ := h.lexes
  let start : Cursor := { rest := render ls }
  have hreturns : Returns 0 (ls ++ []) := h.returns .nil
  have hbefore : start.Before ls := .of_at (Cursor.at_render rfl rfl) (by simpa using hreturns.head)
  have hends : Ends (ready start [] (-1) []) (if parts.isEmpty then [.streamEnd]
      else parts.opening :: (ts ++ [.blockEnd, .streamEnd])) := by
    split
    · next hempty => exact Ends.finish (before_of_skipped hbefore (h.skipped hempty))
    · next hne =>
      have hls : start.Before (ls ++ []) := by simpa using hbefore
      refine hlexes hls .nil (fun h => absurd h hne) (Or.inr ⟨by decide, rfl, rfl⟩) fun next hnext => ?_
      refine Ends.close ?_ hnext (@Returns.nil (-1)) (by decide) (by decide)
      have := @Ends.finish next (.blockEnd :: (ts.reverse ++ [parts.opening])) hnext
      simpa using this
  refine ⟨ts, hspelled, ?_⟩
  rw [Tokens.ofText, if_pos (isAllowed_render h.isAllowed)]
  exact run_more hends (Nat.add_le_add_right (length_content_le start) 2)

end Layout
end YamlSplice
