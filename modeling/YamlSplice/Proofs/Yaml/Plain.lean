/-
  YamlSplice.Proofs.Yaml.Plain — plain scalars made of words.

  Words hold neither white space nor one of the two signs that may end a plain scalar. A scalar of
  words is read as it stands up to where it stops (`scan_words`): at the colon of a key (`stops_colon`),
  or at the end of the text. It may go on over further lines, which are folded (`Folds`): a line break
  stands for a space, but behind it each empty line stands for a line break and the first for nothing.
-/

import YamlSplice.Proofs.Reading.Layout
import YamlSplice.Proofs.Yaml.Cursor

namespace YamlSplice.Yaml

/-! ## Words -/

/-- A character of a plain scalar that can neither end it nor be white space. -/
def isPlainChar (c : Char) : Bool :=
  isAllowed c && isInline c && !Text.isBlank c && c != ':' && c != '#'

/-- A character that a plain scalar may start with whatever follows. -/
def isPlainStart (c : Char) : Bool :=
  isPlainChar c && !"-?:,[]\x7b\x7d#&*!|>'\"%@".toList.contains c && c.toNat != 0x60

/-- A text may start a plain scalar, whatever stands behind it: a character that always may, or a hyphen in front of
    a character of a word. -/
def opensPlain : Text → Bool
  | '-' :: c :: _ => isPlainChar c
  | c :: _ => isPlainStart c
  | [] => false

def IsWord (word : Text) : Prop := word ≠ [] ∧ ∀ c ∈ word, isPlainChar c = true

/-- Words with a space between them. -/
def IsWords (text : Text) : Prop := ∃ ws, ws ≠ [] ∧ (∀ w ∈ ws, IsWord w) ∧ text = Text.glue [' '] ws

/-- A text that may stand as a plain scalar on one line. -/
structure IsPhrase (text : Text) : Prop where
  words : IsWords text
  start : opensPlain text = true

/-- What the end of a line with empty lines below it stands for, in front of a further line. -/
def foldedBreak (empty : Nat) : Text := if empty = 0 then [' '] else List.replicate empty '\n'

/-- The further lines of a plain scalar add a text to it: words, perhaps below empty lines. -/
inductive Folds : List Text → Text → Prop where
  | nil : Folds [] []
  | line {empty : Nat} {line added : Text} {more : List Text} :
      IsWords line → Folds more added →
      Folds (List.replicate empty [] ++ line :: more) (foldedBreak empty ++ (line ++ added))

theorem isInline_of_isPlainChar {c : Char} (h : isPlainChar c = true) : isInline c = true := by
  simp only [isPlainChar, Bool.and_eq_true] at h
  exact h.1.1.1.2

theorem isBreak_of_isInline {c : Char} (h : isInline c = true) : isBreak c = false := by
  simp only [isInline, Bool.and_eq_true, Bool.not_eq_true'] at h
  exact h.1

theorem isBlank_of_isPlainChar {c : Char} (h : isPlainChar c = true) : Text.isBlank c = false := by
  simp only [isPlainChar, Bool.and_eq_true, Bool.not_eq_true'] at h
  exact h.1.1.2

theorem isWhite_of_isPlainChar {c : Char} (h : isPlainChar c = true) : isWhite c = false := by
  have hblank := isBlank_of_isPlainChar h
  cases hwhite : isWhite c with
  | false => rfl
  | true =>
    simp only [isWhite, Bool.or_eq_true, beq_iff_eq] at hwhite
    rcases hwhite with rfl | rfl <;> revert hblank <;> decide

theorem isPlainChar_ne {c x : Char} (h : isPlainChar c = true) (hx : isPlainChar x = false) : c ≠ x := by
  rintro rfl
  rw [h] at hx
  cases hx

theorem toNat_ne_of_isPlainChar {c x : Char} (h : isPlainChar c = true) (hx : isPlainChar x = false) : c.toNat ≠ x.toNat :=
  fun hcode => isPlainChar_ne h hx (Char.toNat_inj.mp hcode)

theorem isPlainStart_ne {c x : Char} (h : isPlainStart c = true) (hx : isPlainStart x = false) : c ≠ x := by
  rintro rfl
  rw [h] at hx
  cases hx

theorem isPlainChar_of_start {c : Char} (h : isPlainStart c = true) : isPlainChar c = true := by
  simp only [isPlainStart, Bool.and_eq_true] at h
  exact h.1.1

theorem glue_cons_cons (w next : Text) (ws : List Text) :
    Text.glue [' '] (w :: next :: ws) = w ++ ' ' :: Text.glue [' '] (next :: ws) := by
  simp [Text.glue]

theorem exists_glue {word : Text} {ws : List Text} (h : IsWord word) :
    ∃ x rest, Text.glue [' '] (word :: ws) = x :: rest ∧ isPlainChar x = true := by
  obtain ⟨x, rest, rfl⟩ := List.exists_cons_of_ne_nil h.1
  have hx := h.2 x List.mem_cons_self
  cases ws with
  | nil => exact ⟨x, rest, rfl, hx⟩
  | cons w ws => exact ⟨x, rest ++ ' ' :: Text.glue [' '] (w :: ws), glue_cons_cons _ _ _, hx⟩

theorem mem_glue {ws : List Text} (hws : ∀ w ∈ ws, IsWord w) : ∀ c ∈ Text.glue [' '] ws, isPlainChar c = true ∨ c = ' ' := by
  induction ws with
  | nil => simp [Text.glue]
  | cons w more ih =>
    obtain ⟨hw, hmore⟩ := List.forall_mem_cons.mp hws
    cases more with
    | nil => exact fun c hc => Or.inl (hw.2 c hc)
    | cons next more =>
      rw [glue_cons_cons]
      exact List.forall_mem_append.mpr ⟨fun c hc => Or.inl (hw.2 c hc), List.forall_mem_cons.mpr ⟨Or.inr rfl, ih hmore⟩⟩

/-- The last character belongs to a word. -/
theorem getLast_glue {ws : List Text} (hws : ∀ w ∈ ws, IsWord w) :
    ∀ c ∈ (Text.glue [' '] ws).getLast?, isPlainChar c = true := by
  induction ws with
  | nil => simp [Text.glue]
  | cons w more ih =>
    obtain ⟨hw, hmore⟩ := List.forall_mem_cons.mp hws
    cases more with
    | nil => exact fun c hc => hw.2 c (List.mem_of_getLast? hc)
    | cons next more =>
      obtain ⟨x, rest, hx, -⟩ := @exists_glue next more (hmore next List.mem_cons_self)
      have hlast := ih hmore
      rw [hx] at hlast
      rw [glue_cons_cons, hx, List.getLast?_append, List.getLast?_cons_cons]
      intro c hc
      refine hlast c ?_
      rw [List.getLast?_eq_some_getLast (List.cons_ne_nil _ _), Option.some_or] at hc
      rwa [List.getLast?_eq_some_getLast (List.cons_ne_nil _ _)]

namespace IsWords

variable {text : Text}

theorem exists_cons (h : IsWords text) : ∃ c rest, text = c :: rest ∧ isPlainChar c = true := by
  obtain ⟨ws, hne, hws, rfl⟩ := h
  obtain ⟨w, more, rfl⟩ := List.exists_cons_of_ne_nil hne
  exact exists_glue (hws w List.mem_cons_self)

theorem ne_nil (h : IsWords text) : text ≠ [] := by
  obtain ⟨c, rest, rfl, -⟩ := h.exists_cons
  simp

theorem mem (h : IsWords text) : ∀ c ∈ text, isPlainChar c = true ∨ c = ' ' := by
  obtain ⟨ws, -, hws, rfl⟩ := h
  exact mem_glue hws

theorem getLast (h : IsWords text) : ∀ c ∈ text.getLast?, isPlainChar c = true := by
  obtain ⟨ws, -, hws, rfl⟩ := h
  exact getLast_glue hws

theorem isAllowed_inline (h : IsWords text) : ∀ c ∈ text, isAllowed c = true ∧ isInline c = true := fun c hc => by
  rcases h.mem c hc with hplain | rfl
  · simp only [isPlainChar, Bool.and_eq_true] at hplain
    exact hplain.1.1.1
  · decide

theorem not_mem (h : IsWords text) {x : Char} (hx : isPlainChar x = false) (hspace : x ≠ ' ') : x ∉ text := fun hmem => by
  rcases h.mem x hmem with hplain | hsame
  · exact isPlainChar_ne hplain hx rfl
  · exact hspace hsame

end IsWords

theorem isWords_of_word {word : Text} (h : IsWord word) : IsWords word := ⟨[word], by simp, by simpa using h, rfl⟩

theorem opensPlain_of_start {c : Char} (h : isPlainStart c = true) (rest : Text) : opensPlain (c :: rest) = true := by
  unfold opensPlain
  split
  · next hcons => cases hcons; cases h
  · next hcons => cases hcons; exact h
  · next hcons => cases hcons

/-- A plain scalar does not start as an item does. -/
theorem IsPhrase.no_mark {text : Text} (h : IsPhrase text) (rest : Text) : text ≠ '-' :: ' ' :: rest := by
  rintro rfl
  cases h.start

/-- What stands behind is of no account. -/
theorem opensPlain_append {text : Text} (h : opensPlain text = true) (tail : Text) : opensPlain (text ++ tail) = true := by
  unfold opensPlain at h
  split at h
  · exact h
  · exact opensPlain_of_start h _
  · cases h

theorem isPhrase_of_word {word : Text} (h : IsWord word) (hstart : word.head?.any isPlainStart = true) :
    IsPhrase word := by
  obtain ⟨c, rest, rfl⟩ := List.exists_cons_of_ne_nil h.1
  exact ⟨isWords_of_word h, opensPlain_of_start (by simpa using hstart) rest⟩

theorem foldedBreak_ne_nil (empty : Nat) : foldedBreak empty ≠ [] := by
  unfold foldedBreak
  split
  · simp
  · next hempty => simpa using hempty

namespace Folds

variable {more : List Text} {added : Text}

/-- A further line is empty or made of words. -/
theorem of_mem (h : Folds more added) {line : Text} (hline : line ∈ more) : line = [] ∨ IsWords line := by
  induction h with
  | nil => cases hline
  | line hwords _ ih =>
    rcases List.mem_append.mp hline with hempty | hline
    · exact Or.inl (List.eq_of_mem_replicate hempty)
    · rcases List.mem_cons.mp hline with rfl | hmore
      · exact Or.inr hwords
      · exact ih hmore

/-- The last line is not empty. -/
theorem getLast_ne_nil (h : Folds more added) : ∀ last ∈ more.getLast?, last ≠ [] := by
  induction h with
  | nil => simp
  | @line empty line added more hwords _ ih =>
    intro last hlast
    rw [List.getLast?_append, List.getLast?_cons] at hlast
    cases hmore : more.getLast? with
    | none =>
      rw [hmore] at hlast
      obtain rfl : line = last := by simpa using hlast
      exact hwords.ne_nil
    | some found =>
      rw [hmore] at hlast
      obtain rfl : found = last := by simpa using hlast
      exact ih found hmore

end Folds

/-! ## Words of letters, digits and signs -/

/-- Letters, digits, and the signs that numbers are written with. -/
def isKeyChar (c : Char) : Bool := isWordChar c || c == '.' || c == '+'

theorem isKeyChar_ne {c x : Char} (h : isKeyChar c = true) (hx : isKeyChar x = false) : c ≠ x := by
  rintro rfl
  rw [h] at hx
  cases hx

theorem isKeyChar_range {c : Char} (h : isKeyChar c = true) : 43 ≤ c.toNat ∧ c.toNat ≤ 122 := by
  simp only [isKeyChar, isWordChar, Bool.or_eq_true, Bool.and_eq_true, decide_eq_true_eq, beq_iff_eq, Char.le_def,
    UInt32.le_iff_toNat_le] at h
  have hvalue : c.toNat = c.val.toNat := rfl
  rcases h with ((((⟨hlow, hhigh⟩ | ⟨hlow, hhigh⟩) | ⟨hlow, hhigh⟩) | rfl) | rfl) | rfl
  · have : ('0' : Char).val.toNat = 48 := rfl
    have : ('9' : Char).val.toNat = 57 := rfl
    omega
  · have : ('A' : Char).val.toNat = 65 := rfl
    have : ('Z' : Char).val.toNat = 90 := rfl
    omega
  · have : ('a' : Char).val.toNat = 97 := rfl
    have : ('z' : Char).val.toNat = 122 := rfl
    omega
  all_goals decide

theorem isPlainChar_of_isKeyChar {c : Char} (h : isKeyChar c = true) : isPlainChar c = true := by
  have hrange := isKeyChar_range h
  have hne : ∀ x, isKeyChar x = false → c ≠ x := fun x hx => isKeyChar_ne h hx
  have hallowed : isAllowed c = true := by
    simp only [isAllowed, Bool.or_eq_true, Bool.and_eq_true, decide_eq_true_eq]
    omega
  have hblank : Text.isBlank c = false := by
    simp only [Text.isBlank, Text.isSpacing, Bool.or_eq_false_iff, Bool.and_eq_false_iff, decide_eq_false_iff_not,
      beq_eq_false_iff_ne]
    omega
  simp [isPlainChar, isInline, isBreak, hallowed, hblank, hne '\n' (by decide), hne '\r' (by decide),
    hne '\x85' (by decide), hne '\u2028' (by decide), hne '\u2029' (by decide), hne '\uFEFF' (by decide),
    hne ':' (by decide), hne '#' (by decide)]

theorem isPlainStart_of_isKeyChar {c : Char} (h : isKeyChar c = true) (hhyphen : c ≠ '-') : isPlainStart c = true := by
  have hne : ∀ x, isKeyChar x = false → c ≠ x := fun x hx => isKeyChar_ne h hx
  have hquote : c.toNat ≠ 0x60 := fun hcode => hne '\x60' (by decide) (Char.ext (UInt32.toNat_inj.mp hcode))
  simp [isPlainStart, isPlainChar_of_isKeyChar h, hhyphen, hquote, hne '?' (by decide), hne ':' (by decide),
    hne ',' (by decide), hne '[' (by decide), hne ']' (by decide), hne '\x7b' (by decide), hne '\x7d' (by decide),
    hne '#' (by decide), hne '&' (by decide), hne '*' (by decide), hne '!' (by decide), hne '|' (by decide),
    hne '>' (by decide), hne '\'' (by decide), hne '"' (by decide), hne '%' (by decide), hne '@' (by decide)]

/-- A word that a plain scalar can be, whatever it is the spelling of. -/
structure IsKeyWord (word : Text) : Prop where
  ne_nil : word ≠ []
  chars : ∀ c ∈ word, isKeyChar c = true

namespace IsKeyWord

variable {word : Text}

theorem isWord (h : IsKeyWord word) : IsWord word :=
  ⟨h.ne_nil, fun c hc => isPlainChar_of_isKeyChar (h.chars c hc)⟩

/-- Only a hyphen on its own could be something else than a plain scalar. -/
theorem opensPlain (h : IsKeyWord word) (hlone : word ≠ ['-']) : Yaml.opensPlain word = true := by
  obtain ⟨c, rest, rfl⟩ := List.exists_cons_of_ne_nil h.ne_nil
  by_cases hhyphen : c = '-'
  · subst hhyphen
    obtain ⟨d, more, rfl⟩ := List.exists_cons_of_ne_nil (fun hempty : rest = [] => hlone (by rw [hempty]))
    exact isPlainChar_of_isKeyChar (h.chars d (by simp))
  · exact opensPlain_of_start (isPlainStart_of_isKeyChar (h.chars c List.mem_cons_self) hhyphen) rest

theorem isPhrase (h : IsKeyWord word) (hlone : word ≠ ['-']) : IsPhrase word :=
  ⟨isWords_of_word h.isWord, h.opensPlain hlone⟩

theorem not_mem (h : IsKeyWord word) {x : Char} (hx : isKeyChar x = false) : x ∉ word := fun hmem =>
  isKeyChar_ne (h.chars x hmem) hx rfl

end IsKeyWord

namespace Plain

open Cursor

/-! ## Scanning words -/

theorem endsAt_plain {c : Char} (h : isPlainChar c = true) (rest : Text) : endsAt false c rest = false := by
  have hbreak := isBreak_of_isInline (isInline_of_isPlainChar h)
  have hwhite := isWhite_of_isPlainChar h
  simp only [isPlainChar, Bool.and_eq_true, Bool.not_eq_true', bne_iff_ne, ne_eq] at h
  simp [endsAt, hbreak, hwhite, h]

theorem run_word {word rest : Text} (h : ∀ c ∈ word, isPlainChar c = true) (hrest : run false rest = []) :
    run false (word ++ rest) = word := by
  induction word with
  | nil => exact hrest
  | cons c word ih =>
    have hc := endsAt_plain (h c List.mem_cons_self) (word ++ rest)
    rw [List.cons_append, run, hc, ih fun d hd => h d (List.mem_cons_of_mem _ hd)]
    rfl

theorem skip_word {c : Cursor} {word rest : Text} (hc : c.rest = word ++ rest) (h : ∀ c ∈ word, isPlainChar c = true) :
    c.skip word.length = ⟨rest, c.index + word.length, c.line, c.column + word.length⟩ :=
  skip_inline hc fun x hx => isInline_of_isPlainChar (h x hx)

/-- A scalar stops in front of the cursor; `next` is the place where reading goes on. -/
structure Stops (least : Int) (c next : Cursor) (broken : Bool) : Prop where
  run : Plain.run false c.rest = []
  gap : ∃ between, Plain.gap c = (⟨between, broken⟩, next) ∧
    (between = [] ∨ next.rest.head? = some '#' ∨ (next.column : Int) < least ∨ next.rest = [])

theorem gap_space {c : Cursor} {x : Char} {rest : Text} (hc : c.rest = ' ' :: x :: rest) (hx : isPlainChar x = true) :
    gap c = (⟨[' '], false⟩, ⟨x :: rest, c.index + 1, c.line, c.column + 1⟩) := by
  have hspace : (x :: rest).head? ≠ some ' ' := by
    simpa using isPlainChar_ne hx (by decide)
  have hrest : c.rest = List.replicate 1 ' ' ++ x :: rest := hc
  have hspan := span_replicate hrest hspace
  have hbreak : isBreak x = false := isBreak_of_isInline (isInline_of_isPlainChar hx)
  rw [gap, hspan]
  simp only
  rw [takeBreak_of_not_break (by simpa using hbreak)]
  rfl

theorem scan_of_end {c : Cursor} {inFlow : Bool} {least : Int} {fuel : Nat} (h : c.rest = []) :
    scan inFlow least fuel c = ([], c, false) := by
  cases fuel with
  | zero => rfl
  | succ fuel => simp [scan, h, Plain.run]

/-- A word is no comment. -/
theorem head_ne_of_word {word : Text} (h : IsWord word) (rest : Text) : ((word ++ rest).head? == some '#') = false := by
  obtain ⟨x, more, rfl⟩ := List.exists_cons_of_ne_nil h.1
  simpa using isPlainChar_ne (h.2 x List.mem_cons_self) (by decide)

theorem isEmpty_of_word {word : Text} (h : IsWord word) : word.isEmpty = false := by simpa using h.1

/-- Behind a word the scalar goes on, or ends if nothing is added; then reading goes on at `next`. -/
inductive Adds (least : Int) (fuel : Nat) (c : Cursor) : (added : Text) → (next : Cursor) → Bool → Prop where
  | nothing {next : Cursor} {broken : Bool} : Stops least c next broken → Adds least fuel c [] next broken
  | more {between rest : Text} {x : Char} {d next : Cursor} {passed broken : Bool} :
      Plain.run false c.rest = [] → Plain.gap c = (⟨between, passed⟩, d) → between ≠ [] → d.rest.head? ≠ some '#' →
      least ≤ d.column → scan false least fuel d = (x :: rest, next, broken) →
      Adds least fuel c (between ++ x :: rest) next broken

/-- One word, and what is added to it. -/
theorem scan_word {word tail added : Text} {c next : Cursor} {least : Int} {broken : Bool} {fuel : Nat}
    (hword : IsWord word) (hc : c.rest = word ++ tail)
    (hadds : Adds least fuel ⟨tail, c.index + word.length, c.line, c.column + word.length⟩ added next broken) :
    scan false least (fuel + 1) c = (word ++ added, next, broken) := by
  have hstart : (c.rest.head? == some '#') = false := hc ▸ head_ne_of_word hword tail
  cases hadds with
  | nothing hstop =>
    obtain ⟨between, hgap, hends⟩ := hstop.gap
    have hrun : run false c.rest = word := by
      rw [hc]
      exact run_word hword.2 hstop.run
    have hfound : gap (c.skip word.length) = (⟨between, broken⟩, next) := by
      rw [skip_word hc hword.2]
      exact hgap
    rw [List.append_nil]
    cases hcond : between.isEmpty || next.rest.head? == some '#' || (!false && decide ((next.column : Int) < least)) with
    | true =>
      simp only [scan, hrun, isEmpty_of_word hword, hstart, hfound, hcond, Bool.or_false, Bool.false_eq_true, if_false,
        if_true]
    | false =>
      have hend : next.rest = [] := by
        rcases hends with h | h | h | h
        · simp [h] at hcond
        · simp [h] at hcond
        · simp [h] at hcond
        · exact h
      simp only [scan, hrun, isEmpty_of_word hword, hstart, hfound, hcond, scan_of_end hend, Bool.or_false,
        Bool.false_eq_true, if_false]
  | @more between rest x d _ passed _ htail hgap hbetween hsign hright hscan =>
    have hrun : run false c.rest = word := by
      rw [hc]
      exact run_word hword.2 htail
    have hfound : gap (c.skip word.length) = (⟨between, passed⟩, d) := by
      rw [skip_word hc hword.2]
      exact hgap
    have hempty : between.isEmpty = false := by simpa using hbetween
    have hgoes : (d.rest.head? == some '#') = false := by simpa using hsign
    have hinside : decide ((d.column : Int) < least) = false := by
      rw [decide_eq_false_iff_not]
      omega
    simp only [scan, hrun, isEmpty_of_word hword, hstart, hfound, hempty, hgoes, hinside, hscan, Bool.or_false,
      Bool.and_false, Bool.false_eq_true, if_false, List.append_assoc]

/-- Words are read as they stand. The induction is on the words: behind each but the last there is a
    single space, and the next word is right of the least column. -/
theorem scan_words {ws : List Text} {c next : Cursor} {tail added : Text} {least : Int} {broken : Bool} {fuel : Nat}
    (hne : ws ≠ []) (hws : ∀ w ∈ ws, IsWord w) (hc : c.rest = Text.glue [' '] ws ++ tail)
    (hcolumn : least ≤ c.column + 1)
    (hadds : Adds least fuel
      ⟨tail, c.index + (Text.glue [' '] ws).length, c.line, c.column + (Text.glue [' '] ws).length⟩ added next broken) :
    scan false least (fuel + ws.length) c = (Text.glue [' '] ws ++ added, next, broken) := by
  induction ws generalizing c with
  | nil => exact absurd rfl hne
  | cons w more ih =>
    obtain ⟨hw, hmore⟩ := List.forall_mem_cons.mp hws
    cases more with
    | nil => exact scan_word hw hc hadds
    | cons w' more =>
      rw [glue_cons_cons] at hc hadds ⊢
      have hrest := @ih ⟨Text.glue [' '] (w' :: more) ++ tail, c.index + w.length + 1, c.line, c.column + w.length + 1⟩
        (by simp) hmore rfl (by simp only; omega) (by
          simpa [Nat.add_assoc, Nat.add_comm, Nat.add_left_comm] using hadds)
      obtain ⟨x, glued, hglued, hx⟩ := @exists_glue w' more (hmore w' List.mem_cons_self)
      rw [hglued] at hc hrest ⊢
      have hspace : c.rest = w ++ ' ' :: x :: (glued ++ tail) := by simpa using hc
      have hnext : Adds least (fuel + (w' :: more).length) ⟨' ' :: x :: (glued ++ tail), c.index + w.length, c.line,
          c.column + w.length⟩ ([' '] ++ x :: (glued ++ added)) next broken :=
        .more (by simp [Plain.run, endsAt, isWhite]) (gap_space rfl hx) (by simp)
          (by simpa using isPlainChar_ne hx (by decide)) (by simp only; omega) hrest
      have hscan := scan_word hw hspace hnext
      rw [List.length_cons, ← Nat.add_assoc, hscan]
      simp

theorem length_le_glue {ws : List Text} (hws : ∀ w ∈ ws, IsWord w) : ws.length ≤ (Text.glue [' '] ws).length := by
  induction ws with
  | nil => exact Nat.le_refl _
  | cons w more ih =>
    obtain ⟨hw, hmore⟩ := List.forall_mem_cons.mp hws
    have hlength : 0 < w.length := List.length_pos_iff.mpr hw.1
    have hrest := ih hmore
    cases more with
    | nil => exact hlength
    | cons next more =>
      rw [glue_cons_cons]
      simp only [List.length_cons, List.length_append] at hrest ⊢
      omega

/-- The words of a line, and what is added to them. There is fuel enough if there is for each character. -/
theorem scan_line {text tail added : Text} {c next : Cursor} {least : Int} {broken : Bool} {fuel : Nat}
    (h : IsWords text) (hc : c.rest = text ++ tail) (hcolumn : least ≤ c.column + 1) (hfuel : c.rest.length ≤ fuel)
    (hadds : ∀ fuel, tail.length ≤ fuel →
      Adds least fuel ⟨tail, c.index + text.length, c.line, c.column + text.length⟩ added next broken) :
    scan false least fuel c = (text ++ added, next, broken) := by
  obtain ⟨ws, hne, hws, rfl⟩ := h
  have hlength := length_le_glue hws
  rw [hc, List.length_append] at hfuel
  obtain ⟨more, rfl⟩ : ∃ n, fuel = n + ws.length := ⟨fuel - ws.length, by omega⟩
  exact scan_words hne hws hc hcolumn (hadds more (by omega))

/-- The words of a line, if the scalar stops behind them. -/
theorem scan_stopped {text tail : Text} {c next : Cursor} {least : Int} {broken : Bool} (h : IsWords text)
    (hc : c.rest = text ++ tail) (hcolumn : least ≤ c.column + 1)
    (hstop : Stops least ⟨tail, c.index + text.length, c.line, c.column + text.length⟩ next broken) :
    scan false least (c.rest.length + 1) c = (text, next, broken) := by
  simpa using scan_line h hc hcolumn (Nat.le_succ _) fun _ _ => .nothing hstop

/-- A scalar stops at a colon that white space follows. -/
theorem stops_colon {c : Cursor} {rest : Text} {least : Int} (hc : c.rest = ':' :: rest) (hrest : atWhite rest = true) :
    Stops least c c false := by
  have hspan : c.span (· == ' ') = ([], c) := by simp [span, hc, skip]
  refine ⟨by simp [Plain.run, hc, endsAt, hrest], [], ?_, Or.inl rfl⟩
  rw [Plain.gap, hspan]
  simp only
  rw [takeBreak_of_not_break (by simp [hc, isBreak])]

/-- A scalar stops at the end of the text. -/
theorem stops_end {c : Cursor} {least : Int} (hc : c.rest = ['\n']) : Stops least c ⟨[], c.index + 1, c.line + 1, 0⟩ true := by
  have hspan : c.span (· == ' ') = ([], c) := by simp [span, hc, skip]
  refine ⟨by simp [Plain.run, hc, endsAt, isBreak], [' '], ?_, Or.inr (Or.inr (Or.inr rfl))⟩
  rw [Plain.gap, hspan]
  simp only
  rw [takeBreak_newline hc]
  rfl

end Plain
end YamlSplice.Yaml
