/-
  YamlSplice.Proofs.Edit.Match — the known lines that the lines of a changed block are matched with.

  The lines are taken in their order, and each is matched with the first known line from the cursor on that reads the same.
  The cursor then stands behind that one; if there is none, the line stays alone, and the cursor where it is.
  - `restoreLines_eq`: a line gets the mark of the known line that it is matched with.
  - `ascending_places`: the lines are matched in the order of the known ones, and no known line twice.
  - `exists_place_le`: no known line that could be the counterpart of a line is passed over.
  - `none_not_mem_places_iff`: no line stays alone exactly if the known lines, some left out, read like them.
  - `restore_matches`: all of this for a text.
-/

import Mathlib.Data.Fin.Tuple.Basic
import Mathlib.Data.List.Forall2
import Mathlib.Data.List.ReduceOption
import Mathlib.Data.List.TakeDrop
import YamlSplice.Edit.Margin
import YamlSplice.Proofs.Text.Lines

namespace YamlSplice

namespace Margin

variable {u content line : Text} {ls more : List Text} {known passed : List BlockLine} {cursor : Nat}

/-! ## The first counterpart -/

/-- What a known line reads, wherever it stands. -/
def reading (line : BlockLine) : Text := Text.strip line.content

theorem counterpart?_append (h : ∀ other ∈ passed, reading other ≠ content) (known : List BlockLine) :
    counterpart? content (passed ++ known) = counterpart? content known := by
  induction passed with
  | nil => rfl
  | cons first rest ih =>
    obtain ⟨hfirst, hrest⟩ := List.forall_mem_cons.mp h
    exact (if_neg hfirst).trans (ih hrest)

theorem counterpart?_eq_some {later : List BlockLine} {mark : Bool} (h : counterpart? content known = some (mark, later)) :
    (∃ line ∈ known, reading line = content ∧ line.indented = mark) ∧ ∀ line ∈ later, line ∈ known := by
  induction known with
  | nil => cases h
  | cons first rest ih =>
    unfold counterpart? at h
    split at h
    · next hfirst =>
      cases h
      exact ⟨⟨first, List.mem_cons_self, hfirst, rfl⟩, fun line hline => List.mem_cons_of_mem _ hline⟩
    · obtain ⟨⟨line, hline, hcontent⟩, hlater⟩ := ih h
      exact ⟨⟨line, List.mem_cons_of_mem _ hline, hcontent⟩, fun line hline => List.mem_cons_of_mem _ (hlater line hline)⟩

/-- The first line that reads the same has the most lines behind it. So wherever a line and more lines can be found, in this
    order, they are found with the first counterpart of the line too. -/
theorem cons_sublist_reading_iff : (content :: more).Sublist (known.map reading) ↔
    ∃ mark later, counterpart? content known = some (mark, later) ∧ more.Sublist (later.map reading) := by
  induction known with
  | nil => simp [counterpart?]
  | cons first rest ih =>
    rw [List.map_cons, List.cons_sublist_cons']
    by_cases hfirst : reading first = content
    · have hfound : counterpart? content (first :: rest) = some (first.indented, rest) := if_pos hfirst
      constructor
      · intro h
        refine ⟨_, _, hfound, ?_⟩
        rcases h with hlater | ⟨-, hhere⟩
        · exact List.sublist_of_cons_sublist hlater
        · exact hhere
      · intro ⟨mark, later, hcounterpart, hmore⟩
        rw [hfound] at hcounterpart
        cases hcounterpart
        exact Or.inr ⟨hfirst.symm, hmore⟩
    · have hnext : counterpart? content (first :: rest) = counterpart? content rest := if_neg hfirst
      rw [hnext, ← ih]
      exact or_iff_left fun h => hfirst h.1.symm

/-! ## The places of the counterparts -/

/-- The place of the first known line from the cursor on that reads like the line. -/
def place? (known : List BlockLine) (cursor : Nat) (line : Text) : Option (Fin known.length) :=
  Fin.find? fun place => decide (cursor ≤ place ∧ reading known[place] = Text.strip line)

/-- The places of the known lines that the lines are matched with. -/
def places (known : List BlockLine) : Nat → List Text → List (Option (Fin known.length))
  | _, [] => []
  | cursor, line :: rest =>
    match place? known cursor line with
    | some place => some place :: places known (place + 1) rest
    | none => none :: places known cursor rest

/-- A line with the mark of the known line at its place; alone it gets the unit if it is not blank. -/
def rowAt (u : Text) (known : List BlockLine) (line : Text) : Option (Fin known.length) → Text
  | some place => indentLine u known[place].indented line
  | none => indentLine u (Text.hasContent line) line

theorem place?_eq_some_iff {place : Fin known.length} : place? known cursor line = some place ↔
    (cursor ≤ place ∧ reading known[place] = Text.strip line) ∧
      ∀ other < place, cursor ≤ other → reading known[other] ≠ Text.strip line := by
  simp [place?]

theorem place?_eq_none_iff : place? known cursor line = none ↔
    ∀ place : Fin known.length, cursor ≤ place → reading known[place] ≠ Text.strip line := by
  simp [place?]

/-- The known lines that are passed over, the one at the place, and those behind it. -/
theorem drop_parts {place : Fin known.length} (h : cursor ≤ place) : known.drop cursor =
    (known.drop cursor).take (place - cursor) ++ known[place] :: known.drop (place + 1) := by
  have hbehind : known.drop place = (known.drop cursor).drop (place - cursor) := by
    rw [List.drop_drop, Nat.add_sub_cancel' h]
  have hhere : known.drop place = known[place] :: known.drop (place + 1) := List.drop_eq_getElem_cons place.isLt
  rw [← hhere, hbehind, List.take_append_drop]

/-- The place tells the counterpart, and what is left behind it. -/
theorem counterpart?_drop (known : List BlockLine) (cursor : Nat) (line : Text) :
    counterpart? (Text.strip line) (known.drop cursor) =
      (place? known cursor line).map fun place : Fin known.length => (known[place].indented, known.drop (place + 1)) := by
  cases h : place? known cursor line with
  | none =>
    have hnone : ∀ other ∈ known.drop cursor, reading other ≠ Text.strip line := by
      intro other hother
      obtain ⟨n, hn, rfl⟩ := List.mem_drop_iff_getElem.mp hother
      exact place?_eq_none_iff.mp h ⟨cursor + n, by omega⟩ (Nat.le_add_right cursor n)
    have hskip := counterpart?_append hnone []
    rwa [List.append_nil] at hskip
  | some place =>
    obtain ⟨⟨hcursor, hsame⟩, hfirst⟩ := place?_eq_some_iff.mp h
    have hpassed : ∀ other ∈ (known.drop cursor).take (place - cursor), reading other ≠ Text.strip line := by
      intro other hother
      obtain ⟨n, hn, rfl⟩ := List.mem_take_iff_getElem.mp hother
      rw [Nat.lt_min] at hn
      rw [List.getElem_drop]
      have hbefore : cursor + n < place := by omega
      exact hfirst ⟨cursor + n, hbefore.trans place.isLt⟩ hbefore (Nat.le_add_right cursor n)
    rw [drop_parts hcursor, counterpart?_append hpassed]
    exact if_pos hsame

/-- The lines are restored with the marks of the known lines at these places. -/
theorem restoreLines_eq (u : Text) (known : List BlockLine) (cursor : Nat) (ls : List Text) :
    restoreLines u ls (known.drop cursor) = List.zipWith (rowAt u known) ls (places known cursor ls) := by
  induction ls generalizing cursor with
  | nil => rfl
  | cons line rest ih =>
    rw [restoreLines, places, counterpart?_drop]
    cases place? known cursor line with
    | none => exact congrArg _ (ih cursor)
    | some place => exact congrArg _ (ih (place + 1))

/-- Each line reads like the known line at its place. -/
theorem places_same (known : List BlockLine) (cursor : Nat) (ls : List Text) :
    List.Forall₂ (fun line place => ∀ j ∈ place, reading known[j] = Text.strip line) ls (places known cursor ls) := by
  induction ls generalizing cursor with
  | nil => exact .nil
  | cons line rest ih =>
    rw [places]
    cases h : place? known cursor line with
    | none => exact .cons (by simp) (ih cursor)
    | some place =>
      refine .cons ?_ (ih (place + 1))
      rintro _ ⟨⟩
      exact (place?_eq_some_iff.mp h).1.2

/-- The places lie from the cursor on, one behind the other. -/
theorem ascending_places (known : List BlockLine) (cursor : Nat) (ls : List Text) :
    (∀ place ∈ (places known cursor ls).reduceOption, cursor ≤ place.val) ∧
      (places known cursor ls).reduceOption.Pairwise (· < ·) := by
  induction ls generalizing cursor with
  | nil => exact ⟨by simp [places], .nil⟩
  | cons line rest ih =>
    rw [places]
    cases h : place? known cursor line with
    | none => exact ih cursor
    | some place =>
      obtain ⟨hbehind, hascending⟩ := ih (place + 1)
      have hcursor : cursor ≤ place := (place?_eq_some_iff.mp h).1.1
      refine ⟨List.forall_mem_cons.mpr ⟨hcursor, ?_⟩, .cons hbehind hascending⟩
      intro other hother
      exact hcursor.trans (Nat.le_of_succ_le (hbehind other hother))

/-- No known line that reads like a line is passed over, once it stands behind the places of the lines above. -/
theorem exists_place_le {i : Nat} {k : Fin known.length} (hline : ls[i]? = some line) (hcursor : cursor ≤ k)
    (hsame : reading known[k] = Text.strip line) (hbehind : ∀ j, some j ∈ (places known cursor ls).take i → j < k) :
    ∃ j ≤ k, (places known cursor ls)[i]? = some (some j) := by
  induction ls generalizing cursor i with
  | nil => simp at hline
  | cons first rest ih =>
    rw [places] at hbehind ⊢
    cases i with
    | zero =>
      obtain rfl : first = line := by simpa using hline
      cases h : place? known cursor first with
      | none => exact absurd hsame (place?_eq_none_iff.mp h k hcursor)
      | some place =>
        refine ⟨place, ?_, rfl⟩
        by_contra hlater
        exact (place?_eq_some_iff.mp h).2 k (lt_of_not_ge hlater) hcursor hsame
    | succ i =>
      rw [List.getElem?_cons_succ] at hline
      cases h : place? known cursor first with
      | none =>
        simp only [h, List.take_succ_cons, List.mem_cons] at hbehind
        exact ih hline hcursor hsame fun j hj => hbehind j (Or.inr hj)
      | some place =>
        simp only [h, List.take_succ_cons, List.mem_cons] at hbehind
        exact ih hline (hbehind place (Or.inl rfl)) hsame fun j hj => hbehind j (Or.inr hj)

/-- No line stays alone exactly if the known lines from the cursor on, some of them left out, read like the lines. -/
theorem none_not_mem_places_iff (known : List BlockLine) (cursor : Nat) (ls : List Text) :
    none ∉ places known cursor ls ↔ (ls.map Text.strip).Sublist ((known.drop cursor).map reading) := by
  induction ls generalizing cursor with
  | nil => simp [places]
  | cons line rest ih =>
    rw [List.map_cons, cons_sublist_reading_iff, counterpart?_drop, places]
    cases place? known cursor line with
    | none => simp
    | some place => simp [ih]

/-! ## Lines with their marks -/

theorem forall₂_zipWith {α β γ : Type} {R : α → β → Prop} {S : α → γ → Prop} {f : α → β → γ} {as : List α} {bs : List β}
    (h : List.Forall₂ R as bs) (hf : ∀ a b, R a b → S a (f a b)) : List.Forall₂ S as (List.zipWith f as bs) := by
  induction h with
  | nil => exact .nil
  | cons hfirst _ ih => exact .cons (hf _ _ hfirst) ih

/-- The line with the mark of a known line that reads the same, or else with the unit if it is not blank. -/
def Restored (unit : Text) (known : List BlockLine) (line restored : Text) : Prop :=
  ∃ mark, restored = indentLine unit mark line ∧
    ((∃ other ∈ known, Text.strip other.content = Text.strip line ∧ other.indented = mark) ∨ mark = Text.hasContent line)

theorem restoreLines_restored (u : Text) (ls : List Text) (known : List BlockLine) :
    List.Forall₂ (Restored u known) ls (restoreLines u ls known) := by
  have hrows := restoreLines_eq u known 0 ls
  rw [List.drop_zero] at hrows
  rw [hrows]
  refine forall₂_zipWith (places_same known 0 ls) ?_
  intro line place hsame
  cases place with
  | none => exact ⟨_, rfl, Or.inr rfl⟩
  | some place => exact ⟨_, rfl, Or.inl ⟨known[place], List.getElem_mem _, hsame place rfl, rfl⟩⟩

theorem exists_of_mem_right {R : Text → Text → Prop} {ls others : List Text} (h : List.Forall₂ R ls others) {line : Text}
    (hline : line ∈ others) : ∃ old ∈ ls, R old line := by
  induction h with
  | nil => cases hline
  | cons hfirst _ ih =>
    rcases List.mem_cons.mp hline with rfl | hline
    · exact ⟨_, List.mem_cons_self, hfirst⟩
    · obtain ⟨old, hold, hr⟩ := ih hline
      exact ⟨old, List.mem_cons_of_mem _ hold, hr⟩

/-- No line is broken or joined with another. -/
theorem lines_restore {u : Text} (hunit : '\n' ∉ u) (text : Text) (known : List BlockLine) :
    Text.lines (restore text known u) = restoreLines u (Text.lines text) known := by
  have hrestored := restoreLines_restored u (Text.lines text) known
  rw [restore, Text.lines_unlines]
  · intro hnil
    rw [hnil, List.forall₂_nil_right_iff] at hrestored
    exact Text.pieces_ne_nil _ _ hrestored
  · intro line hline
    obtain ⟨old, hold, mark, rfl, -⟩ := exists_of_mem_right hrestored hline
    cases mark <;> simp [indentLine, hunit, Text.not_mem_of_mem_pieces hold]

/-- A line reads the same without the unit. -/
theorem strip_bareLine {line : BlockLine} (hblank : ∀ b ∈ u, Text.isBlank b = true)
    (h : line.indented = true → Text.startsWith line.content u = true) : Text.strip (bareLine u line) = reading line := by
  unfold bareLine
  split
  · next hindented =>
    obtain ⟨rest, hrest⟩ := Text.startsWith_iff.mp (h hindented)
    rw [reading, hrest, List.drop_left, Text.strip_blanks hblank]
  · rfl

/-! ## Texts -/

/-- Lines are matched, each with the known line at its place or with none. -/
structure Matching (known : List BlockLine) (ls : List Text) (found : List (Option (Fin known.length))) : Prop where
  /-- A line reads like the known line that it is matched with. -/
  same : List.Forall₂ (fun line place => ∀ j ∈ place, reading known[j] = Text.strip line) ls found
  ascending : found.reduceOption.Pairwise (· < ·)
  once : found.reduceOption.Nodup
  /-- It is the first one behind those of the lines above, and no line stays alone that could have one. -/
  first : ∀ i line k, ls[i]? = some line → reading known[k] = Text.strip line → (∀ j, some j ∈ found.take i → j < k) →
    ∃ j ≤ k, found[i]? = some (some j)

theorem matching_places (known : List BlockLine) (ls : List Text) : Matching known ls (places known 0 ls) := by
  obtain ⟨-, hascending⟩ := ascending_places known 0 ls
  exact ⟨places_same known 0 ls, hascending, hascending.imp ne_of_lt,
    fun _ _ k hline hsame => exists_place_le hline (Nat.zero_le k) hsame⟩

/-- A text is restored line by line, each line with the unit in front or as it is. The lines are matched with known lines
    that read the same, in their order and with none of them twice, and get their marks. No line stays alone exactly if the
    known lines, some of them left out, read like the lines. So it is if lines of the block at the margin were taken out
    and nothing else was changed, whichever lines these are. -/
theorem restore_matches (u text : Text) (known : List BlockLine) :
    restore text known u =
        Text.unlines (List.zipWith (rowAt u known) (Text.lines text) (places known 0 (Text.lines text))) ∧
    List.Forall₂ (fun line row => row = line ∨ row = u ++ line) (Text.lines text)
        (List.zipWith (rowAt u known) (Text.lines text) (places known 0 (Text.lines text))) ∧
    ('\n' ∉ u → Text.lines (restore text known u) =
        List.zipWith (rowAt u known) (Text.lines text) (places known 0 (Text.lines text))) ∧
    Matching known (Text.lines text) (places known 0 (Text.lines text)) ∧
    (none ∉ places known 0 (Text.lines text) ↔ ((Text.lines text).map Text.strip).Sublist (known.map reading)) ∧
    ((∀ b ∈ u, Text.isBlank b = true) → (∀ line ∈ known, line.indented = true → Text.startsWith line.content u = true) →
      (Text.lines text).Sublist (known.map (bareLine u)) → none ∉ places known 0 (Text.lines text)) := by
  have hrows := restoreLines_eq u known 0 (Text.lines text)
  have hcomplete := none_not_mem_places_iff known 0 (Text.lines text)
  rw [List.drop_zero] at hrows hcomplete
  refine ⟨congrArg Text.unlines hrows, ?_, fun hunit => (lines_restore hunit text known).trans hrows,
    matching_places known (Text.lines text), hcomplete, ?_⟩
  · rw [← hrows]
    refine (restoreLines_restored u (Text.lines text) known).imp ?_
    rintro line _ ⟨mark, rfl, -⟩
    cases mark with
    | true => exact Or.inr rfl
    | false => exact Or.inl rfl
  · intro hblank hindented hsublist
    have hreadings : (known.map (bareLine u)).map Text.strip = known.map reading := by
      rw [List.map_map]
      exact List.map_congr_left fun line hline => strip_bareLine hblank (hindented line hline)
    exact hcomplete.mpr (hreadings ▸ hsublist.map Text.strip)

/-- A row and one of the comments around it, which read the same, are taken out. The comment that is left is matched with the
    first one, which stands at the margin. -/
theorem restore_matches_comment_left :
    (places (marks "# note\n  a: 1\n  # note\n  b: 2\n".toList [' ', ' ']) 0
        (Text.lines "# note\nb: 2\n".toList)).reduceOption.map Fin.val = [0, 3, 4] ∧
    none ∉ places (marks "# note\n  a: 1\n  # note\n  b: 2\n".toList [' ', ' ']) 0 (Text.lines "# note\nb: 2\n".toList) ∧
    Text.lines (restore "# note\nb: 2\n".toList (marks "# note\n  a: 1\n  # note\n  b: 2\n".toList [' ', ' ']) [' ', ' ']) =
      ["# note".toList, "  b: 2".toList, []] := by
  have hunit : '\n' ∉ [' ', ' '] := by decide
  have hblank : ∀ b ∈ [' ', ' '], Text.isBlank b = true := List.all_eq_true.mp (by decide)
  have hindented : ∀ line ∈ marks "# note\n  a: 1\n  # note\n  b: 2\n".toList [' ', ' '],
      line.indented = true → Text.startsWith line.content [' ', ' '] = true := by
    intro line hline
    obtain ⟨content, -, rfl⟩ := List.mem_map.mp hline
    exact id
  have hsublist : (Text.lines "# note\nb: 2\n".toList).Sublist
      ((marks "# note\n  a: 1\n  # note\n  b: 2\n".toList [' ', ' ']).map (bareLine [' ', ' '])) := by decide
  obtain ⟨-, -, hlines, -, -, hmatched⟩ := restore_matches [' ', ' '] "# note\nb: 2\n".toList
    (marks "# note\n  a: 1\n  # note\n  b: 2\n".toList [' ', ' '])
  exact ⟨by decide, hmatched hblank hindented hsublist, (hlines hunit).trans (by decide)⟩

end Margin
end YamlSplice
