/-
  YamlSplice.Proofs.Edit.Unit — the line that decides the unit of a block.

  A line decides the unit by the spaces that it starts with, if a character that is no hyphen and no number sign stands
  behind them. The newline is such a character. So content decides the unit, and so does a line of nothing but spaces.
  - `unitAtStart?_eq_some_iff`: what stands at the start of a line that decides.
  - `unitWidth?_lines`: the first line that decides is found, wherever it stands.
  - `unit_scans`: the unit of a block whose only blanks are spaces and newlines.
  - `spaces_decide_unit`: a line of spaces above the content decides, and the content does not.
-/

import YamlSplice.Edit.Margin
import YamlSplice.Proofs.Region.Scan

namespace YamlSplice.Margin

open Text (Lined)

variable {key block line text : Text} {below : List Text} {n : Nat}

/-! ## One line -/

theorem drop_takeWhile (p : Char → Bool) (text : Text) : text.drop (text.takeWhile p).length = text.dropWhile p := by
  calc
    text.drop (text.takeWhile p).length = (text.takeWhile p ++ text.dropWhile p).drop (text.takeWhile p).length := by
      rw [List.takeWhile_append_dropWhile]
    _ = text.dropWhile p := List.drop_left

theorem unitAtStart?_eq_some_iff : unitAtStart? text = some n ↔
    0 < n ∧ ∃ c rest, text = List.replicate n ' ' ++ c :: rest ∧ c ≠ ' ' ∧ c ≠ '-' ∧ c ≠ '#' := by
  constructor
  · intro h
    have hspaces : text.takeWhile (· == ' ') = List.replicate (text.takeWhile (· == ' ')).length ' ' := by
      refine List.eq_replicate_iff.mpr ⟨rfl, ?_⟩
      intro c hc
      simpa using List.all_eq_true.mp List.all_takeWhile c hc
    have hparts := List.takeWhile_append_dropWhile (p := (· == ' ')) (l := text)
    have hhead := List.head?_dropWhile_not (· == ' ') text
    rw [unitAtStart?, drop_takeWhile] at h
    cases hrest : text.dropWhile (· == ' ') with
    | nil =>
      rw [hrest] at h
      cases h
    | cons c rest =>
      rw [hrest] at h hparts hhead
      simp only [List.isEmpty_iff, Bool.or_eq_true, beq_iff_eq] at h
      split at h
      · cases h
      · next hnone =>
        cases h
        simp only [not_or] at hnone
        refine ⟨List.length_pos_iff.mpr hnone.1.1, c, rest, ?_, by simpa using hhead, hnone.1.2, hnone.2⟩
        rw [← hspaces, hparts]
  · intro ⟨hpos, c, rest, htext, hspace, hhyphen, hnumber⟩
    have hspaces : text.takeWhile (· == ' ') = List.replicate n ' ' := by
      rw [htext, List.takeWhile_append_of_pos fun d hd => by simp [List.eq_of_mem_replicate hd]]
      simp [hspace]
    rw [unitAtStart?, hspaces, htext, List.drop_left]
    simp [Nat.ne_of_gt hpos, hhyphen, hnumber]

/-- The lines below do not matter, since the newline is no space. -/
theorem unitAtStart?_append (h : '\n' ∈ line) (more : Text) : unitAtStart? (line ++ more) = unitAtStart? line := by
  refine Option.ext fun n => ?_
  rw [unitAtStart?_eq_some_iff, unitAtStart?_eq_some_iff]
  constructor
  · intro ⟨hpos, c, rest, hparts, hc⟩
    refine ⟨hpos, c, ?_⟩
    have hspaces : '\n' ∉ List.replicate n ' ' := fun hmem => absurd (List.eq_of_mem_replicate hmem) (by decide)
    rcases List.append_eq_append_iff.mp hparts with ⟨tail, htail, -⟩ | ⟨tail, hline, htail⟩
    · exact absurd (htail ▸ List.mem_append_left tail h) hspaces
    · cases tail with
      | nil => exact absurd (by rwa [hline, List.append_nil] at h) hspaces
      | cons d tail =>
        obtain ⟨rfl, -⟩ := List.cons.inj htail
        exact ⟨tail, hline, hc⟩
  · intro ⟨hpos, c, rest, hline, hc⟩
    exact ⟨hpos, c, rest ++ more, by rw [hline, List.append_assoc, List.cons_append], hc⟩

/-! ## All lines -/

theorem unitAfterNewline?_last (h : '\n' ∉ text) : unitAfterNewline? text = none := by
  induction text with
  | nil => rfl
  | cons c text ih =>
    rw [List.mem_cons, not_or] at h
    rw [unitAfterNewline?, if_neg (Ne.symm h.1), ih h.2]

theorem unitAfterNewline?_line (h : '\n' ∉ text) (rest : Text) :
    unitAfterNewline? (text ++ '\n' :: rest) = unitWidth? rest := by
  induction text with
  | nil => rfl
  | cons c text ih =>
    rw [List.mem_cons, not_or] at h
    rw [List.cons_append, unitAfterNewline?, if_neg (Ne.symm h.1), ih h.2]

theorem unitWidth?_lines {ls : List Text} (h : Lined ls) : unitWidth? ls.flatten = ls.findSome? unitAtStart? := by
  induction h with
  | nil => rfl
  | @last line hline =>
    rw [List.flatten_singleton, unitWidth?, unitAfterNewline?_last hline, List.findSome?_singleton]
    cases unitAtStart? line <;> rfl
  | @cons front more hfront _ ih =>
    rw [List.flatten_cons, unitWidth?, unitAtStart?_append (by simp), List.append_assoc, List.singleton_append,
      unitAfterNewline?_line hfront, ih, List.findSome?_cons]
    cases unitAtStart? (front ++ ['\n']) <;> rfl

/-! ## Lines that decide -/

/-- The line starts with `n` spaces, and content that is neither a comment nor an item stands behind them. -/
def IsContent (n : Nat) (line : Text) : Prop :=
  0 < n ∧ ∃ c rest, line = List.replicate n ' ' ++ c :: rest ∧ Text.isBlank c = false ∧ c ≠ '-' ∧ c ≠ '#'

/-- The line is nothing but `n` spaces, and ends with a newline. -/
def IsSpaces (n : Nat) (line : Text) : Prop := 0 < n ∧ line = List.replicate n ' ' ++ ['\n']

theorem unitAtStart?_of_decides (h : IsContent n line ∨ IsSpaces n line) : unitAtStart? line = some n := by
  rw [unitAtStart?_eq_some_iff]
  rcases h with ⟨hpos, c, rest, hline, hblank, hhyphen, hnumber⟩ | ⟨hpos, hline⟩
  · refine ⟨hpos, c, rest, hline, ?_, hhyphen, hnumber⟩
    intro hspace
    rw [hspace] at hblank
    cases hblank
  · exact ⟨hpos, '\n', [], hline, by decide, by decide, by decide⟩

/-- Where the only blanks are spaces and newlines, nothing but content and lines of spaces decides. -/
theorem decides_of_unitAtStart? (hblanks : ∀ c ∈ line, Text.isBlank c = true → c = ' ' ∨ c = '\n')
    (hlined : Lined (line :: below)) (h : unitAtStart? line = some n) : IsContent n line ∨ IsSpaces n line := by
  obtain ⟨hpos, c, rest, hline, hspace, hhyphen, hnumber⟩ := unitAtStart?_eq_some_iff.mp h
  cases hblank : Text.isBlank c with
  | false => exact Or.inl ⟨hpos, c, rest, hline, hblank, hhyphen, hnumber⟩
  | true =>
    obtain rfl := (hblanks c (by simp [hline]) hblank).resolve_left hspace
    obtain rfl := Lined.newline_last (hline ▸ hlined)
    exact Or.inr ⟨hpos, hline⟩

/-- The unit is what the first line that decides starts with, a line of content or one of nothing but spaces. Without
    such a line there is none. So content decides as long as no line of spaces stands above it. -/
theorem unit_scans (hblanks : ∀ c ∈ block, Text.isBlank c = true → c = ' ' ∨ c = '\n') :
    (unit key block = .error (.noIndent key block) ↔ ∀ line ∈ block.fullLines, ∀ n, ¬ (IsContent n line ∨ IsSpaces n line)) ∧
    ∀ above line below n, block.fullLines = above ++ line :: below → IsContent n line ∨ IsSpaces n line →
      (∀ other ∈ above, ∀ m, ¬ (IsContent m other ∨ IsSpaces m other)) → unit key block = .ok (List.replicate n ' ') := by
  have hwidth : unitWidth? block = block.fullLines.findSome? unitAtStart? := by
    rw [← unitWidth?_lines block.lined_fullLines, Text.fullLines_flatten]
  have hquiet : ∀ line ∈ block.fullLines, unitAtStart? line = none ↔ ∀ n, ¬ (IsContent n line ∨ IsSpaces n line) := by
    intro line hline
    obtain ⟨above, below, hlines⟩ := List.append_of_mem hline
    have hlined := block.lined_fullLines
    rw [hlines] at hlined
    have hown : ∀ c ∈ line, Text.isBlank c = true → c = ' ' ∨ c = '\n' := by
      intro c hc
      apply hblanks
      rw [← block.fullLines_flatten]
      exact List.mem_flatten_of_mem hline hc
    rw [Option.eq_none_iff_forall_ne_some]
    exact forall_congr' fun n => not_congr ⟨decides_of_unitAtStart? hown hlined.of_append, unitAtStart?_of_decides⟩
  constructor
  · have hnone : unit key block = .error (.noIndent key block) ↔ unitWidth? block = none := by
      unfold unit
      cases unitWidth? block <;> simp
    rw [hnone, hwidth, List.findSome?_eq_none_iff]
    exact forall₂_congr hquiet
  · intro above line below n hlines hline habove
    have hnone : above.findSome? unitAtStart? = none := by
      rw [List.findSome?_eq_none_iff]
      intro other hother
      exact (hquiet other (by simp [hlines, hother])).mpr (habove other hother)
    have hfirst : unitWidth? block = some n := by
      rw [hwidth, hlines, List.findSome?_append, hnone, Option.none_or, List.findSome?_cons, unitAtStart?_of_decides hline]
    rw [unit, hfirst]

/-- An item, a comment and an empty line stand above the content. -/
theorem unit_scans_below_item :
    unit "k".toList "- x\n # c\n\n   a: 1\n  b: 2\n".toList = .ok (List.replicate 3 ' ') := by
  have hblanks : ∀ c ∈ "- x\n # c\n\n   a: 1\n  b: 2\n".toList, Text.isBlank c = true → c = ' ' ∨ c = '\n' := by
    have hall : "- x\n # c\n\n   a: 1\n  b: 2\n".toList.all (fun c => !Text.isBlank c || c == ' ' || c == '\n') = true := by
      decide
    intro c hc hblank
    simpa [hblank] using List.all_eq_true.mp hall c hc
  have hlines : Text.fullLines "- x\n # c\n\n   a: 1\n  b: 2\n".toList =
      ["- x\n".toList, " # c\n".toList, "\n".toList] ++ "   a: 1\n".toList :: ["  b: 2\n".toList] := by decide
  have hcontent : IsContent 3 "   a: 1\n".toList := ⟨by decide, 'a', ": 1\n".toList, rfl, by decide, by decide, by decide⟩
  have hnone : ∀ other ∈ ["- x\n".toList, " # c\n".toList, "\n".toList], unitAtStart? other = none := by decide
  refine (unit_scans hblanks).2 _ _ _ 3 hlines (Or.inl hcontent) ?_
  intro other hother m hm
  have hsome := unitAtStart?_of_decides hm
  rw [hnone other hother] at hsome
  cases hsome

/-! ## Exceptions -/

/-- The first line with content starts with two spaces, but the unit is the four spaces of the line above it, which has
    none. -/
theorem spaces_decide_unit :
    Text.fullLines "    \n  a: 1\n".toList = ["    \n".toList, "  a: 1\n".toList] ∧
    (∀ n, ¬ IsContent n "    \n".toList) ∧ IsContent 2 "  a: 1\n".toList ∧
    unit "k".toList "    \n  a: 1\n".toList = .ok "    ".toList ∧ "    ".toList ≠ List.replicate 2 ' ' := by
  have hblanks : ∀ c ∈ "    \n".toList, Text.isBlank c = true := List.all_eq_true.mp (by decide)
  refine ⟨by decide, ?_, ⟨by decide, 'a', ": 1\n".toList, rfl, by decide, by decide, by decide⟩, rfl, by decide⟩
  intro n ⟨_, c, rest, hline, hc, _, _⟩
  rw [hblanks c (by simp [hline])] at hc
  cases hc

end YamlSplice.Margin
