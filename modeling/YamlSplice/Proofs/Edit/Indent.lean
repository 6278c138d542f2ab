/-
  YamlSplice.Proofs.Edit.Indent — a block of even indentation is changed as if it stood at the margin.

  In an even block every line starts with the unit, but for blank lines and comments. Then every line
  of the changed block gets the unit back, but for some of these, whatever the change was.
  - `restore_indented`: the lines of the changed block.
  - `restoreLines_kept`: lines that are left when others are taken out.
  - `restore_between`: in a block of which only some lines are replaced, the others are put back where they
    were, even or not.
  - `restore_bare`: a block that is not changed is the same afterwards.
  - `change_eq_ok`: what a change comes to.
  - `restore_replaced`: the same for lines that are replaced by number.
-/

import Mathlib.Data.List.Forall2
import Mathlib.Data.List.TakeDrop
import YamlSplice.Proofs.Edit.Match
import YamlSplice.Proofs.Edit.Outcome
import YamlSplice.Proofs.Edit.Unit
import YamlSplice.Proofs.Text.Lines

namespace YamlSplice

namespace Margin

/-- The line is blank or a comment, and so it reads the same wherever it stands. -/
def isRemark (line : Text) : Bool := (Text.strip line).head?.all (· == '#')

/-- Every line starts with the unit, unless it is a remark. -/
def Even (unit block : Text) : Prop :=
  ∀ line ∈ Text.lines block, isRemark line = false → Text.startsWith line unit = true

/-- No blank line starts with the unit. -/
def Flat (unit block : Text) : Prop :=
  ∀ line ∈ Text.lines block, Text.hasContent line = false → Text.startsWith line unit = false

/-- The line with the unit in front, which only a remark may lack. In a flat block a blank line does. -/
def Indented (unit block line indented : Text) : Prop :=
  ∃ mark, indented = indentLine unit mark line ∧ (isRemark line = false → mark = true) ∧
    (Flat unit block → Text.hasContent line = false → mark = false)

/-! ## Putting the unit back -/

theorem hasContent_of_not_remark {line : Text} (h : isRemark line = false) : Text.hasContent line = true := by
  cases hcontent : Text.hasContent line with
  | true => rfl
  | false =>
    rw [isRemark, (Text.strip_eq_nil_iff line).mpr hcontent] at h
    cases h

/-- A line that is no remark has a counterpart with the unit, or none, and a blank line has a blank one. -/
theorem restore_indented {unit block : Text} (hunit : '\n' ∉ unit) (h : Even unit block) (text : Text) :
    List.Forall₂ (Indented unit block) (Text.lines text) (Text.lines (restore text (marks block unit) unit)) := by
  rw [lines_restore hunit]
  refine (restoreLines_restored unit (Text.lines text) (marks block unit)).imp ?_
  intro line restored ⟨mark, hline, hmark⟩
  refine ⟨mark, hline, fun hnone => ?_, fun hflat hblank => ?_⟩
  · rcases hmark with ⟨other, hother, hsame, rfl⟩ | rfl
    · obtain ⟨content, hcontent, rfl⟩ := List.mem_map.mp hother
      exact h content hcontent (by rwa [isRemark, hsame])
    · exact hasContent_of_not_remark hnone
  · rcases hmark with ⟨other, hother, hsame, rfl⟩ | rfl
    · obtain ⟨content, hcontent, rfl⟩ := List.mem_map.mp hother
      exact hflat content hcontent ((Text.strip_eq_nil_iff _).mp (hsame.trans ((Text.strip_eq_nil_iff line).mpr hblank)))
    · exact hblank

/-! ## Lines that are not changed -/

/-- A line of a block with its mark. -/
def mark (u line : Text) : BlockLine := ⟨line, Text.startsWith line u⟩

/-- A line of a block without the unit, if it starts with it. -/
def unindented (u line : Text) : Text := bareLine u (mark u line)

/-- A line with the unit in front, unless it is blank. -/
def underUnit (u line : Text) : Text := indentLine u (Text.hasContent line) line

theorem bare_marks (block u : Text) : bare (marks block u) u = Text.unlines ((Text.lines block).map (unindented u)) := by
  rw [bare, marks, List.map_map]
  rfl

theorem newline_not_mem_unindented {u block : Text} {ls : List Text} (h : ls ⊆ Text.lines block) :
    ∀ line ∈ ls.map (unindented u), '\n' ∉ line := by
  intro line hline
  obtain ⟨old, hold, rfl⟩ := List.mem_map.mp hline
  have hnewline : '\n' ∉ old := Text.not_mem_of_mem_pieces (h hold)
  unfold unindented bareLine
  split
  · exact fun hmem => hnewline (List.mem_of_mem_drop hmem)
  · exact hnewline

theorem lines_bare (block u : Text) : Text.lines (bare (marks block u) u) = (Text.lines block).map (unindented u) := by
  rw [bare_marks, Text.lines_unlines ?_ (newline_not_mem_unindented (List.Subset.refl _))]
  exact fun h => Text.pieces_ne_nil '\n' block (List.map_eq_nil_iff.mp h)

theorem unindented_nil (u : Text) : unindented u [] = [] := by simp [unindented, bareLine, mark]

/-- The empty line behind the last newline stays. -/
theorem endsLine_bare {block : Text} (u : Text) (h : Text.endsLine block = true) :
    Text.endsLine (bare (marks block u) u) = true := by
  obtain ⟨ls, hne, hlines, -⟩ := Text.exists_lines_of_endsLine h
  rw [bare_marks, hlines, List.map_append, List.map_singleton, unindented_nil]
  exact Text.endsLine_unlines (by simpa using hne)

theorem indentLine_unindented (u line : Text) : indentLine u (Text.startsWith line u) (unindented u line) = line := by
  unfold indentLine unindented bareLine mark
  by_cases hindented : Text.startsWith line u = true
  · obtain ⟨more, hmore⟩ := Text.startsWith_iff.mp hindented
    rw [if_pos hindented, if_pos hindented, hmore, List.drop_left]
  · rw [if_neg hindented, if_neg hindented]

theorem counterpart?_eq_none {u content : Text} {block : List Text} (h : ∀ other ∈ block, Text.strip other ≠ content) :
    counterpart? content (block.map (mark u)) = none := by
  have hskip := counterpart?_append (List.forall_mem_map.mpr h : ∀ other ∈ block.map (mark u), reading other ≠ content) []
  rwa [List.append_nil] at hskip

/-- A line like none of the block has no counterpart, and gets the unit if it is not blank. -/
theorem restoreLines_new {u : Text} {new block : List Text}
    (h : ∀ line ∈ new, ∀ other ∈ block, Text.strip other ≠ Text.strip line) (more : List Text) :
    restoreLines u (new ++ more) (block.map (mark u)) = new.map (underUnit u) ++ restoreLines u more (block.map (mark u)) := by
  induction new with
  | nil => rfl
  | cons line rest ih =>
    obtain ⟨hline, hrest⟩ := List.forall_mem_cons.mp h
    rw [List.cons_append, restoreLines, counterpart?_eq_none hline]
    simp only
    rw [ih hrest, List.map_cons, List.cons_append]
    rfl

section Untouched

variable {u : Text} {front own back new : List Text} (hblank : ∀ b ∈ u, Text.isBlank b = true)

include hblank

theorem strip_unindented (line : Text) : Text.strip (unindented u line) = Text.strip line := strip_bareLine hblank id

/-- As long as nothing has changed, every line is its own counterpart. -/
theorem restoreLines_front (front more : List Text) (known : List BlockLine) :
    restoreLines u (front.map (unindented u) ++ more) (front.map (mark u) ++ known) = front ++ restoreLines u more known := by
  induction front with
  | nil => rfl
  | cons line rest ih =>
    have hfound : counterpart? (Text.strip line) ((line :: rest).map (mark u) ++ known) =
        some (Text.startsWith line u, rest.map (mark u) ++ known) := if_pos rfl
    rw [List.map_cons, List.cons_append, restoreLines, strip_unindented hblank, hfound]
    simp only
    rw [ih, indentLine_unindented, List.cons_append]

/-- Lines of a block that are left when others are taken out find their counterparts. That may be another line that reads
    the same, but if it has the same mark, they are put back as they were. -/
theorem restoreLines_kept {kept : List Text} {known : List BlockLine}
    (hkept : (kept.map Text.strip).Sublist (known.map reading))
    (hagree : ∀ line ∈ kept, ∀ other ∈ known, reading other = Text.strip line → other.indented = Text.startsWith line u) :
    restoreLines u (kept.map (unindented u)) known = kept := by
  induction kept generalizing known with
  | nil => rfl
  | cons line rest ih =>
    obtain ⟨mark, later, hfound, hrest⟩ := cons_sublist_reading_iff.mp hkept
    obtain ⟨⟨other, hother, hsame, rfl⟩, hlater⟩ := counterpart?_eq_some hfound
    have hmark := hagree line List.mem_cons_self other hother hsame
    rw [List.map_cons, restoreLines, strip_unindented hblank, hfound, hmark]
    simp only
    rw [indentLine_unindented, ih hrest fun line hline other hother =>
      hagree line (List.mem_cons_of_mem _ hline) other (hlater other hother)]

/-- Behind lines that were passed over the counterpart of a line may be another one like it, but then that has the
    same mark. -/
theorem restoreLines_back {passed : List Text} (hagree : ∀ line ∈ passed ++ back, ∀ other ∈ passed ++ back,
      Text.strip line = Text.strip other → Text.startsWith line u = Text.startsWith other u) :
    restoreLines u (back.map (unindented u)) ((passed ++ back).map (mark u)) = back := by
  refine restoreLines_kept hblank ?_ ?_
  · rw [List.map_map]
    exact (List.sublist_append_right passed back).map Text.strip
  · intro line hline other hother hsame
    obtain ⟨content, hcontent, rfl⟩ := List.mem_map.mp hother
    exact hagree content hcontent line (List.mem_append_right _ hline) hsame

/-- Where lines of a block at the margin are replaced, by lines like none of those from there on, every other line is
    put back where it was. -/
theorem restore_between {block : Text} (hblock : Text.lines block = front ++ (own ++ back)) (hback : back ≠ [])
    (hlines : ∀ line ∈ new, '\n' ∉ line)
    (hagree : ∀ line ∈ own ++ back, ∀ other ∈ own ++ back, Text.strip line = Text.strip other →
      Text.startsWith line u = Text.startsWith other u)
    (hnew : ∀ line ∈ new, ∀ other ∈ own ++ back, Text.strip other ≠ Text.strip line) :
    restore (Text.unlines (front.map (unindented u) ++ (new ++ back.map (unindented u)))) (marks block u) u =
      Text.unlines (front ++ (new.map (underUnit u) ++ back)) := by
  have hbare : ∀ line ∈ front.map (unindented u) ++ (new ++ back.map (unindented u)), '\n' ∉ line := by
    have hfront : front ⊆ Text.lines block := by simp [hblock]
    have hbehind : back ⊆ Text.lines block := by simp [hblock]
    exact List.forall_mem_append.mpr ⟨newline_not_mem_unindented hfront,
      List.forall_mem_append.mpr ⟨hlines, newline_not_mem_unindented hbehind⟩⟩
  have hmarks : marks block u = front.map (mark u) ++ (own ++ back).map (mark u) := by
    rw [← List.map_append, ← hblock]
    rfl
  rw [restore, Text.lines_unlines (by simp [hback]) hbare, hmarks, restoreLines_front hblank, restoreLines_new hnew,
    restoreLines_back hblank hagree]

/-- A block that is taken to the margin and put back is the same block. -/
theorem restore_bare (block : Text) : restore (bare (marks block u) u) (marks block u) u = block := by
  have hrestored := restoreLines_front hblank (Text.lines block) [] []
  simp only [List.append_nil, restoreLines] at hrestored
  rw [restore, lines_bare]
  exact (congrArg Text.unlines hrestored).trans (Text.unlines_lines block)

end Untouched

/-! ## Changes -/

/-- The unit is made of spaces, one at least. -/
theorem unit_eq_ok {key block unit : Text} (h : Margin.unit key block = .ok unit) :
    ∃ width, 0 < width ∧ unit = List.replicate width ' ' := by
  unfold Margin.unit at h
  split at h
  · next width hwidth =>
    cases h
    rw [← block.fullLines_flatten, unitWidth?_lines block.lined_fullLines] at hwidth
    obtain ⟨line, -, hline⟩ := List.exists_of_findSome?_eq_some hwidth
    exact ⟨width, (unitAtStart?_eq_some_iff.mp hline).1, rfl⟩
  · cases h

theorem change_eq_ok {key block result : Text} {f : Text → Run Text} :
    (change key block f).result = .ok result ↔
      ∃ unit changed, Margin.unit key block = .ok unit ∧ (f (bare (marks block unit) unit)).result = .ok changed ∧
        result = Text.closeLine (restore changed (marks block unit) unit) := by
  rw [change]
  constructor
  · intro h
    obtain ⟨unit, hunit, h⟩ := Run.bind_eq_ok.mp h
    obtain ⟨-, -, h⟩ := Run.bind_eq_ok.mp h
    obtain ⟨changed, hchanged, h⟩ := Run.bind_eq_ok.mp h
    cases h
    exact ⟨unit, changed, hunit, hchanged, rfl⟩
  · rintro ⟨unit, changed, hunit, hchanged, rfl⟩
    exact Run.bind_eq_ok.mpr ⟨unit, hunit, Run.bind_eq_ok.mpr ⟨(), rfl, Run.bind_eq_ok.mpr ⟨changed, hchanged, rfl⟩⟩⟩

theorem unit_isBlank {key block unit : Text} (h : Margin.unit key block = .ok unit) : ∀ b ∈ unit, Text.isBlank b = true := by
  obtain ⟨width, -, rfl⟩ := unit_eq_ok h
  intro b hb
  rw [List.eq_of_mem_replicate hb]
  decide

/-- A change that leaves a block at the margin as it is leaves it as it is where it stands. -/
theorem change_same {key block unit : Text} {f : Text → Run Text} (hunit : Margin.unit key block = .ok unit)
    (hclosed : Text.endsLine block = true)
    (h : (f (bare (marks block unit) unit)).result = .ok (bare (marks block unit) unit)) :
    (change key block f).result = .ok block := by
  refine change_eq_ok.mpr ⟨unit, _, hunit, h, ?_⟩
  rw [restore_bare (unit_isBlank hunit), Text.closeLine_of_endsLine hclosed]

/-! ## Lines replaced by number -/

/-- In a block of the lines `ls`, those from the line `i` up to the line `j` are to be replaced by the lines `new`. From
    the line `i` on, lines that read the same stand alike under the unit, and none of the new ones reads the same as one
    of them. -/
structure Replacement (u : Text) (ls new : List Text) (i j : Nat) : Prop where
  ordered : i ≤ j
  /-- The last line, which has no newline, stays. -/
  inside : j < ls.length
  oneLine : ∀ line ∈ ls, '\n' ∉ line
  newOneLine : ∀ line ∈ new, '\n' ∉ line
  alike : ∀ line ∈ ls.drop i, ∀ other ∈ ls.drop i, Text.strip line = Text.strip other →
    Text.startsWith line u = Text.startsWith other u
  unlike : ∀ line ∈ new, ∀ other ∈ ls.drop i, Text.strip other ≠ Text.strip line

namespace Replacement

variable {u : Text} {ls new : List Text} {i j : Nat}

/-- Nothing put in front of the last line is a replacement in every block. -/
theorem nothing (hne : ls ≠ []) (hlines : ∀ line ∈ ls, '\n' ∉ line) :
    Replacement u ls [] (ls.length - 1) (ls.length - 1) := by
  have hpos : 0 < ls.length := List.length_pos_iff.mpr hne
  have hlast : ls.drop (ls.length - 1) = [ls.getLast hne] := List.drop_length_sub_one hne
  refine ⟨Nat.le_refl _, by omega, hlines, by simp, fun line hline other hother _ => ?_, by simp⟩
  rw [hlast, List.mem_singleton] at hline hother
  rw [hline, hother]

/-- The lines above, those replaced, and those below. -/
theorem parts (h : Replacement u ls new i j) :
    ls = ls.take i ++ ((ls.drop i).take (j - i) ++ ls.drop j) ∧ (ls.drop i).take (j - i) ++ ls.drop j = ls.drop i ∧
      ls.drop j ≠ [] := by
  have hbehind : ls.drop j = (ls.drop i).drop (j - i) := by rw [List.drop_drop, Nat.add_sub_cancel' h.ordered]
  have hown : (ls.drop i).take (j - i) ++ ls.drop j = ls.drop i := by rw [hbehind, List.take_append_drop]
  exact ⟨by rw [hown, List.take_append_drop], hown, by simpa using h.inside⟩

theorem lines_eq (h : Replacement u ls new i j) : Text.lines (Text.unlines ls) = ls :=
  Text.lines_unlines (List.ne_nil_of_length_pos (Nat.zero_lt_of_lt h.inside)) h.oneLine

/-- In the block at the margin the lines are replaced, and every other line is put back where it was. -/
theorem restore_eq (h : Replacement u ls new i j) (hblank : ∀ b ∈ u, Text.isBlank b = true) :
    restore (Text.unlines ((ls.map (unindented u)).take i ++ new ++ (ls.map (unindented u)).drop j))
        (marks (Text.unlines ls) u) u =
      Text.unlines (ls.take i ++ new.map (underUnit u) ++ ls.drop j) := by
  obtain ⟨hparts, hown, hback⟩ := h.parts
  have hlines := h.lines_eq.trans hparts
  have halike := h.alike
  have hunlike := h.unlike
  rw [← hown] at halike hunlike
  have hrestored := restore_between hblank hlines hback h.newOneLine halike hunlike
  simpa only [List.map_take, List.map_drop, List.append_assoc] using hrestored

end Replacement

/-- Lines of a block at the margin are replaced, by number. Every other line is put back as it was, and a new line gets
    the unit, unless it is blank. To replace nothing in front of the last line is always possible; so a block that is
    taken to the margin and not changed there is the same block again. -/
theorem restore_replaced {u : Text} (hspaces : ∀ c ∈ u, c = ' ') :
    (∀ ls new i j, Replacement u ls new i j →
      restore (Text.unlines ((Text.lines (bare (marks (Text.unlines ls) u) u)).take i ++ new ++
          (Text.lines (bare (marks (Text.unlines ls) u) u)).drop j)) (marks (Text.unlines ls) u) u =
        Text.unlines (ls.take i ++ new.map (underUnit u) ++ ls.drop j)) ∧
    (∀ ls, ls ≠ [] → (∀ line ∈ ls, '\n' ∉ line) → Replacement u ls [] (ls.length - 1) (ls.length - 1)) ∧
    ∀ key block unit, Text.endsLine block = true → Margin.unit key block = .ok unit →
      (change key block pure).result = .ok block := by
  have hblank : ∀ b ∈ u, Text.isBlank b = true := by
    intro b hb
    rw [hspaces b hb]
    decide
  refine ⟨fun ls new i j h => ?_, fun _ => Replacement.nothing, fun key block unit hends hunit => ?_⟩
  · rw [lines_bare, h.lines_eq]
    exact h.restore_eq hblank
  · exact change_same hunit hends rfl

/-- Two lines in the place of one, below a comment that is not indented; two blank lines follow. -/
theorem restore_replaced_below_comment :
    restore "a: 1\n# c\nb: 3\nd: 4\n\n".toList (marks "  a: 1\n# c\n  b: 2\n\n".toList [' ', ' ']) [' ', ' '] =
        "  a: 1\n# c\n  b: 3\n  d: 4\n\n".toList ∧
      (change "p".toList "  a: 1\n# c\n  b: 2\n\n".toList pure).result = .ok "  a: 1\n# c\n  b: 2\n\n".toList := by
  have hspaces : ∀ c ∈ [' ', ' '], c = ' ' := by simp
  have hreplacement : Replacement [' ', ' '] ["  a: 1".toList, "# c".toList, "  b: 2".toList, [], []]
      ["b: 3".toList, "d: 4".toList] 2 3 :=
    ⟨by decide, by decide, by decide, by decide, by decide, by decide⟩
  obtain ⟨hput, -, hback⟩ := restore_replaced hspaces
  exact ⟨hput _ _ _ _ hreplacement, hback _ _ [' ', ' '] rfl rfl⟩

end Margin
end YamlSplice
