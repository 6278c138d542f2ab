/-
  YamlSplice.Proofs.Region.Lens — what is put in the place of a key is found there again.

  A located key is a view of the text that can be written through. What it holds may be put back, what is put there is
  what the key then holds, and of two texts put there one after the other only the second counts. The text put there
  has to be one that the key takes up from the first line to the last; then no line of it ends the value early, and the
  line below ends it where the old value ended.
  - `Cut.splice`: the place of the key after it was replaced.
  - `ofKey?_splice`: the key is located at what was put there.
  - `splice_lens`: the three laws.
-/

import YamlSplice.Proofs.Region.Commute

namespace YamlSplice.Region

/-- What the region takes up of a text, behind its lead. -/
def own (region : Region) (text : Text) : Text := (text.take region.stop).drop (region.start + region.lead.length)

/-- The region of the key at the same place, with another text there and the value that it has in it. -/
def overwritten (region : Region) (new value : Text) : Region :=
  { region with stop := region.start + region.lead.length + new.length, value }

variable {key text new value : Text} {region : Region}

theorem Cut.own_eq {before body after : Text} (h : Cut region text before body after) : region.own text = body := by
  have htake : text.take region.stop = before ++ region.lead ++ body := by rw [h.whole, ← h.stop, List.take_left]
  rw [own, htake, ← h.start, ← List.length_append, List.drop_left]

/-- The text that was put in the place of a region is cut out by the overwritten region. -/
theorem Cut.splice {before body after : Text} (h : Cut region text before body after) (new value : Text) :
    Cut (region.overwritten new value) (Region.splice region text new) before new after where
  whole := h.splice_eq new
  start := h.start
  stop := by simp only [overwritten, List.length_append, h.start]

/-- The text is as it was if a region is replaced by what it holds. -/
theorem splice_own (h : ofKey? key text = some region) : splice region text (region.own text) = text := by
  obtain ⟨before, body, after, hcut, -⟩ := ofKey?_cut h
  rw [hcut.own_eq, hcut.splice_eq, ← hcut.whole]

/-- Of two texts put in the place of a region, the second stays. -/
theorem splice_splice (h : ofKey? key text = some region) (new value other : Text) :
    splice (region.overwritten new value) (splice region text new) other = splice region text other := by
  obtain ⟨before, body, after, hcut, -⟩ := ofKey?_cut h
  rw [(hcut.splice new value).splice_eq, hcut.splice_eq]
  rfl

/-- Below the same lines a key is located at its own lines, with the value that it has in them alone. -/
theorem scanned_overwritten (above more newMore : List Text) (line rest newLine newRest : Text)
    (h : scanned [] newLine newRest newMore = ⟨0, new.length, [], value⟩) :
    scanned above newLine newRest newMore = (scanned above line rest more).overwritten new value := by
  simp only [scanned, List.flatten_nil, List.length_nil, Region.mk.injEq] at h
  obtain ⟨-, hlength, -, hvalue⟩ := h
  simp only [scanned, overwritten, Region.mk.injEq, true_and]
  refine ⟨?_, hvalue⟩
  split <;> simp only [List.length_nil, List.length_singleton] <;> omega

/-- The key is located where it was, at the text that was put there. -/
theorem ofKey?_splice (hkey : '\n' ∉ key) (h : ofKey? key text = some region) (hends : Text.endsLine new = true)
    (hnew : ofKey? key new = some ⟨0, new.length, [], value⟩) :
    ofKey? key (splice region text new) = some (region.overwritten new value) := by
  obtain ⟨above, own, below, hlines, hparted, hspans⟩ := exists_parted hkey h
  have hlined : Text.Lined (above ++ own ++ below) := hlines ▸ text.lined_fullLines
  have hwhole := parted_of_whole hkey hends hnew
  have hreplaced : Parted key above new.fullLines below := ⟨hparted.quiet, hwhole.own, hparted.stop⟩
  have hlinedNew : Text.Lined (above ++ new.fullLines ++ below) :=
    hlined.replace new.lined_fullLines (Text.endsLine_of_mem_fullLines hends) hparted.ne_nil
  rw [hspans.splice_lines hlines h]
  obtain ⟨line, rest, more, rfl, hline, -⟩ := hparted.own
  obtain ⟨newLine, newRest, newMore, hnewLines, hnewLine, -⟩ := hwhole.own
  rw [hnewLines] at hwhole hreplaced hlinedNew ⊢
  -- the old region and the new text, by their lines
  have hold := hparted.located_eq hkey hlined hline
  rw [← hlines, Text.fullLines_flatten, h] at hold
  cases hold
  have halone := hwhole.located_eq hkey (by simpa [← hnewLines] using new.lined_fullLines) hnewLine
  rw [List.nil_append, List.append_nil, ← hnewLines, Text.fullLines_flatten, hnew, Option.some.injEq] at halone
  rw [hreplaced.located_eq hkey hlinedNew hnewLine, scanned_overwritten above more newMore line rest newLine newRest halone.symm]

/-- A located key is a view of the text. What it holds can be put back without a change; a text that the key takes up
    from its start to its end, put in its place, is found there again with its value; and what is put there afterwards
    is put there as if it were the first. -/
theorem splice_lens (hkey : '\n' ∉ key) (h : ofKey? key text = some region) :
    splice region text (region.own text) = text ∧
    ∀ new value, Text.endsLine new = true → ofKey? key new = some ⟨0, new.length, [], value⟩ →
      ofKey? key (splice region text new) = some (region.overwritten new value) ∧
      ∀ other, splice (region.overwritten new value) (splice region text new) other = splice region text other :=
  ⟨splice_own h, fun new value hends hnew => ⟨ofKey?_splice hkey h hends hnew, splice_splice h new value⟩⟩

/-- A value on the last line, which has no newline, makes room for an item on a line of its own. -/
theorem splice_lens_item :
    ofKey? "k".toList "a: 1\nk: 2".toList = some ⟨4, 9, ['\n'], " 2".toList⟩ ∧
    splice ⟨4, 9, ['\n'], " 2".toList⟩ "a: 1\nk: 2".toList "k: 2".toList = "a: 1\nk: 2".toList ∧
    ofKey? "k".toList (splice ⟨4, 9, ['\n'], " 2".toList⟩ "a: 1\nk: 2".toList "k:\n- x\n".toList) =
      some ⟨4, 12, ['\n'], "- x\n".toList⟩ ∧
    ∀ other, splice ⟨4, 12, ['\n'], "- x\n".toList⟩
        (splice ⟨4, 9, ['\n'], " 2".toList⟩ "a: 1\nk: 2".toList "k:\n- x\n".toList) other =
      splice ⟨4, 9, ['\n'], " 2".toList⟩ "a: 1\nk: 2".toList other := by
  have hkey : '\n' ∉ "k".toList := by decide
  have hfound : ofKey? "k".toList "a: 1\nk: 2".toList = some ⟨4, 9, ['\n'], " 2".toList⟩ := by decide
  have hnew : ofKey? "k".toList "k:\n- x\n".toList = some ⟨0, "k:\n- x\n".toList.length, [], "- x\n".toList⟩ := by decide
  obtain ⟨hback, hput⟩ := splice_lens hkey hfound
  exact ⟨hfound, hback, hput _ _ rfl hnew⟩

end YamlSplice.Region
