/-
  YamlSplice.Proofs.Edit.Level — whether a block that is put back stays below its key.

  A line of the changed block is put back without the unit if the line of the old block that it is matched with has none.
  Comments and items may stand there. But a line inside of a quoted scalar may start with fewer spaces too, and a row that
  reads the same then comes to stand at the margin, where it ends the value of the key.
  - `restore_continues`: every line continues the value, unless one that reads the same stands outside of the unit.
  - `restore_below_key`: if every line continues the value, the key takes up the whole block.
  - `contained_of_leveled`: so it is where nothing but comments and items stands outside of the unit.
  - `row_put_at_margin`: a row that leaves its key.
-/

import YamlSplice.Proofs.Edit.Frame
import YamlSplice.Proofs.Edit.Indent
import YamlSplice.Proofs.Region.Lens

namespace YamlSplice

namespace Margin

variable {u block changed line restored : Text}

/-! ## Lines that continue a value -/

/-- The line does not end the value above it: it is empty, or starts with a space, a hyphen or a number sign. -/
def Continues (line : Text) : Prop := ∀ c ∈ line.head?, c = ' ' ∨ c = '-' ∨ c = '#'

/-- A line of the block that reads the same does not start with the unit. -/
def ReadsOutside (u block line : Text) : Prop :=
  ∃ other ∈ Text.lines block, Text.startsWith other u = false ∧ Text.strip other = Text.strip line

/-- The lines that may be put back as they are continue a value. -/
def Contained (u block changed : Text) : Prop :=
  ∀ line ∈ Text.lines changed, Text.hasContent line = false ∨ ReadsOutside u block line → Continues line

/-- Only blank lines, items and comments of the block do not start with the unit. -/
def Leveled (u block : Text) : Prop :=
  ∀ line ∈ Text.lines block, Text.startsWith line u = false → ∀ c ∈ (Text.strip line).head?, c = '-' ∨ c = '#'

/-- No line starts with a blank other than a space. -/
def StartsFlat (text : Text) : Prop := ∀ line ∈ Text.lines text, ∀ c ∈ line.head?, Text.isBlank c = true → c = ' '

/-- In a leveled block a line is put back as it is only if it continues a value. -/
theorem contained_of_leveled (hblock : Leveled u block) (hchanged : StartsFlat changed) : Contained u block changed := by
  intro line hline hreads c hc
  obtain ⟨rest, rfl⟩ := List.head?_eq_some_iff.mp hc
  cases hblank : Text.isBlank c with
  | true => exact Or.inl (hchanged _ hline c rfl hblank)
  | false =>
    -- the line is not blank, so the one that reads the same starts with this character too
    rcases hreads with hnone | ⟨other, hother, hunit, hsame⟩
    · simp [Text.hasContent, hblank] at hnone
    · have hhead : (Text.strip (c :: rest)).head? = some c := Text.head?_strip (fun _ h => absurd h List.not_mem_nil) hblank
      exact Or.inr (hblock other hother hunit c (hsame ▸ hhead))

/-! ## Lines that are put back -/

/-- A line continues the value behind the unit; without the unit it is blank, or reads like one outside of the unit. -/
theorem Restored.continues (hu : u.head? = some ' ') (h : Restored u (marks block u) line restored) :
    Continues restored ∨ restored = line ∧ (Text.hasContent line = false ∨ ReadsOutside u block line) := by
  obtain ⟨mark, rfl, hmark⟩ := h
  cases mark with
  | true =>
    left
    intro c hc
    obtain ⟨spaces, rfl⟩ := List.head?_eq_some_iff.mp hu
    cases hc
    exact Or.inl rfl
  | false =>
    refine Or.inr ⟨rfl, ?_⟩
    rcases hmark with ⟨other, hother, hsame, hnone⟩ | hnone
    · obtain ⟨content, hcontent, rfl⟩ := List.mem_map.mp hother
      exact Or.inr ⟨content, hcontent, hnone, hsame⟩
    · exact Or.inl hnone.symm

theorem exists_restored (hu : '\n' ∉ u) (h : restored ∈ Text.lines (restore changed (marks block u) u)) :
    ∃ line ∈ Text.lines changed, Restored u (marks block u) line restored := by
  rw [lines_restore hu] at h
  exact exists_of_mem_right (restoreLines_restored u (Text.lines changed) (marks block u)) h

/-- Whatever the block is changed to, each line of it that has content is put back with a space, a hyphen or a number sign
    at its start, unless a line of the old block that reads the same stands outside of the unit. -/
theorem restore_continues (hu : u.head? = some ' ') (hnewline : '\n' ∉ u) (changed : Text) :
    ∀ line ∈ Text.lines (restore changed (marks block u) u), Text.hasContent line = true →
      Continues line ∨ line ∈ Text.lines changed ∧ ReadsOutside u block line := by
  intro restored hmem hcontent
  obtain ⟨line, hline, hrestored⟩ := exists_restored hnewline hmem
  rcases hrestored.continues hu with h | ⟨rfl, hnone | hreads⟩
  · exact Or.inl h
  · rw [hnone] at hcontent
    cases hcontent
  · exact Or.inr ⟨hline, hreads⟩

theorem Contained.restore (hu : u.head? = some ' ') (hnewline : '\n' ∉ u) (h : Contained u block changed) :
    ∀ line ∈ Text.lines (restore changed (marks block u) u), Continues line := by
  intro restored hmem
  obtain ⟨line, hline, hrestored⟩ := exists_restored hnewline hmem
  rcases hrestored.continues hu with h' | ⟨rfl, hreads⟩
  · exact h'
  · exact h restored hline hreads

end Margin

namespace Region

open Margin (Continues)

variable {name block : Text}

/-! ## Blocks below a key -/

/-- A text of such lines goes on over all of them. -/
theorem continues_of_head (h : ∀ line ∈ Text.lines block, Continues line) : ∀ c ∈ block.head?, continues c = true := by
  intro c hc
  obtain ⟨rest, rfl⟩ := List.head?_eq_some_iff.mp hc
  by_cases hnewline : c = '\n'
  · rw [hnewline]
    rfl
  · have hfirst : ∃ line ∈ Text.lines (c :: rest), line.head? = some c := by
      unfold Text.lines Text.pieces
      rw [if_neg hnewline]
      split
      · exact ⟨_, List.mem_cons_self, rfl⟩
      · exact ⟨_, List.mem_cons_self, rfl⟩
    obtain ⟨line, hline, hhead⟩ := hfirst
    rcases h line hline c hhead with rfl | rfl | rfl <;> rfl

theorem whole_of_continues (h : ∀ line ∈ Text.lines block, Continues line) : Whole block := by
  induction block using Text.by_lines with
  | last line hline => exact takeValue_of_not_mem hline
  | cons line rest hline ih =>
    rw [Text.lines_cons hline, List.forall_mem_cons] at h
    have hrest := ih h.2
    unfold Whole at hrest ⊢
    rw [takeValue_line hline]
    cases rest with
    | nil => rfl
    | cons c rest => rw [List.head?_cons, Option.any_some, continues_of_head h.2 c rfl, if_pos rfl, hrest]

/-- Below its key line such a block is the value of the key. -/
theorem ofKey?_block (hname : '\n' ∉ name) (hends : Text.endsLine block = true)
    (h : ∀ line ∈ Text.lines block, Continues line) :
    ofKey? name (name ++ ':' :: '\n' :: block) = some ⟨0, (name ++ ':' :: '\n' :: block).length, [], block⟩ := by
  have hwhole : Whole (name ++ ':' :: '\n' :: block) := by
    have hheader : '\n' ∉ name ++ [':'] := by simpa using hname
    have hcontinues : block.head?.any continues = true := by
      obtain ⟨c, rest, rfl⟩ := List.exists_cons_of_ne_nil (List.ne_nil_of_mem (Text.newline_mem_of_endsLine hends))
      exact continues_of_head h c rfl
    have hblock : Whole block := whole_of_continues h
    unfold Whole at hblock ⊢
    rw [List.append_cons, takeValue_line hheader, if_pos hcontinues, hblock]
  have hcolon : afterColon? name (name ++ ':' :: '\n' :: block) = some ('\n' :: block) :=
    afterColon?_eq_some_iff.mpr ⟨[], rfl, by rw [List.append_nil]⟩
  have hvalue : dropHeader ('\n' :: block) = block := by
    obtain ⟨c, rest, rfl⟩ := List.exists_cons_of_ne_nil (List.ne_nil_of_mem (Text.newline_mem_of_endsLine hends))
    have hnewline : Text.isInlineBlank '\n' = false := by decide
    unfold dropHeader
    rw [List.dropWhile_cons_of_neg (by simp [hnewline])]
    exact if_pos (continues_of_head h c rfl)
  have hbelow : ∀ c ∈ ([] : Text).head?, continues c = false := by simp
  have hat := @at?_append name (name ++ ':' :: '\n' :: block) [] [] ('\n' :: block) 0 hname hwhole
    (Text.endsLine_below hends) hbelow hcolon
  rw [List.append_nil, hvalue] at hat
  rw [ofKey?_eq, hat, Option.some_or, List.length_nil, Nat.add_zero, Nat.zero_add]

/-- A key that does not start like a line of the block is not found in it. -/
theorem ofKey?_block_eq_none (h : ∀ line ∈ Text.lines block, Continues line) {c : Char} (hc : continues c = false)
    (rest : Text) : ofKey? (c :: rest) block = none := by
  have hnone : ∀ line : Text, (∀ d ∈ line.head?, continues d = true) → afterColon? (c :: rest) line = none := by
    intro line hline
    rw [afterColon?_eq_none_iff]
    intro tail ⟨blanks, _, hparts⟩
    have hhead : line.head? = some c := by rw [hparts]; rfl
    rw [hline c hhead] at hc
    cases hc
  rw [ofKey?_eq_none_iff, findFrom_eq_none_iff]
  refine ⟨hnone block (continues_of_head h), ?_⟩
  intro above line hblock
  refine hnone line ?_
  intro d hd
  obtain ⟨more, rfl⟩ := List.head?_eq_some_iff.mp hd
  have hwhole := whole_of_continues h
  rw [hblock] at hwhole
  exact hwhole.of_append.continues

end Region

namespace Margin

variable {u block changed name text : Text} {region : Region}

theorem continues_closeLine (h : ∀ line ∈ Text.lines text, Continues line) :
    ∀ line ∈ Text.lines (Text.closeLine text), Continues line := by
  by_cases hends : Text.endsLine text = true
  · rwa [Text.closeLine_of_endsLine hends]
  · have hlines : Text.lines (text ++ ['\n']) = Text.lines text ++ [[]] := Text.pieces_append_sep '\n' text []
    rw [Text.closeLine, if_neg hends, hlines, List.forall_mem_append]
    refine ⟨h, ?_⟩
    intro line hline c hc
    rw [List.mem_singleton.mp hline] at hc
    cases hc

/-! ## The block of a key -/

/-- A block that is changed under its unit is put back below its key. Each line with content starts with a space, a hyphen
    or a number sign, unless it reads like a line of the old block outside of the unit. If the lines that read so start
    like that themselves, which they do where only items and comments stand outside of the unit, then the key takes up
    the whole block, and no key that starts with another character is found in it. -/
theorem restore_below_key (hname : '\n' ∉ name) (h : Region.ofKey? name text = some region)
    (hunit : Margin.unit name region.value = .ok u) (changed : Text) :
    (∀ line ∈ Text.lines (restore changed (marks region.value u) u), Text.hasContent line = true →
      Continues line ∨ line ∈ Text.lines changed ∧ ReadsOutside u region.value line) ∧
    (Leveled u region.value → StartsFlat changed → Contained u region.value changed) ∧
    ∀ block, block = Text.closeLine (restore changed (marks region.value u) u) → Contained u region.value changed →
      (∀ line ∈ Text.lines block, Continues line) ∧
      Region.ofKey? name (region.splice text (name ++ ':' :: '\n' :: block)) =
        some (region.overwritten (name ++ ':' :: '\n' :: block) block) ∧
      ∀ c rest, Region.continues c = false → Region.ofKey? (c :: rest) block = none := by
  obtain ⟨width, hwidth, rfl⟩ := unit_eq_ok hunit
  have hspace : (List.replicate width ' ').head? = some ' ' := by
    obtain ⟨more, rfl⟩ := Nat.exists_eq_add_of_lt hwidth
    rw [Nat.zero_add, List.replicate_succ, List.head?_cons]
  have hnewline : '\n' ∉ List.replicate width ' ' := fun hmem => absurd (List.eq_of_mem_replicate hmem) (by decide)
  refine ⟨restore_continues hspace hnewline changed, contained_of_leveled, ?_⟩
  intro block hblock hcontained
  have hlines : ∀ line ∈ Text.lines block, Continues line := by
    rw [hblock]
    exact continues_closeLine (hcontained.restore hspace hnewline)
  have hends : Text.endsLine block = true := hblock ▸ Text.endsLine_closeLine _
  refine ⟨hlines, Region.ofKey?_splice hname h (Text.endsLine_below hends) (Region.ofKey?_block hname hends hlines), ?_⟩
  intro c rest hc
  exact Region.ofKey?_block_eq_none hlines hc rest

/-- A row is added above a comment that stands at the margin. -/
theorem restore_below_key_comment :
    Region.ofKey? "p".toList "p:\n  a: 1\n# c\nq: 2\n".toList = some ⟨0, 14, [], "  a: 1\n# c\n".toList⟩ ∧
    restore "a: 1\nb: 2\n# c\n".toList (marks "  a: 1\n# c\n".toList [' ', ' ']) [' ', ' '] =
      "  a: 1\n  b: 2\n# c\n".toList ∧
    Region.ofKey? "p".toList "p:\n  a: 1\n  b: 2\n# c\nq: 2\n".toList =
      some ⟨0, 21, [], "  a: 1\n  b: 2\n# c\n".toList⟩ ∧
    ∀ rest, Region.ofKey? ('b' :: rest) "  a: 1\n  b: 2\n# c\n".toList = none := by
  have hname : '\n' ∉ "p".toList := by decide
  have hfound : Region.ofKey? "p".toList "p:\n  a: 1\n# c\nq: 2\n".toList =
      some ⟨0, 14, [], "  a: 1\n# c\n".toList⟩ := by decide
  have hunit : Margin.unit "p".toList "  a: 1\n# c\n".toList = .ok [' ', ' '] := rfl
  have hrestored : "  a: 1\n  b: 2\n# c\n".toList =
      Text.closeLine (restore "a: 1\nb: 2\n# c\n".toList (marks "  a: 1\n# c\n".toList [' ', ' ']) [' ', ' ']) := by decide
  have hleveled : Leveled [' ', ' '] "  a: 1\n# c\n".toList := by
    have hlines : Text.lines "  a: 1\n# c\n".toList = ["  a: 1".toList, "# c".toList, []] := by decide
    intro line hline hunit c hc
    simp only [hlines, List.mem_cons, List.not_mem_nil, or_false] at hline
    rcases hline with rfl | rfl | rfl
    · cases hunit
    · cases hc
      exact Or.inr rfl
    · cases hc
  have hflat : StartsFlat "a: 1\nb: 2\n# c\n".toList := by
    have hlines : Text.lines "a: 1\nb: 2\n# c\n".toList = ["a: 1".toList, "b: 2".toList, "# c".toList, []] := by decide
    intro line hline c hc hblank
    simp only [hlines, List.mem_cons, List.not_mem_nil, or_false] at hline
    rcases hline with rfl | rfl | rfl | rfl <;> cases hc <;> cases hblank
  obtain ⟨-, hcontained, hkey⟩ := restore_below_key hname hfound hunit "a: 1\nb: 2\n# c\n".toList
  obtain ⟨-, hlocated, hnone⟩ := hkey _ hrestored (hcontained hleveled hflat)
  refine ⟨hfound, by decide, hlocated, ?_⟩
  intro rest
  exact hnone 'b' rest rfl

/-! ## Exceptions -/

theorem scalar_removed_row_added :
    (Edit.applyAll Format.yaml false [(.str ['a'], .null), (.str ['b'], .int 1)] "a: \"x\n b: 1\n y\"\n".toList).result =
      .ok "b: 1\n".toList := by
  have hread : Format.yaml.read (Text.closeLine "a: \"x\n b: 1\n y\"\n".toList) =
      .ok (.map [(.str ['a'], .str "x b: 1 y".toList)]) := by cbv
  have hfound : Value.valueUnder? [(.str ['a'], .str "x b: 1 y".toList)] (.str ['a']) = some (.str "x b: 1 y".toList) := by cbv
  have hregion : Region.ofKey? ['a'] (Text.closeLine "a: \"x\n b: 1\n y\"\n".toList) =
      some ⟨0, 16, [], " \"x\n b: 1\n y\"\n".toList⟩ := rfl
  have hremoved : (Edit.apply Format.yaml false (.str ['a']) .null "a: \"x\n b: 1\n y\"\n".toList).result = .ok [] :=
    (Edit.Outcome.removed _ _ _ hread rfl hfound hregion).apply_eq_ok
  have hreadEmpty : Format.yaml.read (Text.closeLine []) = .ok .null := by cbv
  have hentry : Render.entry Format.yaml false (.str ['b']) (.int 1) = .ok "b: 1\n".toList := rfl
  have hfilled : (Edit.apply Format.yaml false (.str ['b']) (.int 1) []).result = .ok "b: 1\n".toList :=
    (Edit.Outcome.filled _ hreadEmpty (by decide) hentry).apply_eq_ok
  exact Edit.applyAll_cons_eq_ok.mpr ⟨_, hremoved, Edit.applyAll_cons_eq_ok.mpr ⟨_, hfilled, by rw [Edit.applyAll_nil]; rfl⟩⟩

/-- The row that is added reads like a line inside of a quoted scalar, which starts with one space less than the block.
    It is put back at the margin, and so it becomes a row beside the key that it was added to. -/
theorem row_put_at_margin :
    Region.ofKey? "p".toList "p:\n  a: \"x\n b: 1\n y\"\n".toList = some ⟨0, 21, [], "  a: \"x\n b: 1\n y\"\n".toList⟩ ∧
    Margin.unit "p".toList "  a: \"x\n b: 1\n y\"\n".toList = .ok "  ".toList ∧
    restore "b: 1\n".toList (marks "  a: \"x\n b: 1\n y\"\n".toList "  ".toList) "  ".toList = "b: 1\n".toList ∧
    ¬ Continues "b: 1".toList ∧
    (Edit.apply Format.yaml false (.str ['p']) (.map [(.str ['a'], .null), (.str ['b'], .int 1)])
      "p:\n  a: \"x\n b: 1\n y\"\n".toList).result = .ok "p:\nb: 1\n".toList ∧
    Format.yaml.read "p:\nb: 1\n".toList = .ok (.map [(.str ['p'], .null), (.str ['b'], .int 1)]) := by
  have hregion : Region.ofKey? ['p'] (Text.closeLine "p:\n  a: \"x\n b: 1\n y\"\n".toList) =
      some ⟨0, 21, [], "  a: \"x\n b: 1\n y\"\n".toList⟩ := by decide
  have hunit : Margin.unit ['p'] "  a: \"x\n b: 1\n y\"\n".toList = .ok [' ', ' '] := rfl
  have hlevel : ¬ Continues "b: 1".toList := by
    intro h
    exact absurd (h 'b' rfl) (by decide)
  have hread : Format.yaml.read (Text.closeLine "p:\n  a: \"x\n b: 1\n y\"\n".toList) =
      .ok (.map [(.str ['p'], .map [(.str ['a'], .str "x b: 1 y".toList)])]) := by cbv
  have hfound : Value.valueUnder? [(.str ['p'], .map [(.str ['a'], .str "x b: 1 y".toList)])] (.str ['p']) =
      some (.map [(.str ['a'], .str "x b: 1 y".toList)]) := by cbv
  have hdiffers : Value.agrees (.map [(.str ['a'], .str "x b: 1 y".toList)])
      (.map [(.str ['a'], .null), (.str ['b'], .int 1)]) = false := by cbv
  have hblock : (Margin.change ['p'] "  a: \"x\n b: 1\n y\"\n".toList
      (Edit.applyAll Format.yaml false [(.str ['a'], .null), (.str ['b'], .int 1)])).result = .ok "b: 1\n".toList :=
    change_eq_ok.mpr ⟨_, _, hunit, scalar_removed_row_added, rfl⟩
  exact ⟨hregion, hunit, by decide, hlevel,
    (Edit.Outcome.merged _ _ _ _ _ hread rfl rfl hfound hdiffers hregion hblock).apply_eq_ok, by cbv⟩

end Margin
end YamlSplice
