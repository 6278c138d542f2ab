/-
  YamlSplice.Proofs.Edit.Nested — an edit of one key in the block below another.

  The block is taken to the margin, the lines of the inner key are found and replaced there, and every line
  is indented again as its counterpart was. Counterparts are looked for by content. So the new lines
  must not look like lines of the block, and lines of the block that look the same must stand alike; both
  only from the inner key on, since above it nothing changes.
  - `InnerEdit`: what is read and found on the way.
  - `apply_inner`: all lines of the block but those of the inner key come back as they were, and so does all
    of the text but the block and its key line.
-/

import YamlSplice.Operations
import YamlSplice.Proofs.Edit.Frame
import YamlSplice.Proofs.Edit.Indent
import YamlSplice.Proofs.Region.Scan

namespace YamlSplice

/-- A region that goes from the start of a line to the start of another takes up the lines in between. -/
theorem Region.Cut.lines {region : Region} {text before body after : Text} {above own below : List Text}
    (hcut : Region.Cut region text before body after) (hlines : Text.lines text = above ++ (own ++ below))
    (hstart : region.start + region.lead.length = (Text.ended above).length)
    (hstop : region.stop = (Text.ended (above ++ own)).length) :
    below ≠ [] ∧ before ++ region.lead = Text.ended above ∧ body = Text.ended own ∧ after = Text.unlines below := by
  have htext : text = Text.unlines (above ++ (own ++ below)) := by rw [← hlines, Text.unlines_lines]
  have hbelow : below ≠ [] := by
    rintro rfl
    rw [List.append_nil] at htext hlines
    have hne : above ++ own ≠ [] := hlines ▸ Text.pieces_ne_nil '\n' text
    have hlength := congrArg List.length hcut.whole
    rw [List.length_append, hcut.stop, hstop, Text.ended_eq hne, ← htext, List.length_append] at hlength
    simp at hlength
    omega
  rw [← List.append_assoc, Text.unlines_append hbelow, Text.ended_append, List.append_assoc] at htext
  have hwhole : before ++ region.lead ++ (body ++ after) = Text.ended above ++ (Text.ended own ++ Text.unlines below) := by
    rw [← htext, hcut.whole, List.append_assoc (before ++ region.lead)]
  have hlead : (before ++ region.lead).length = (Text.ended above).length := by
    rw [List.length_append, hcut.start, hstart]
  obtain ⟨habove, hbehind⟩ := List.append_inj hwhole hlead
  have hbody : body.length = (Text.ended own).length := by
    have hlength := hcut.stop
    rw [hstop, habove, Text.ended_append, List.length_append, List.length_append] at hlength
    omega
  obtain ⟨hown, hafter⟩ := List.append_inj hbehind hbody
  exact ⟨hbelow, habove, hown, hafter⟩

namespace Edit

open Margin (unindented underUnit)

/-- An edit of the key `inner` in the block of the key `name`: what is read, and which lines are found. The block has
    the lines `front`, the lines `own` of the inner key, and the lines `back`; the lines `new` are put in place of its
    own. -/
structure InnerEdit (format : Format) (keep : Bool) (name inner : Text) (value : Value) (text : Text)
    (region : Region) (u : Text) (front own back new : List Text) : Prop where
  closed : Text.endsLine text = true
  oneLine : '\n' ∉ inner
  starts : ∃ c rest, inner = c :: rest ∧ Text.isBlank c = false ∧ c ≠ '-' ∧ c ≠ '#'
  held : ∃ entries existing, format.read text = .ok (.map entries) ∧
    Value.valueUnder? entries (.str name) = some existing ∧ existing.treatment = .merge ∧
    Value.agrees existing (.map [(.str inner, value)]) = false
  located : Region.ofKey? name text = some region
  /-- White space stands behind the colon of the outer key. -/
  apart : ∀ c rest, Region.afterColon? name (text.drop (region.start + region.lead.length)) = some (c :: rest) →
    Text.isBlank c = true
  unit : Margin.unit name region.value = .ok u
  block : Text.lines region.value = front ++ (own ++ back)
  innerHeld : ∃ entries existing, format.read (Margin.bare (Margin.marks region.value u) u) = .ok (.map entries) ∧
    Value.valueUnder? entries (.str inner) = some existing ∧ Value.agrees existing value = false
  innerLocated : ∃ child, Region.ofKey? inner (Margin.bare (Margin.marks region.value u) u) = some child ∧
    child.start + child.lead.length = (Text.ended (front.map (unindented u))).length ∧
    child.stop = (Text.ended ((front ++ own).map (unindented u))).length
  /-- The inner key is removed and something is left, or its value is written on lines of its own. -/
  put : (value.treatment = .remove ∧ new = [] ∧ Text.unlines ((front ++ back).map (unindented u)) ≠ []) ∨
    (value.treatment = .replace ∧ ∃ written, Render.entryKeepingKey format keep inner value = .ok written ∧
      Text.endsLine written = true ∧ Text.lines written = new ++ [[]])
  alike : ∀ line ∈ own ++ back, ∀ other ∈ own ++ back, Text.strip line = Text.strip other →
    Text.startsWith line u = Text.startsWith other u
  unlike : ∀ line ∈ new, ∀ other ∈ own ++ back, Text.strip other ≠ Text.strip line

namespace InnerEdit

variable {format : Format} {keep : Bool} {name inner : Text} {value : Value} {text : Text} {region : Region} {u : Text}
  {front own back new : List Text}

/-- The block at the margin is cut at the lines of the inner key. -/
theorem splice (h : InnerEdit format keep name inner value text region u front own back new) :
    ∃ child, Region.ofKey? inner (Margin.bare (Margin.marks region.value u) u) = some child ∧ back ≠ [] ∧
      (∃ rest, Text.ended (own.map (unindented u)) = inner ++ rest) ∧
      ∀ written, child.splice (Margin.bare (Margin.marks region.value u) u) written =
        Text.ended (front.map (unindented u)) ++ (written ++ Text.unlines (back.map (unindented u))) := by
  obtain ⟨child, hchild, hstart, hstop⟩ := h.innerLocated
  obtain ⟨before, body, after, hcut, -, ⟨blanks, header, -, hbody, -⟩, -⟩ := Region.ofKey?_cut hchild
  have hlines := Margin.lines_bare region.value u
  rw [h.block, List.map_append, List.map_append] at hlines
  rw [List.map_append] at hstop
  obtain ⟨hback, habove, hown, hafter⟩ := hcut.lines hlines hstart hstop
  refine ⟨child, hchild, by simpa using hback, ⟨blanks ++ ':' :: (header ++ child.value), ?_⟩, fun written => ?_⟩
  · rw [← hown, hbody, List.append_assoc]
  · rw [hcut.splice_eq, habove, hafter, List.append_assoc]

/-- The line of the inner key is a line of its own. -/
theorem own_eq (h : InnerEdit format keep name inner value text region u front own back new) :
    ∃ first more rest, own = first :: more ∧ unindented u first = inner ++ rest := by
  obtain ⟨-, -, -, ⟨rest, hown⟩, -⟩ := h.splice
  cases own with
  | nil =>
    obtain ⟨c, tail, hinner, -⟩ := h.starts
    rw [hinner] at hown
    cases hown
  | cons first more =>
    rw [List.map_cons, Text.ended_cons] at hown
    obtain ⟨tail, hfirst⟩ := Text.exists_of_append_eq h.oneLine hown.symm
    exact ⟨first, more, tail, rfl, hfirst⟩

/-- What stands in front of the value and behind it. -/
theorem cut (h : InnerEdit format keep name inner value text region u front own back new) :
    ∃ before blanks header below,
      Region.Cut region text before (name ++ blanks ++ ':' :: (header ++ region.value)) below ∧
      blanks.all Text.isInlineBlank = true ∧ Region.Between header region.value ∧
      (header = [] → ∃ c rest, region.value = c :: rest ∧ Text.isBlank c = true) := by
  obtain ⟨before, body, below, hcut, -, ⟨blanks, header, hblanks, rfl, hbetween⟩, -⟩ := Region.ofKey?_cut h.located
  refine ⟨before, blanks, header, below, hcut, hblanks, hbetween, ?_⟩
  rintro rfl
  have hne : region.value ≠ [] :=
    List.ne_nil_of_mem (Text.newline_mem_of_endsLine (Region.ofKey?_endsLine h.located h.closed))
  obtain ⟨c, rest, hvalue⟩ := List.exists_cons_of_ne_nil hne
  refine ⟨c, rest, hvalue, h.apart c (rest ++ below) (Region.afterColon?_eq_some_iff.mpr ⟨blanks, hblanks, ?_⟩)⟩
  rw [hcut.drop_line_eq, hvalue]
  simp

/-- A line of the value starts with white space, or it continues the value. -/
theorem start_of_line (h : InnerEdit format keep name inner value text region u front own back new) {c : Char} {rest : Text}
    {below : List Text} (hblock : Text.lines region.value = front ++ ((c :: rest) :: below)) :
    Text.isBlank c = true ∨ Region.continues c = true := by
  obtain ⟨behind, hvalue⟩ : ∃ behind, region.value = Text.ended front ++ c :: behind := by
    rw [← Text.unlines_lines region.value, hblock, Text.unlines_append (List.cons_ne_nil _ _)]
    cases below with
    | nil => exact ⟨rest, rfl⟩
    | cons next below => exact ⟨rest ++ ['\n'] ++ Text.unlines (next :: below), rfl⟩
  by_cases hfront : front = []
  · -- the line is the rest of the key line, or the first one behind it
    rw [hfront, Text.ended_nil, List.nil_append] at hvalue
    obtain ⟨_, _, header, _, -, -, hbetween, hrest⟩ := h.cut
    rcases hbetween with hheader | ⟨-, -, -, hcontinues⟩
    · obtain ⟨d, more, hd, hblank⟩ := hrest hheader
      obtain ⟨rfl, -⟩ := List.cons.inj (hd.symm.trans hvalue)
      exact Or.inl hblank
    · rw [hvalue] at hcontinues
      exact Or.inr (by simpa using hcontinues)
  · obtain ⟨lead, hlead⟩ := Text.endsLine_iff.mp (Text.endsLine_ended hfront)
    have hwhole := Region.ofKey?_whole h.located
    rw [hvalue, hlead, List.append_assoc] at hwhole
    exact Or.inr hwhole.of_append.continues

/-- The inner key is indented by the unit, since at the margin its line would end the value. -/
theorem own_indented (h : InnerEdit format keep name inner value text region u front own back new) :
    ∃ first more rest, own = first :: more ∧ first = u ++ inner ++ rest := by
  obtain ⟨first, more, rest, rfl, hfirst⟩ := h.own_eq
  refine ⟨first, more, rest, rfl, ?_⟩
  have hline := Margin.indentLine_unindented u first
  rw [hfirst] at hline
  by_cases hindented : Text.startsWith first u = true
  · rw [hindented] at hline
    rw [← hline, Margin.indentLine, if_pos rfl, List.append_assoc]
  · rw [Margin.indentLine, if_neg hindented] at hline
    obtain ⟨c, tail, rfl, hblank, hhyphen, hsign⟩ := h.starts
    have hspace : c ≠ ' ' := fun hc => by simp [hc, Text.isBlank, Text.isSpacing] at hblank
    have hnewline : c ≠ '\n' := fun hc => by simp [hc, Text.isBlank, Text.isSpacing] at hblank
    have hends : Region.continues c = false := by simp [Region.continues, hspace, hnewline, hhyphen, hsign]
    have hblock := h.block
    rw [← hline] at hblock
    have hstart := h.start_of_line hblock
    rw [hblank, hends] at hstart
    exact absurd hstart (by simp)

/-- At the margin the lines of the inner key are replaced, and no others. -/
theorem applyAll_eq_ok (h : InnerEdit format keep name inner value text region u front own back new) :
    (applyAll format keep [(.str inner, value)] (Margin.bare (Margin.marks region.value u) u)).result =
      .ok (Text.unlines (front.map (unindented u) ++ (new ++ back.map (unindented u)))) := by
  obtain ⟨child, hchild, hback, -, hsplice⟩ := h.splice
  obtain ⟨entries, existing, hread, hunder, hdiffers⟩ := h.innerHeld
  have hends : Text.endsLine (Margin.bare (Margin.marks region.value u) u) = true :=
    Margin.endsLine_bare u (Region.ofKey?_endsLine h.located h.closed)
  have hwhole := Text.closeLine_of_endsLine hends
  have hunlines : ∀ {written}, written = Text.ended new → child.splice (Margin.bare (Margin.marks region.value u) u) written =
      Text.unlines (front.map (unindented u) ++ (new ++ back.map (unindented u))) := by
    rintro written rfl
    have hne : back.map (unindented u) ≠ [] := by simpa using hback
    rw [hsplice, Text.unlines_append (List.append_ne_nil_of_right_ne_nil _ hne), Text.unlines_append hne]
  have hone : ∀ {result}, Outcome format keep inner value (Margin.bare (Margin.marks region.value u) u) result →
      (applyAll format keep [(.str inner, value)] (Margin.bare (Margin.marks region.value u) u)).result = .ok result := by
    intro result houtcome
    rw [applyAll_cons]
    refine Run.bind_eq_ok.mpr ⟨result, houtcome.apply_eq_ok, ?_⟩
    rw [applyAll_nil]
    rfl
  rw [← hwhole] at hread hchild
  rcases h.put with ⟨ht, hnew, -⟩ | ⟨ht, written, hwritten, -, hlines⟩
  · have hremoved := hone (.removed entries existing child hread ht hunder hchild)
    rwa [hwhole, hunlines (by rw [hnew]; rfl)] at hremoved
  · have hreplaced := hone (.replaced entries existing child written hread (Or.inl ht) hunder hdiffers hchild hwritten)
    rwa [hwhole, hunlines (Text.eq_ended hlines)] at hreplaced

/-- The new lines come from a text that ends with a newline. -/
theorem new_eq (h : InnerEdit format keep name inner value text region u front own back new) :
    (∀ line ∈ new, '\n' ∉ line) ∧ (new = [] → Text.unlines ((front ++ back).map (unindented u)) ≠ []) := by
  rcases h.put with ⟨-, rfl, hleft⟩ | ⟨-, written, -, hends, hlines⟩
  · exact ⟨by simp, fun _ => hleft⟩
  · refine ⟨fun line hline => ?_, ?_⟩
    · have hmem : line ∈ Text.lines written := by simp [hlines, hline]
      exact Text.not_mem_of_mem_pieces hmem
    · rintro rfl
      rw [Text.eq_ended hlines] at hends
      cases hends

/-- The changed block ends with a newline as it did. -/
theorem endsLine_changed (h : InnerEdit format keep name inner value text region u front own back new) :
    Text.endsLine (Text.unlines (front ++ (new.map (underUnit u) ++ back))) = true := by
  obtain ⟨-, -, hback, -, -⟩ := h.splice
  obtain ⟨ls, -, hlines, -⟩ := Text.exists_lines_of_endsLine (Region.ofKey?_endsLine h.located h.closed)
  obtain ⟨above, rfl⟩ : ∃ above, back = above ++ [[]] := by
    obtain ⟨above, last, rfl⟩ := (List.eq_nil_or_concat back).resolve_left hback
    rw [h.block, List.concat_eq_append, ← List.append_assoc, ← List.append_assoc] at hlines
    obtain ⟨-, hlast⟩ := List.append_inj' hlines rfl
    exact ⟨above, by rw [List.concat_eq_append, hlast]⟩
  rw [← List.append_assoc, ← List.append_assoc]
  refine Text.endsLine_unlines fun hnone => ?_
  obtain ⟨hfront, rfl⟩ := List.append_eq_nil_iff.mp hnone
  obtain ⟨rfl, hnew⟩ := List.append_eq_nil_iff.mp hfront
  refine h.new_eq.2 (List.map_eq_nil_iff.mp hnew) ?_
  rw [List.nil_append, List.nil_append, List.map_singleton, Margin.unindented_nil]
  rfl

end InnerEdit

variable {format : Format} {keep : Bool} {name inner : Text} {value : Value} {text : Text} {region : Region} {u : Text}
  {front own back new : List Text}

/-- An edit of one key in the block below another. The inner key is indented by the unit, and all of its lines, and no
    other lines of the block, are replaced. Of the rest of the text only the key line is written anew: what it has behind
    the colon goes to a line of its own, unless it is blank. -/
theorem apply_inner (h : InnerEdit format keep name inner value text region u front own back new) :
    (∃ first more rest, own = first :: more ∧ first = u ++ inner ++ rest) ∧
    ∃ before blanks header below,
      Region.Cut region text before (name ++ blanks ++ ':' :: (header ++ Text.unlines (front ++ (own ++ back)))) below ∧
      blanks.all Text.isInlineBlank = true ∧ Region.Between header region.value ∧
      (header = [] → ∃ c rest, region.value = c :: rest ∧ Text.isBlank c = true) ∧
      (apply format keep (.str name) (.map [(.str inner, value)]) text).result =
        .ok (before ++ region.lead ++ (name ++ ':' :: '\n' :: Text.unlines (front ++ (new.map (underUnit u) ++ back))) ++
          below) := by
  refine ⟨h.own_indented, ?_⟩
  obtain ⟨before, blanks, header, below, hcut, hblanks, hbetween, hrest⟩ := h.cut
  obtain ⟨entries, existing, hread, hunder, hmerge, hdiffers⟩ := h.held
  obtain ⟨-, -, hback, -, -⟩ := h.splice
  have hblock : (Margin.change name region.value (applyAll format keep [(.str inner, value)])).result =
      .ok (Text.unlines (front ++ (new.map (underUnit u) ++ back))) := by
    refine Margin.change_eq_ok.mpr ⟨u, _, h.unit, h.applyAll_eq_ok, ?_⟩
    rw [Margin.restore_between (Margin.unit_isBlank h.unit) h.block hback h.new_eq.1 h.alike h.unlike,
      Text.closeLine_of_endsLine h.endsLine_changed]
  have hwhole := Text.closeLine_of_endsLine h.closed
  have hlocated := h.located
  rw [← hwhole] at hread hlocated
  have hmerged := (Outcome.merged _ _ _ _ _ hread rfl hmerge hunder hdiffers hlocated hblock).apply_eq_ok
  rw [hwhole, hcut.splice_eq] at hmerged
  refine ⟨before, blanks, header, below, ?_, hblanks, hbetween, hrest, hmerged⟩
  rwa [← h.block, Text.unlines_lines]

/-- A comment in front of the inner key stands at the margin, and another key follows. -/
theorem apply_inner_below_comment :
    InnerEdit Format.yaml false "p".toList "q".toList (.str "y".toList) "p:\n# c\n q: x\n r: 1\n".toList
      ⟨0, 19, [], "# c\n q: x\n r: 1\n".toList⟩ [' '] ["# c".toList] [" q: x".toList] [" r: 1".toList, []]
      ["q: y".toList] ∧
    (apply Format.yaml false (.str "p".toList) (.map [(.str "q".toList, .str "y".toList)])
      "p:\n# c\n q: x\n r: 1\n".toList).result = .ok "p:\n# c\n q: y\n r: 1\n".toList := by
  have hedit : InnerEdit Format.yaml false "p".toList "q".toList (.str "y".toList) "p:\n# c\n q: x\n r: 1\n".toList
      ⟨0, 19, [], "# c\n q: x\n r: 1\n".toList⟩ [' '] ["# c".toList] [" q: x".toList] [" r: 1".toList, []]
      ["q: y".toList] := by
    have hbare : Margin.bare (Margin.marks "# c\n q: x\n r: 1\n".toList [' ']) [' '] = "# c\nq: x\nr: 1\n".toList := by decide
    refine
      { closed := rfl
        oneLine := by decide
        starts := ⟨'q', [], rfl, by decide, by decide, by decide⟩
        held := ⟨[(.str ['p'], .map [(.str ['q'], .str ['x']), (.str ['r'], .int 1)])], _, by cbv, by cbv, rfl, by cbv⟩
        located := by decide
        apart := ?_
        unit := rfl
        block := by decide
        innerHeld := ?_
        innerLocated := ?_
        put := Or.inr ⟨rfl, "q: y\n".toList, rfl, rfl, by decide⟩
        alike := by decide
        unlike := by decide }
    · intro c rest hcolon
      change some "\n# c\n q: x\n r: 1\n".toList = some (c :: rest) at hcolon
      obtain ⟨rfl, -⟩ := List.cons.inj (Option.some.inj hcolon)
      decide
    · rw [hbare]
      exact ⟨[(.str ['q'], .str ['x']), (.str ['r'], .int 1)], _, by cbv, by cbv, by cbv⟩
    · rw [hbare]
      exact ⟨⟨3, 9, ['\n'], [' ', 'x', '\n']⟩, by decide, by decide, by decide⟩
  obtain ⟨-, before, blanks, header, below, hcut, -, -, -, hresult⟩ := apply_inner hedit
  rw [← hcut.take_eq, ← hcut.drop_eq] at hresult
  exact ⟨hedit, hresult⟩

end Edit
end YamlSplice
