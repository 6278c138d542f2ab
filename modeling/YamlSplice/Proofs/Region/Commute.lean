/-
  YamlSplice.Proofs.Region.Commute — edits of two keys in either order.

  A located key parts the lines of a text into those above its key line, its own, and those below. Putting other lines
  in the place of its own moves what stands below, but the lines of another key stay the lines they are.
  - `exists_parted`: the region of a key is the lines it parts off.
  - `Spans.splice_lines`: replacing the region replaces these lines.
  - `splices_commute`: two regions apart from each other are replaced in either order.
-/

import YamlSplice.Proofs.Region.Scan

namespace YamlSplice

namespace Text

/-- A text that ends with a newline is made of lines that all do. -/
theorem endsLine_of_mem_fullLines {text : Text} (h : endsLine text = true) :
    ∀ line ∈ text.fullLines, endsLine line = true := by
  induction text with
  | nil => cases h
  | cons c rest ih =>
    have hrest : rest ≠ [] → endsLine rest = true := endsLine_of_suffix h (List.suffix_cons c rest)
    unfold fullLines
    by_cases hc : c = '\n'
    · rw [if_pos hc]
      intro line hline
      rcases List.mem_cons.mp hline with rfl | hline
      · rfl
      · cases rest with
        | nil => cases hline
        | cons d rest => exact ih (hrest (List.cons_ne_nil _ _)) line hline
    · have hne : rest ≠ [] := by
        rintro rfl
        simp [endsLine, hc] at h
      rw [if_neg hc]
      specialize ih (hrest hne)
      cases hlines : fullLines rest with
      | nil => exact absurd (by rw [← fullLines_flatten rest, hlines]; rfl) hne
      | cons first more =>
        rw [hlines, List.forall_mem_cons] at ih
        intro line hline
        rcases List.mem_cons.mp hline with rfl | hline
        · exact @endsLine_append [c] first ih.1
        · exact ih.2 line hline

namespace Lined

variable {above below : List Text}

/-- Lines that end with a newline may stand above others. -/
theorem append (habove : Lined above) (hends : ∀ line ∈ above, endsLine line = true) (hbelow : Lined below) :
    Lined (above ++ below) := by
  induction habove with
  | nil => exact hbelow
  | @last line hline => exact absurd (newline_mem_of_endsLine (hends line List.mem_cons_self)) hline
  | cons hfront _ ih => exact .cons hfront (ih fun line hmem => hends line (List.mem_cons_of_mem _ hmem))

/-- Lines that others follow end with their newlines. -/
theorem endsLine_of_mem (h : Lined (above ++ below)) (hne : below ≠ []) : ∀ line ∈ above, endsLine line = true := by
  induction above with
  | nil => exact fun _ hmem => absurd hmem List.not_mem_nil
  | cons first above ih =>
    have hfirst : endsLine first = true := h.endsLine_of_below fun hnil => hne (List.append_eq_nil_iff.mp hnil).2
    exact List.forall_mem_cons.mpr ⟨hfirst, ih h.tail⟩

/-- Other lines in the place of some that others follow. -/
theorem replace {own new : List Text} (h : Lined (above ++ own ++ below)) (hnew : Lined new)
    (hends : ∀ line ∈ new, endsLine line = true) (hown : own ≠ []) : Lined (above ++ new ++ below) := by
  rw [List.append_assoc] at h ⊢
  have hrest : own ++ below ≠ [] := fun hnil => hown (List.append_eq_nil_iff.mp hnil).1
  exact h.front.append (h.endsLine_of_mem hrest) (hnew.append hends h.of_append.of_append)

end Lined

end Text

namespace Region

open Text (Lined)

/-! ## The lines of a region -/

/-- The region is what some lines below others take up. -/
structure Spans (region : Region) (above own : List Text) : Prop where
  start : region.start + region.lead.length = above.flatten.length
  stop : region.stop = (above ++ own).flatten.length

/-- Replacing the region replaces its lines. -/
theorem Spans.splice_eq {key : Text} {region : Region} {above own below : List Text} (h : Spans region above own)
    (hfound : ofKey? key (above ++ own ++ below).flatten = some region) (new : Text) :
    splice region (above ++ own ++ below).flatten new = above.flatten ++ new ++ below.flatten := by
  obtain ⟨before, body, after, hcut, -⟩ := ofKey?_cut hfound
  have hfront : (before ++ region.lead).length = above.flatten.length := by
    rw [List.length_append, hcut.start, h.start]
  have hbehind : (before ++ region.lead ++ body).length = (above ++ own).flatten.length := by rw [hcut.stop, h.stop]
  have hwhole : (above ++ own).flatten ++ below.flatten = before ++ region.lead ++ body ++ after := by
    rw [← List.flatten_append, ← hcut.whole]
  obtain ⟨hown, hafter⟩ := List.append_inj hwhole hbehind.symm
  rw [List.flatten_append] at hown
  have habove : above.flatten = before ++ region.lead := List.append_inj_left hown hfront.symm
  rw [hcut.splice_eq, habove, hafter]

theorem Spans.splice_lines {key text : Text} {region : Region} {above own below : List Text} (h : Spans region above own)
    (hlines : text.fullLines = above ++ own ++ below) (hfound : ofKey? key text = some region) (new : Text) :
    splice region text new = (above ++ new.fullLines ++ below).flatten := by
  have htext : text = (above ++ own ++ below).flatten := by rw [← hlines, Text.fullLines_flatten]
  rw [htext] at hfound ⊢
  rw [h.splice_eq hfound]
  simp only [List.flatten_append, Text.fullLines_flatten]

/-- The lines of a text parted at a key: those above its first key line, this line with the lines that continue it, and
    those below. -/
structure Parted (key : Text) (above own below : List Text) : Prop where
  quiet : ∀ line ∈ above, afterColon? key line = none
  own : ∃ line rest more, own = line :: more ∧ KeyLine key rest line ∧ ∀ other ∈ more, other.head?.any continues = true
  stop : ∀ line ∈ below.head?, line.head?.any continues = false

namespace Parted

variable {key : Text} {above own below : List Text}

theorem ne_nil (h : Parted key above own below) : own ≠ [] := by
  obtain ⟨line, rest, more, rfl, -⟩ := h.own
  exact List.cons_ne_nil _ _

/-- The region of the key is that of its lines, whatever stands below them. -/
theorem located_eq {line rest : Text} {more : List Text} (h : Parted key above (line :: more) below) (hkey : '\n' ∉ key)
    (hlined : Lined (above ++ line :: more ++ below)) (hline : KeyLine key rest line) :
    ofKey? key (above ++ line :: more ++ below).flatten = some (scanned above line rest more) := by
  obtain ⟨_, _, _, hown, -, hmore⟩ := h.own
  obtain ⟨rfl, rfl⟩ := List.cons.inj hown
  have hbelow : continuing (more ++ below) = continuing more := by
    rw [continuing_append hmore h.stop, continuing_eq_flatten hmore]
  have hlines : above ++ line :: more ++ below = above ++ line :: (more ++ below) := by simp
  rw [hlines] at hlined ⊢
  rw [ofKey?_flatten hkey hlined hline h.quiet, scanned, hbelow, scanned]

/-- The key is located at its lines. -/
theorem located (h : Parted key above own below) (hkey : '\n' ∉ key) (hlined : Lined (above ++ own ++ below)) :
    ∃ region, ofKey? key (above ++ own ++ below).flatten = some region ∧ Spans region above own := by
  obtain ⟨line, rest, more, rfl, hline, hmore⟩ := h.own
  refine ⟨scanned above line rest more, h.located_eq hkey hlined hline, ?_, ?_⟩
  · simp only [scanned]
    split <;> simp only [List.length_nil, List.length_singleton] <;> omega
  · simp only [scanned, continuing_eq_flatten hmore, List.flatten_append, List.flatten_cons, List.length_append]
    omega

end Parted

/-- The first of the key lines parts the lines. -/
theorem exists_parted_of_mem {key line behind : Text} {ls : List Text} (hmem : line ∈ ls)
    (hcolon : afterColon? key line = some behind) :
    ∃ above own below, ls = above ++ own ++ below ∧ Parted key above own below := by
  have hany : (ls.find? fun l => (afterColon? key l).isSome).isSome = true :=
    List.find?_isSome.mpr ⟨line, hmem, by rw [hcolon]; rfl⟩
  obtain ⟨first, hfirst⟩ := Option.isSome_iff_exists.mp hany
  obtain ⟨hcolon, above, rest, hlines, hquiet⟩ := List.find?_eq_some_iff_append.mp hfirst
  obtain ⟨behind, hcolon⟩ := Option.isSome_iff_exists.mp hcolon
  -- the lines below the key line, up to the first that does not continue it
  refine ⟨above, first :: rest.takeWhile (fun l => l.head?.any continues),
    rest.dropWhile fun l => l.head?.any continues, ?_, fun other hmem => ?_, ?_, fun next hnext => ?_⟩
  · rw [hlines, List.append_assoc, List.cons_append, List.takeWhile_append_dropWhile]
  · simpa using hquiet other hmem
  · exact ⟨first, behind, _, rfl, afterColon?_eq_some_iff.mp hcolon, List.all_eq_true.mp List.all_takeWhile⟩
  · have hstop := List.head?_dropWhile_not (fun l : Text => l.head?.any continues) rest
    rw [Option.mem_def.mp hnext] at hstop
    exact hstop

/-- A text without the key has no key line. -/
theorem afterColon?_of_mem_fullLines {key text : Text} (hkey : '\n' ∉ key) (h : ofKey? key text = none) :
    ∀ line ∈ text.fullLines, afterColon? key line = none := by
  intro line hmem
  refine Option.eq_none_iff_forall_ne_some.mpr fun behind hcolon => ?_
  obtain ⟨above, own, below, hlines, hparted⟩ := exists_parted_of_mem hmem hcolon
  obtain ⟨region, hregion, -⟩ := hparted.located hkey (hlines ▸ text.lined_fullLines)
  rw [← hlines, Text.fullLines_flatten, h] at hregion
  cases hregion

/-- A located key parts the lines of the text. -/
theorem exists_parted {key text : Text} {region : Region} (hkey : '\n' ∉ key) (h : ofKey? key text = some region) :
    ∃ above own below, text.fullLines = above ++ own ++ below ∧ Parted key above own below ∧ Spans region above own := by
  have hlined := text.lined_fullLines
  by_cases hquiet : ∀ line ∈ text.fullLines, afterColon? key line = none
  · have hnone := ofKey?_flatten_eq_none hkey hlined hquiet
    rw [Text.fullLines_flatten, h] at hnone
    cases hnone
  · obtain ⟨line, hmem, hsome⟩ : ∃ line ∈ text.fullLines, afterColon? key line ≠ none := by simpa using hquiet
    obtain ⟨behind, hcolon⟩ := Option.ne_none_iff_exists'.mp hsome
    obtain ⟨above, own, below, hlines, hparted⟩ := exists_parted_of_mem hmem hcolon
    obtain ⟨found, hfound, hspans⟩ := hparted.located hkey (hlines ▸ hlined)
    rw [← hlines, Text.fullLines_flatten, h] at hfound
    cases hfound
    exact ⟨above, own, below, hlines, hparted, hspans⟩

/-- Lines that end with newlines are none if they take up nothing. -/
theorem eq_nil_of_flatten {ls : List Text} (hends : ∀ line ∈ ls, Text.endsLine line = true) (h : ls.flatten = []) :
    ls = [] := by
  cases ls with
  | nil => rfl
  | cons first ls =>
    obtain ⟨hfirst, -⟩ := List.append_eq_nil_iff.mp h
    have hline := hends first List.mem_cons_self
    rw [hfirst] at hline
    cases hline

/-- A text that its key takes up from the start to the end is parted with nothing above and nothing below. -/
theorem parted_of_whole {key text value : Text} (hkey : '\n' ∉ key) (hends : Text.endsLine text = true)
    (h : ofKey? key text = some ⟨0, text.length, [], value⟩) : Parted key [] text.fullLines [] := by
  obtain ⟨above, own, below, hlines, hparted, hspans⟩ := exists_parted hkey h
  have hlineEnds := Text.endsLine_of_mem_fullLines hends
  rw [hlines] at hlineEnds
  have hstart : above.flatten = [] := List.length_eq_zero_iff.mp hspans.start.symm
  have hstop : below.flatten = [] := by
    have hlength := congrArg (List.length ∘ List.flatten) hlines
    simp only [Function.comp_apply, Text.fullLines_flatten] at hlength
    have hall : text.length = (above ++ own).flatten.length := hspans.stop
    rw [List.flatten_append, List.length_append, ← hall] at hlength
    exact List.length_eq_zero_iff.mp (by omega)
  obtain rfl : above = [] := eq_nil_of_flatten (fun line hline => hlineEnds line (by simp [hline])) hstart
  obtain rfl : below = [] := eq_nil_of_flatten (fun line hline => hlineEnds line (by simp [hline])) hstop
  rw [hlines, List.nil_append, List.append_nil]
  exact hparted

/-! ## Two edits -/

/-- What may stand in the place of a key and its value: nothing, or lines that the key takes up from the first to the
    last. -/
def Replaces (key new : Text) : Prop :=
  new = [] ∨ Text.endsLine new = true ∧ ∃ value, ofKey? key new = some ⟨0, new.length, [], value⟩

/-- One of two regions ends before the key line of the other starts. -/
def Apart (region other : Region) : Prop :=
  region.stop ≤ other.start + other.lead.length ∨ other.stop ≤ region.start + region.lead.length

namespace Replaces

variable {key new : Text}

theorem endsLine_of_mem (h : Replaces key new) : ∀ line ∈ new.fullLines, Text.endsLine line = true := by
  rcases h with rfl | ⟨hends, -⟩
  · exact fun _ hmem => absurd hmem List.not_mem_nil
  · exact Text.endsLine_of_mem_fullLines hends

/-- It is nothing, or starts with a key line. -/
theorem head (h : Replaces key new) (hkey : '\n' ∉ key) :
    new.fullLines = [] ∨ ∃ line rest more, new.fullLines = line :: more ∧ KeyLine key rest line := by
  rcases h with rfl | ⟨hends, value, hvalue⟩
  · exact Or.inl rfl
  · obtain ⟨line, rest, more, hlines, hline, -⟩ := (parted_of_whole hkey hends hvalue).own
    exact Or.inr ⟨line, rest, more, hlines, hline⟩

end Replaces

/-- Key lines of one key start with the same character. -/
theorem KeyLine.head? {key rest line : Text} (h : KeyLine key rest line) (hkey : key ≠ []) :
    line.head? = key.head? := by
  obtain ⟨blanks, -, rfl⟩ := h
  cases key with
  | nil => exact absurd rfl hkey
  | cons => rfl

section TwoKeys

variable {p q text newP newQ : Text} {regionP regionQ : Region} {above own mid other below : List Text}

/-- If the region of a key ends before that of another, the lines of both are in turn. -/
theorem parted_in_turn {front behind : List Text} {ls : List Text} (hfirst : ls = above ++ own ++ behind)
    (hspans : Spans regionP above own) (hsecond : ls = front ++ other ++ below) (hparted : Parted q front other below)
    (hother : Spans regionQ front other) (hle : regionP.stop ≤ regionQ.start + regionQ.lead.length) :
    ∃ mid, front = above ++ own ++ mid ∧ behind = mid ++ other ++ below := by
  rw [hspans.stop, hother.start] at hle
  rw [hfirst, List.append_assoc front] at hsecond
  rcases List.append_eq_append_iff.mp hsecond with ⟨mid, hfront, hbehind⟩ | ⟨extra, hown, hrest⟩
  · exact ⟨mid, hfront, by rw [hbehind, List.append_assoc]⟩
  · -- the second key line would be among the lines of the first region
    obtain ⟨line, rest, more, rfl, hline, -⟩ := hparted.own
    have hextra : extra = [] := by
      cases extra with
      | nil => rfl
      | cons first extra =>
        obtain ⟨rfl, -⟩ := List.cons.inj hrest
        obtain ⟨blanks, -, rfl⟩ := hline
        rw [hown] at hle
        simp only [List.flatten_append, List.flatten_cons, List.length_append, List.length_cons] at hle
        omega
    subst hextra
    exact ⟨[], by simpa using hown.symm, by simpa using hrest.symm⟩

/-- New lines in the place of the upper key leave the lower one parted. -/
theorem Parted.replace_above (h : Parted q (above ++ own ++ mid) other below) (hq : '\n' ∉ q)
    (hnew : ofKey? q newP = none) : Parted q (above ++ newP.fullLines ++ mid) other below where
  quiet := by
    have hquiet := h.quiet
    simp only [List.mem_append] at hquiet ⊢
    rintro line ((hline | hline) | hline)
    · exact hquiet line (Or.inl (Or.inl hline))
    · exact afterColon?_of_mem_fullLines hq hnew line hline
    · exact hquiet line (Or.inr hline)
  own := h.own
  stop := h.stop

/-- New lines in the place of the lower key leave the upper one parted: what then follows its value still does not
    continue it. -/
theorem Parted.replace_below {front : List Text} (h : Parted p above own (mid ++ other ++ below))
    (hother : Parted q front other below) (hq : '\n' ∉ q) (hne : q ≠ []) (hnew : Replaces q newQ) :
    Parted p above own (mid ++ newQ.fullLines ++ below) where
  quiet := h.quiet
  own := h.own
  stop := by
    have hstop := h.stop
    cases mid with
    | cons line mid => exact hstop
    | nil =>
      rcases hnew.head hq with hnil | ⟨line, rest, more, hlines, hline⟩
      · rw [hnil]
        exact hother.stop
      · -- the new key line starts with the character that the old one starts with
        obtain ⟨old, oldRest, oldMore, rfl, hold, -⟩ := hother.own
        have hsame : line.head? = old.head? := by rw [hline.head? hne, hold.head? hne]
        rw [hlines]
        rintro first hfirst
        cases hfirst
        rw [hsame]
        exact hstop old rfl

/-- Both edits, for a key above another. -/
theorem splices_commute_of_le (hp : '\n' ∉ p) (hq : '\n' ∉ q) (hne : q ≠ []) (hfoundP : ofKey? p text = some regionP)
    (hfoundQ : ofKey? q text = some regionQ) (hle : regionP.stop ≤ regionQ.start + regionQ.lead.length)
    (hnewP : Replaces p newP) (hnewQ : Replaces q newQ) (hforeign : ofKey? q newP = none) :
    ∃ nextQ nextP, ofKey? q (splice regionP text newP) = some nextQ ∧ ofKey? p (splice regionQ text newQ) = some nextP ∧
      splice nextQ (splice regionP text newP) newQ = splice nextP (splice regionQ text newQ) newP := by
  obtain ⟨above, own, behind, hlinesP, hpartedP, hspansP⟩ := exists_parted hp hfoundP
  obtain ⟨front, other, below, hlinesQ, hpartedQ, hspansQ⟩ := exists_parted hq hfoundQ
  obtain ⟨mid, rfl, rfl⟩ := parted_in_turn hlinesP hspansP hlinesQ hpartedQ hspansQ hle
  have hlined := text.lined_fullLines
  -- the text with one key replaced, by its lines
  have hspliceP : splice regionP text newP = (above ++ newP.fullLines ++ mid ++ other ++ below).flatten := by
    rw [hspansP.splice_lines hlinesP hfoundP]
    simp only [List.append_assoc]
  have hspliceQ : splice regionQ text newQ = (above ++ own ++ (mid ++ newQ.fullLines ++ below)).flatten := by
    rw [hspansQ.splice_lines hlinesQ hfoundQ]
    simp only [List.append_assoc]
  -- the other key, located in it
  have hnextQ := hpartedQ.replace_above hq hforeign
  have hnextP := hpartedP.replace_below hpartedQ hq hne hnewQ
  have hlinedP : Lined (above ++ newP.fullLines ++ mid ++ other ++ below) := by
    have hswap := Lined.replace (hlinesP ▸ hlined) newP.lined_fullLines hnewP.endsLine_of_mem hpartedP.ne_nil
    simpa only [List.append_assoc] using hswap
  have hlinedQ : Lined (above ++ own ++ (mid ++ newQ.fullLines ++ below)) := by
    have hswap := Lined.replace (hlinesQ ▸ hlined) newQ.lined_fullLines hnewQ.endsLine_of_mem hpartedQ.ne_nil
    simpa only [List.append_assoc] using hswap
  obtain ⟨nextQ, hfoundNextQ, hspansNextQ⟩ := hnextQ.located hq hlinedP
  obtain ⟨nextP, hfoundNextP, hspansNextP⟩ := hnextP.located hp hlinedQ
  refine ⟨nextQ, nextP, by rw [hspliceP, hfoundNextQ], by rw [hspliceQ, hfoundNextP], ?_⟩
  rw [hspliceP, hspliceQ, hspansNextQ.splice_eq hfoundNextQ, hspansNextP.splice_eq hfoundNextP]
  simp only [List.flatten_append, Text.fullLines_flatten, List.append_assoc]

/-- Edits of two keys commute. The regions of two keys are apart; each is replaced by nothing, or by lines that its own
    key takes up and the other does not occur in. Then each key is still located after the other was edited, and both
    orders give the same text. -/
theorem splices_commute (hp : '\n' ∉ p) (hq : '\n' ∉ q) (hnep : p ≠ []) (hneq : q ≠ [])
    (hfoundP : ofKey? p text = some regionP) (hfoundQ : ofKey? q text = some regionQ) (hapart : Apart regionP regionQ)
    (hnewP : Replaces p newP) (hnewQ : Replaces q newQ) (hforeignQ : ofKey? q newP = none)
    (hforeignP : ofKey? p newQ = none) :
    ∃ nextQ nextP, ofKey? q (splice regionP text newP) = some nextQ ∧ ofKey? p (splice regionQ text newQ) = some nextP ∧
      splice nextQ (splice regionP text newP) newQ = splice nextP (splice regionQ text newQ) newP := by
  rcases hapart with hle | hle
  · exact splices_commute_of_le hp hq hneq hfoundP hfoundQ hle hnewP hnewQ hforeignQ
  · obtain ⟨nextP, nextQ, hnextP, hnextQ, hsame⟩ :=
      splices_commute_of_le hq hp hnep hfoundQ hfoundP hle hnewQ hnewP hforeignP
    exact ⟨nextQ, nextP, hnextQ, hnextP, hsame.symm⟩

end TwoKeys

/-- With the first of two neighbouring keys deleted, the second is located where it then starts the text. -/
theorem splices_commute_neighbours :
    ofKey? "b".toList "a: 1\nb: 2\n".toList = some ⟨4, 10, ['\n'], " 2\n".toList⟩ ∧
    ∃ nextB nextA, ofKey? "b".toList (splice ⟨0, 5, [], " 1\n".toList⟩ "a: 1\nb: 2\n".toList []) = some nextB ∧
      ofKey? "a".toList (splice ⟨4, 10, ['\n'], " 2\n".toList⟩ "a: 1\nb: 2\n".toList "b:\n- 3\n".toList) = some nextA ∧
      splice nextB (splice ⟨0, 5, [], " 1\n".toList⟩ "a: 1\nb: 2\n".toList []) "b:\n- 3\n".toList =
        splice nextA (splice ⟨4, 10, ['\n'], " 2\n".toList⟩ "a: 1\nb: 2\n".toList "b:\n- 3\n".toList) [] := by
  have hfoundA : ofKey? "a".toList "a: 1\nb: 2\n".toList = some ⟨0, 5, [], " 1\n".toList⟩ := by decide
  have hfoundB : ofKey? "b".toList "a: 1\nb: 2\n".toList = some ⟨4, 10, ['\n'], " 2\n".toList⟩ := by decide
  have hapart : Apart ⟨0, 5, [], " 1\n".toList⟩ ⟨4, 10, ['\n'], " 2\n".toList⟩ := Or.inl (by decide)
  have hitem : Replaces "b".toList "b:\n- 3\n".toList := Or.inr ⟨by decide, "- 3\n".toList, by decide⟩
  exact ⟨hfoundB, splices_commute (by decide) (by decide) (by decide) (by decide) hfoundA hfoundB hapart (Or.inl rfl)
    hitem (by decide) (by decide)⟩

end Region
end YamlSplice
