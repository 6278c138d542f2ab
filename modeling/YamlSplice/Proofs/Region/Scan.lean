/-
  YamlSplice.Proofs.Region.Scan — locating a key by its lines.

  The search goes through a text character by character. What it finds can be said by the lines of the text alone:
  the first key line, and the lines that continue it.
  - `fullLines_flatten` / `lined_fullLines`: a text is its lines, and each of them but the last ends with its newline.
  - `takeValue_lines` / `dropHeader_lines`: the value of a key, line by line.
  - `ofKey?_scans`: the region of a key is the one that reading the lines from the first on finds.
-/

import YamlSplice.Proofs.Region.Locate

namespace YamlSplice

namespace Text

/-- The lines of a text, each with the newline that ends it. There is no line behind a final newline. -/
def fullLines : Text → List Text
  | [] => []
  | c :: rest =>
    if c = '\n' then ['\n'] :: fullLines rest
    else
      match fullLines rest with
      | [] => [[c]]
      | line :: more => (c :: line) :: more

/-- Lines of which each but the last ends with its newline, and none holds another. -/
inductive Lined : List Text → Prop where
  | nil : Lined []
  | last {line : Text} : '\n' ∉ line → Lined [line]
  | cons {front : Text} {more : List Text} : '\n' ∉ front → Lined more → Lined ((front ++ ['\n']) :: more)

theorem fullLines_flatten (text : Text) : text.fullLines.flatten = text := by
  induction text with
  | nil => rfl
  | cons c rest ih =>
    unfold fullLines
    by_cases hc : c = '\n'
    · simp [hc, ih]
    · cases hrest : fullLines rest with
      | nil =>
        rw [hrest] at ih
        simp [hc, ← ih]
      | cons line more =>
        rw [hrest] at ih
        simpa [hc] using ih

theorem lined_fullLines (text : Text) : Lined text.fullLines := by
  induction text with
  | nil => exact .nil
  | cons c rest ih =>
    unfold fullLines
    by_cases hc : c = '\n'
    · rw [if_pos hc]
      have hempty : '\n' ∉ ([] : Text) := List.not_mem_nil
      exact .cons hempty ih
    · have hne : '\n' ≠ c := fun h => hc h.symm
      rw [if_neg hc]
      generalize fullLines rest = ls at ih
      cases ih with
      | nil => exact .last (by simpa using hne)
      | last hline => exact .last (by simp [hne, hline])
      | @cons front more hfront hmore =>
        have hlonger : '\n' ∉ c :: front := by simp [hne, hfront]
        exact .cons hlonger hmore

namespace Lined

variable {line : Text} {below : List Text}

theorem tail (h : Lined (line :: below)) : Lined below := by
  cases h with
  | last => exact .nil
  | cons _ hbelow => exact hbelow

/-- A line that others follow ends with its newline. -/
theorem endsLine_of_below (h : Lined (line :: below)) (hne : below ≠ []) : endsLine line = true := by
  cases h with
  | last => exact absurd rfl hne
  | cons => simp [endsLine]

/-- What stands behind a character of the first line, with the lines below. -/
theorem behind {lead rest : Text} {c : Char} (h : Lined ((lead ++ c :: rest) :: below)) (hc : c ≠ '\n') :
    Lined (rest :: below) := by
  generalize hwhole : lead ++ c :: rest = whole at h
  cases h with
  | last hline =>
    subst hwhole
    exact .last fun hmem => hline (by simp [hmem])
  | @cons front _ hfront hbelow =>
    -- the newline at the end of the line is behind the character
    rcases List.eq_nil_or_concat rest with rfl | ⟨shorter, d, rfl⟩
    · have hlast := List.append_inj_right' hwhole rfl
      exact absurd (List.singleton_inj.mp hlast) hc
    · rw [List.concat_eq_append, ← List.cons_append, ← List.append_assoc] at hwhole
      obtain ⟨hlead, hd⟩ := List.append_inj' hwhole rfl
      have hshorter : '\n' ∉ shorter := fun hmem => hfront (by rw [← hlead]; simp [hmem])
      rw [List.concat_eq_append, hd]
      exact .cons hshorter hbelow

/-- Nothing stands behind the newline of a line. -/
theorem newline_last {lead rest : Text} (h : Lined ((lead ++ '\n' :: rest) :: below)) : rest = [] := by
  generalize hwhole : lead ++ '\n' :: rest = whole at h
  cases h with
  | last hline => exact absurd (by simp [← hwhole]) hline
  | @cons front _ hfront _ =>
    rcases List.eq_nil_or_concat rest with hnil | ⟨shorter, d, rfl⟩
    · exact hnil
    · rw [List.concat_eq_append, ← List.cons_append, ← List.append_assoc] at hwhole
      obtain ⟨rfl, -⟩ := List.append_inj' hwhole rfl
      exact absurd (by simp) hfront

/-- The lines that others follow are the empty text, or end with a newline. -/
theorem above {above : List Text} (h : Lined (above ++ line :: below)) :
    above = [] ∨ endsLine above.flatten = true := by
  induction above with
  | nil => exact Or.inl rfl
  | cons first above ih =>
    right
    have hfirst : endsLine first = true := h.endsLine_of_below (by simp)
    rcases ih h.tail with rfl | hends
    · simpa using hfirst
    · rw [List.flatten_cons]
      exact endsLine_append hends

theorem front {above : List Text} (h : Lined (above ++ below)) : Lined above := by
  induction above with
  | nil => exact .nil
  | cons first above ih =>
    rw [List.cons_append] at h
    generalize hmore : above ++ below = more at h
    cases h with
    | last hline =>
      obtain ⟨rfl, -⟩ := List.append_eq_nil_iff.mp hmore
      exact .last hline
    | cons hfront h =>
      subst hmore
      exact .cons hfront (ih h)

theorem of_append {above : List Text} (h : Lined (above ++ below)) : Lined below := by
  induction above with
  | nil => exact h
  | cons _ above ih => exact ih h.tail

end Lined

end Text

namespace Region

open Text (Lined)

/-! ## Values by lines -/

/-- The leading lines that continue a value, put together. -/
def continuing (below : List Text) : Text := (below.takeWhile fun line => line.head?.any continues).flatten

theorem continuing_cons (line : Text) (below : List Text) :
    continuing (line :: below) = if line.head?.any continues then line ++ continuing below else [] := by
  unfold continuing
  rw [List.takeWhile_cons]
  split <;> rfl

/-- Lines that continue a value, and below them one that does not. -/
theorem continuing_append {more below : List Text} (hmore : ∀ line ∈ more, line.head?.any continues = true)
    (hbelow : ∀ line ∈ below.head?, line.head?.any continues = false) : continuing (more ++ below) = more.flatten := by
  unfold continuing
  rw [List.takeWhile_append_of_pos hmore]
  cases below with
  | nil => simp
  | cons first below => simp [hbelow first rfl]

theorem continuing_eq_flatten {more : List Text} (hmore : ∀ line ∈ more, line.head?.any continues = true) :
    continuing more = more.flatten := by
  have hnone : ∀ line ∈ ([] : List Text).head?, line.head?.any continues = false := by simp
  simpa using continuing_append hmore hnone

theorem takeValue_of_not_mem {front : Text} (h : '\n' ∉ front) : takeValue front = front := by
  induction front with
  | nil => rfl
  | cons c front ih =>
    simp only [List.mem_cons, not_or] at h
    rw [takeValue_cons (Ne.symm h.1), ih h.2]

theorem takeValue_ne_nil {text : Text} (h : text ≠ []) : takeValue text ≠ [] := by
  cases text with
  | nil => exact absurd rfl h
  | cons c rest =>
    by_cases hc : c = '\n'
    · subst hc
      cases rest with
      | nil => simp [takeValue]
      | cons d rest =>
        rw [takeValue_newline]
        split <;> simp
    · simp [takeValue_cons hc]

theorem takeValue_line {front : Text} (h : '\n' ∉ front) (more : Text) :
    takeValue (front ++ '\n' :: more) =
      front ++ '\n' :: (if more.head?.any continues then takeValue more else []) := by
  induction front with
  | nil =>
    cases more with
    | nil => rfl
    | cons d more =>
      rw [List.nil_append, takeValue_newline]
      by_cases hd : continues d = true <;> simp [hd]
  | cons c front ih =>
    simp only [List.mem_cons, not_or] at h
    rw [List.cons_append, takeValue_cons (Ne.symm h.1), ih h.2, List.cons_append]

/-- Where the next line continues a value, the value goes on over the leading lines that do. -/
theorem takeValue_continuing {below : List Text} (h : Lined below) :
    (if below.flatten.head?.any continues then takeValue below.flatten else []) = continuing below := by
  induction h with
  | nil => rfl
  | @last line hline =>
    rw [List.flatten_singleton, takeValue_of_not_mem hline, continuing_cons]
    simp [continuing]
  | @cons front more hfront _ ih =>
    have hhead : ((front ++ ['\n']) :: more).flatten.head? = (front ++ ['\n']).head? := by
      cases front <;> rfl
    have hflatten : ((front ++ ['\n']) :: more).flatten = front ++ '\n' :: more.flatten := by simp
    rw [hhead, hflatten, takeValue_line hfront, ih, continuing_cons]
    simp

/-- Some line continues a value if the next one does. -/
theorem continuing_ne_nil_iff {below : List Text} (h : Lined below) :
    continuing below ≠ [] ↔ below.flatten.head?.any continues = true := by
  rw [← takeValue_continuing h]
  by_cases hhead : below.flatten.head?.any continues = true
  · have hne : takeValue below.flatten ≠ [] := takeValue_ne_nil fun hnil => by
      rw [hnil] at hhead
      cases hhead
    simp [hhead, hne]
  · simp [hhead]

theorem takeValue_lines {line : Text} {below : List Text} (h : Lined (line :: below)) :
    takeValue (line ++ below.flatten) = line ++ continuing below := by
  cases h with
  | last hline => simpa [continuing] using takeValue_of_not_mem hline
  | @cons front _ hfront hbelow =>
    rw [List.append_assoc, List.singleton_append, takeValue_line hfront, takeValue_continuing hbelow]
    simp

theorem dropWhile_of_exists {p : Char → Bool} {text : Text} (h : ¬ ∀ c ∈ text, p c = true) :
    ∃ d tail, text.dropWhile p = d :: tail ∧ d ∈ text ∧ p d = false := by
  induction text with
  | nil => simp at h
  | cons c text ih =>
    by_cases hc : p c = true
    · obtain ⟨d, tail, hdrop, hmem, hd⟩ := ih fun hall => h (by simpa [hc] using hall)
      exact ⟨d, tail, by rw [List.dropWhile_cons, if_pos hc, hdrop], List.mem_cons_of_mem _ hmem, hd⟩
    · exact ⟨c, text, by rw [List.dropWhile_cons, if_neg hc], List.mem_cons_self, by simpa using hc⟩

/-- The rest of the key line is left out if it is blank and some line continues it. -/
theorem dropHeader_lines {rest : Text} {below : List Text} (h : Lined (rest :: below)) :
    dropHeader (rest ++ below.flatten) =
      if rest.all Text.isBlank = true ∧ continuing below ≠ [] then below.flatten else rest ++ below.flatten := by
  cases h with
  | last hrest =>
    have hkept : ∀ more, rest.dropWhile Text.isInlineBlank ≠ '\n' :: more := fun more hdrop =>
      hrest ((List.dropWhile_sublist _).subset (by rw [hdrop]; exact List.mem_cons_self))
    have hnone : continuing ([] : List Text) = [] := rfl
    rw [if_neg fun hboth => hboth.2 hnone, List.flatten_nil, List.append_nil]
    unfold dropHeader
    split
    · next hdrop => exact absurd hdrop (hkept _)
    · rfl
  | @cons front _ hfront hbelow =>
    have hblank : ∀ c ∈ front, Text.isBlank c = Text.isInlineBlank c := fun c hc => by
      have hne : c ≠ '\n' := fun h => hfront (h ▸ hc)
      simp [Text.isInlineBlank, hne]
    by_cases hall : ∀ c ∈ front, Text.isInlineBlank c = true
    · -- nothing but blanks: the next line decides
      have hline : (front ++ ['\n']).all Text.isBlank = true := by
        rw [List.all_append, Bool.and_eq_true]
        exact ⟨List.all_eq_true.mpr fun c hc => (hblank c hc).trans (hall c hc), by decide⟩
      have hdrop : (front ++ ['\n'] ++ below.flatten).dropWhile Text.isInlineBlank = '\n' :: below.flatten := by
        rw [List.append_assoc, List.dropWhile_append_of_pos hall, List.singleton_append, List.dropWhile_cons,
          if_neg (by decide)]
      have hne := continuing_ne_nil_iff hbelow
      unfold dropHeader
      rw [hdrop]
      generalize below.flatten = tail at hne ⊢
      cases tail with
      | nil => simp [hne]
      | cons c tail => by_cases hc : continues c = true <;> simp [hne, hline, hc]
    · -- some character of the key line is no blank
      obtain ⟨d, tail, hdrop, hmem, hd⟩ := dropWhile_of_exists hall
      have hne : d ≠ '\n' := fun h => hfront (h ▸ hmem)
      have hline : ¬ (front ++ ['\n']).all Text.isBlank = true := fun hline => by
        have := List.all_eq_true.mp hline d (List.mem_append_left _ hmem)
        rw [hblank d hmem, hd] at this
        cases this
      rw [if_neg fun hboth => hline hboth.1]
      unfold dropHeader
      rw [List.append_assoc, dropWhile_append_of_mem hd hmem, hdrop]
      simp [hne]

/-! ## Key lines -/

/-- A line that starts with the key, blanks and a colon, and what is left of it. -/
def KeyLine (key rest line : Text) : Prop :=
  ∃ blanks, blanks.all Text.isInlineBlank = true ∧ line = key ++ blanks ++ ':' :: rest

theorem afterColon?_eq_some_iff {key line rest : Text} :
    afterColon? key line = some rest ↔ KeyLine key rest line := by
  constructor
  · exact afterColon?_eq_some
  · rintro ⟨blanks, hblanks, rfl⟩
    have hafter : Text.after? key (key ++ blanks ++ ':' :: rest) = some (blanks ++ ':' :: rest) :=
      Text.after?_eq_some_iff.mpr (List.append_assoc _ _ _)
    have hcolon : Text.isInlineBlank ':' = false := by decide
    unfold afterColon?
    rw [hafter]
    simp only [List.dropWhile_append, Text.dropWhile_eq_nil_of_all hblanks, List.isEmpty_nil, if_true,
      List.dropWhile_cons, hcolon, Bool.false_eq_true, if_false]

theorem afterColon?_eq_none_iff {key line : Text} :
    afterColon? key line = none ↔ ∀ rest, ¬ KeyLine key rest line := by
  simp only [← afterColon?_eq_some_iff, Option.eq_none_iff_forall_ne_some, ne_eq]

/-- The colon of a key line is on the line itself, whatever the lines below. -/
theorem afterColon?_lines {key line : Text} {below : List Text} (hkey : '\n' ∉ key) (h : Lined (line :: below)) :
    afterColon? key (line ++ below.flatten) = (afterColon? key line).map (· ++ below.flatten) := by
  by_cases hbelow : below = []
  · subst hbelow
    cases hline : afterColon? key line <;> simp [hline]
  · exact afterColon?_append hkey (Text.newline_mem_of_endsLine (h.endsLine_of_below hbelow))

/-! ## Regions by lines -/

/-- The region of a key line with this rest, below some lines and above others. -/
def scanned (above : List Text) (line rest : Text) (below : List Text) : Region :=
  let offset := above.flatten.length
  let own := continuing below
  { start := offset - 1
    stop := offset + line.length + own.length
    lead := if offset = 0 then [] else ['\n']
    value := if rest.all Text.isBlank = true ∧ own ≠ [] then own else rest ++ own }

theorem at?_lines {key line rest lead : Text} {below : List Text} {start : Nat} (hkey : '\n' ∉ key)
    (h : Lined (line :: below)) (hline : KeyLine key rest line) :
    at? key start lead (line ++ below.flatten) =
      some ⟨start, start + lead.length + line.length + (continuing below).length, lead,
        if rest.all Text.isBlank = true ∧ continuing below ≠ [] then continuing below else rest ++ continuing below⟩ := by
  have hcolon := afterColon?_lines hkey h
  rw [afterColon?_eq_some_iff.mpr hline, Option.map_some] at hcolon
  obtain ⟨blanks, -, hparts⟩ := hline
  have hlength : line.length = key.length + blanks.length + 1 + rest.length := by
    simp only [hparts, List.length_append, List.length_cons]
    omega
  have hbehind : Lined (rest :: below) := by
    rw [hparts] at h
    exact h.behind (by decide)
  simp only [at?, hcolon, Option.map_some, dropHeader_lines hbehind]
  by_cases hheader : rest.all Text.isBlank = true ∧ continuing below ≠ []
  · have hvalue : takeValue below.flatten = continuing below := by
      rw [← takeValue_continuing hbehind.tail, if_pos ((continuing_ne_nil_iff hbehind.tail).mp hheader.2)]
    rw [if_pos hheader, if_pos hheader, hvalue]
    simp only [List.length_append, Option.some.injEq, Region.mk.injEq, true_and, and_true]
    omega
  · rw [if_neg hheader, if_neg hheader, takeValue_lines hbehind]
    simp only [List.length_append, Option.some.injEq, Region.mk.injEq, true_and, and_true]
    omega

/-- Lines none of which is a key line do not make one when they are put together. -/
theorem ofKey?_flatten_eq_none {key : Text} {ls : List Text} (hkey : '\n' ∉ key) (h : Lined ls)
    (hnone : ∀ line ∈ ls, afterColon? key line = none) : ofKey? key ls.flatten = none := by
  have hempty : afterColon? key [] = none := by cases key <;> rfl
  induction h with
  | nil => exact ofKey?_eq_none_iff.mpr ⟨hempty, rfl⟩
  | @last line hline =>
    rw [List.flatten_singleton, ofKey?_eq_none_iff]
    refine ⟨hnone line List.mem_cons_self, findFrom_eq_none_iff.mpr fun above tail htext => ?_⟩
    exact absurd (by rw [htext]; simp) hline
  | @cons front more hfront _ ih =>
    have hfirst : ofKey? key (front ++ ['\n']) = none := by
      rw [ofKey?_eq_none_iff]
      refine ⟨hnone _ List.mem_cons_self, findFrom_eq_none_iff.mpr fun above tail htext => ?_⟩
      -- its only newline is the last character
      rcases List.eq_nil_or_concat tail with rfl | ⟨shorter, d, rfl⟩
      · exact hempty
      · rw [List.concat_eq_append, ← List.cons_append, ← List.append_assoc] at htext
        exact absurd (by rw [(List.append_inj' htext rfl).1]; simp) hfront
    have hmore := ih fun line hmem => hnone line (List.mem_cons_of_mem _ hmem)
    rw [List.flatten_cons]
    exact ofKey?_append_none hkey hfirst (by simp [Text.endsLine]) hmore

/-- The region of a key, if its first key line is known. -/
theorem ofKey?_flatten {key line rest : Text} {above below : List Text} (hkey : '\n' ∉ key)
    (h : Lined (above ++ line :: below)) (hline : KeyLine key rest line)
    (hnone : ∀ other ∈ above, afterColon? key other = none) :
    ofKey? key (above ++ line :: below).flatten = some (scanned above line rest below) := by
  have hat : ∀ start lead, at? key start lead (line ++ below.flatten) = _ := fun start lead =>
    at?_lines hkey h.of_append hline
  rw [List.flatten_append, List.flatten_cons]
  rcases h.above with rfl | hends
  · rw [List.flatten_nil, List.nil_append, ofKey?_eq, hat, Option.some_or]
    simp [scanned]
  · have habove : ofKey? key above.flatten = none := ofKey?_flatten_eq_none hkey h.front hnone
    have hlength : above.flatten.length ≠ 0 := fun hzero => by
      rw [List.length_eq_zero_iff.mp hzero] at hends
      cases hends
    rw [ofKey?_below hkey habove hends, hat, Option.some_or]
    simp only [scanned, hlength, if_false, Option.some.injEq, Region.mk.injEq, true_and, and_true,
      List.length_singleton]
    omega

/-- The region of a key is found by reading lines: there is none without a key line; and the first key line, with
    the lines below that continue it, makes the region. -/
theorem ofKey?_scans {key text : Text} (hkey : '\n' ∉ key) :
    (ofKey? key text = none ↔ ∀ line ∈ text.fullLines, ∀ rest, ¬ KeyLine key rest line) ∧
    ∀ above line rest below, text.fullLines = above ++ line :: below → KeyLine key rest line →
      (∀ other ∈ above, ∀ tail, ¬ KeyLine key tail other) →
      ofKey? key text = some (scanned above line rest below) := by
  have hlined := text.lined_fullLines
  have hfound : ∀ above line rest below, text.fullLines = above ++ line :: below → KeyLine key rest line →
      (∀ other ∈ above, ∀ tail, ¬ KeyLine key tail other) →
      ofKey? key text = some (scanned above line rest below) := by
    intro above line rest below hlines hline hnone
    rw [hlines] at hlined
    have htext : (above ++ line :: below).flatten = text := by rw [← hlines, Text.fullLines_flatten]
    rw [← htext]
    exact ofKey?_flatten hkey hlined hline fun other hmem => afterColon?_eq_none_iff.mpr (hnone other hmem)
  refine ⟨⟨fun hnone line hmem rest hline => ?_, fun hnone => ?_⟩, hfound⟩
  · -- of the key lines, take the first
    have hany : (text.fullLines.find? fun l => (afterColon? key l).isSome).isSome = true :=
      List.find?_isSome.mpr ⟨line, hmem, by rw [afterColon?_eq_some_iff.mpr hline]; rfl⟩
    obtain ⟨first, hfirst⟩ := Option.isSome_iff_exists.mp hany
    obtain ⟨hcolon, above, below, hlines, habove⟩ := List.find?_eq_some_iff_append.mp hfirst
    obtain ⟨firstRest, hcolon⟩ := Option.isSome_iff_exists.mp hcolon
    have hquiet : ∀ other ∈ above, ∀ tail, ¬ KeyLine key tail other := fun other hother =>
      afterColon?_eq_none_iff.mp (by simpa using habove other hother)
    have hsome := hfound above first firstRest below hlines (afterColon?_eq_some_iff.mp hcolon) hquiet
    rw [hnone] at hsome
    cases hsome
  · rw [← text.fullLines_flatten]
    exact ofKey?_flatten_eq_none hkey hlined fun line hmem => afterColon?_eq_none_iff.mpr (hnone line hmem)

/-- Below another key, with a blank before the colon and an empty line in the value. -/
theorem ofKey?_scans_second_key :
    ofKey? "k".toList "a: 1\nk :\n\n- x\nb: 2\n".toList = some ⟨4, 14, ['\n'], "\n- x\n".toList⟩ := by
  have hnewline : '\n' ∉ "k".toList := by decide
  have hlines : Text.fullLines "a: 1\nk :\n\n- x\nb: 2\n".toList =
      ["a: 1\n".toList] ++ "k :\n".toList :: ["\n".toList, "- x\n".toList, "b: 2\n".toList] := by decide
  have hline : KeyLine "k".toList ['\n'] "k :\n".toList := ⟨[' '], by decide, rfl⟩
  have hquiet : ∀ other ∈ ["a: 1\n".toList], ∀ tail, ¬ KeyLine "k".toList tail other := by
    intro other hother
    rw [List.mem_singleton.mp hother]
    exact afterColon?_eq_none_iff.mp (by decide)
  exact (ofKey?_scans hnewline).2 _ _ _ _ hlines hline hquiet

end Region
end YamlSplice
