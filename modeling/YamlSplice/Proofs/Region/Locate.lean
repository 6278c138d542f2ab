/-
  YamlSplice.Proofs.Region.Locate — where a key is located in a text put together of parts.

  - `ofKey?_append`: lines that are not key lines are passed over; the first key line below them, with
    the lines that continue it (`Whole`), is the region.
  - `ofKey?_append_none`: no key line comes about by putting closed lines together.
-/

import YamlSplice.Proofs.Region.Cut

namespace YamlSplice

namespace Text

theorem endsLine_iff {text : Text} : endsLine text = true ↔ ∃ front, text = front ++ ['\n'] := by
  rw [endsLine, beq_iff_eq, List.getLast?_eq_some_iff]

theorem newline_mem_of_endsLine {text : Text} (h : endsLine text = true) : '\n' ∈ text := by
  obtain ⟨front, rfl⟩ := endsLine_iff.mp h
  simp

theorem endsLine_of_suffix {text rest : Text} (h : endsLine text = true) (hrest : rest <:+ text)
    (hne : rest ≠ []) : endsLine rest = true := by
  obtain ⟨front, rfl⟩ := hrest
  simpa [endsLine, List.getLast?_append, List.getLast?_eq_some_getLast hne] using h

theorem endsLine_append {text rest : Text} (h : endsLine rest = true) : endsLine (text ++ rest) = true := by
  obtain ⟨front, rfl⟩ := endsLine_iff.mp h
  exact endsLine_iff.mpr ⟨text ++ front, by rw [List.append_assoc]⟩

/-- A block below its key line. -/
theorem endsLine_below {key block : Text} (h : endsLine block = true) : endsLine (key ++ ':' :: '\n' :: block) = true := by
  rw [List.append_cons, List.append_cons]
  exact endsLine_append h

end Text

namespace Region

/-! ## Key lines -/

theorem after?_append {key line more : Text} (hkey : '\n' ∉ key) (hline : '\n' ∈ line) :
    Text.after? key (line ++ more) = (Text.after? key line).map (· ++ more) := by
  induction key generalizing line with
  | nil => rfl
  | cons c key ih =>
    simp only [List.mem_cons, not_or] at hkey
    cases line with
    | nil => cases hline
    | cons d line =>
      by_cases hc : c = d
      · subst hc
        have hline : '\n' ∈ line := (List.mem_cons.mp hline).resolve_left hkey.1
        simpa [Text.after?] using ih hkey.2 hline
      · simp [Text.after?, hc]

theorem newline_mem_of_after? {key line rest : Text} (hkey : '\n' ∉ key) (hline : '\n' ∈ line)
    (h : Text.after? key line = some rest) : '\n' ∈ rest := by
  rw [Text.after?_eq_some_iff] at h
  subst h
  exact (List.mem_append.mp hline).resolve_left hkey

theorem dropWhile_append_of_mem {p : Char → Bool} {line more : Text} {c : Char} (hc : p c = false)
    (hline : c ∈ line) : (line ++ more).dropWhile p = line.dropWhile p ++ more := by
  induction line with
  | nil => cases hline
  | cons d line ih =>
    by_cases hd : p d = true
    · have hline : c ∈ line := (List.mem_cons.mp hline).resolve_left fun h => by simp [h, hd] at hc
      simp [hd, ih hline]
    · simp [hd]

theorem mem_dropWhile {p : Char → Bool} {line : Text} {c : Char} (hc : p c = false) (hline : c ∈ line) :
    c ∈ line.dropWhile p := by
  induction line with
  | nil => cases hline
  | cons d line ih =>
    by_cases hd : p d = true
    · have hline : c ∈ line := (List.mem_cons.mp hline).resolve_left fun h => by simp [h, hd] at hc
      simpa [hd] using ih hline
    · simpa [hd] using hline

/-- The colon of a key line is on the line itself. -/
theorem afterColon?_append {key line more : Text} (hkey : '\n' ∉ key) (hline : '\n' ∈ line) :
    afterColon? key (line ++ more) = (afterColon? key line).map (· ++ more) := by
  unfold afterColon?
  rw [after?_append hkey hline]
  cases h : Text.after? key line with
  | none => rfl
  | some rest =>
    have hrest := newline_mem_of_after? hkey hline h
    have hblank : Text.isInlineBlank '\n' = false := by decide
    simp only [Option.map_some, dropWhile_append_of_mem hblank hrest]
    have hmem := mem_dropWhile hblank hrest
    generalize rest.dropWhile Text.isInlineBlank = tail at hmem
    cases tail with
    | nil => cases hmem
    | cons c tail => by_cases hc : c = ':' <;> simp [hc]

/-- The text behind the colon goes on to the end of the line. -/
theorem newline_mem_of_afterColon? {key line rest : Text} (hkey : '\n' ∉ key) (hline : '\n' ∈ line)
    (h : afterColon? key line = some rest) : '\n' ∈ rest := by
  obtain ⟨blanks, hblanks, rfl⟩ := afterColon?_eq_some h
  have hinline : '\n' ∉ blanks := fun hmem => by
    have := List.all_eq_true.mp hblanks _ hmem
    revert this
    decide
  simpa [hkey, hinline] using hline

/-! ## Values -/

theorem takeValue_cons {c : Char} (hc : c ≠ '\n') (rest : Text) : takeValue (c :: rest) = c :: takeValue rest := by
  rw [takeValue.eq_def]
  simp [hc]

theorem takeValue_newline (d : Char) (rest : Text) :
    takeValue ('\n' :: d :: rest) = if continues d then '\n' :: takeValue (d :: rest) else ['\n'] := by
  rw [takeValue.eq_def]
  simp

/-- No line starts inside the text but to continue it. -/
def Whole (text : Text) : Prop := takeValue text = text

theorem Whole.tail {c : Char} {rest : Text} (h : Whole (c :: rest)) : Whole rest := by
  unfold Whole at h ⊢
  by_cases hc : c = '\n'
  · subst hc
    cases rest with
    | nil => rfl
    | cons d rest =>
      rw [takeValue_newline] at h
      split at h
      · simpa using h
      · simp at h
  · simpa [takeValue_cons hc] using h

theorem Whole.of_append {text rest : Text} (h : Whole (text ++ rest)) : Whole rest := by
  induction text with
  | nil => exact h
  | cons c text ih => exact ih h.tail

theorem Whole.continues {d : Char} {rest : Text} (h : Whole ('\n' :: d :: rest)) : continues d = true := by
  unfold Whole at h
  rw [takeValue_newline] at h
  split at h
  · assumption
  · simp at h

theorem whole_takeValue (text : Text) : Whole (takeValue text) := by
  unfold Whole
  induction text with
  | nil => rfl
  | cons c rest ih =>
    by_cases hc : c = '\n'
    · subst hc
      cases rest with
      | nil => rfl
      | cons d rest =>
        rw [takeValue_newline]
        split
        · next hcontinues =>
          obtain ⟨more, hmore⟩ : ∃ more, takeValue (d :: rest) = d :: more :=
            List.head?_eq_some_iff.mp (takeValue_head? (d :: rest))
          rw [hmore] at ih ⊢
          rw [takeValue_newline, if_pos hcontinues, ih]
        · rfl
    · rw [takeValue_cons hc, takeValue_cons hc, ih]

theorem endsLine_takeValue {text : Text} (h : Text.endsLine text = true) : Text.endsLine (takeValue text) = true := by
  induction text with
  | nil => exact h
  | cons c rest ih =>
    cases rest with
    | nil =>
      obtain rfl : c = '\n' := by simpa [Text.endsLine] using h
      rfl
    | cons d rest =>
      have ih := ih (by simpa [Text.endsLine] using h)
      by_cases hc : c = '\n'
      · subst hc
        rw [takeValue_newline]
        split
        · show Text.endsLine (['\n'] ++ takeValue (d :: rest)) = true
          exact Text.endsLine_append ih
        · rfl
      · rw [takeValue_cons hc]
        show Text.endsLine ([c] ++ takeValue (d :: rest)) = true
        exact Text.endsLine_append ih

/-- A value stops where the next line does not continue it. -/
theorem takeValue_append {text below : Text} (hwhole : Whole text) (hends : Text.endsLine text = true)
    (hbelow : ∀ c ∈ below.head?, Region.continues c = false) : takeValue (text ++ below) = text := by
  induction text with
  | nil => simp [Text.endsLine] at hends
  | cons c text ih =>
    cases text with
    | nil =>
      obtain rfl : c = '\n' := by simpa [Text.endsLine] using hends
      cases below with
      | nil => rfl
      | cons d below => simp [takeValue_newline, hbelow d rfl]
    | cons d text =>
      have ih := ih hwhole.tail (by simpa [Text.endsLine] using hends)
      by_cases hc : c = '\n'
      · subst hc
        rw [List.cons_append] at ih
        rw [List.cons_append, List.cons_append, takeValue_newline, if_pos hwhole.continues, ih]
      · rw [List.cons_append, takeValue_cons hc, ih]

theorem Whole.append {text more : Text} (hwhole : Whole text) (hends : Text.endsLine text = true)
    (hmore : Whole more) (hcontinues : ∀ c ∈ more.head?, Region.continues c = true) : Whole (text ++ more) := by
  induction text with
  | nil => exact hmore
  | cons c text ih =>
    cases text with
    | nil =>
      obtain rfl : c = '\n' := by simpa [Text.endsLine] using hends
      cases more with
      | nil => exact hwhole
      | cons d more =>
        unfold Whole at hmore ⊢
        simp [takeValue_newline, hcontinues d rfl, hmore]
    | cons d text =>
      have ih := ih hwhole.tail (by simpa [Text.endsLine] using hends)
      unfold Whole at ih ⊢
      simp only [List.cons_append] at ih ⊢
      by_cases hc : c = '\n'
      · subst hc
        rw [takeValue_newline, if_pos hwhole.continues, ih]
      · rw [takeValue_cons hc, ih]

theorem whole_newlines (n : Nat) : Whole (List.replicate n '\n') := by
  induction n with
  | zero => rfl
  | succ n ih =>
    cases n with
    | zero => rfl
    | succ n =>
      unfold Whole at ih ⊢
      rw [List.replicate_succ] at ih
      rw [List.replicate_succ, List.replicate_succ, takeValue_newline, if_pos (by decide), ih]

theorem dropHeader_ne_nil {text : Text} (h : text ≠ []) : dropHeader text ≠ [] := by
  unfold dropHeader
  split
  · split <;> simp [h]
  · exact h

theorem dropHeader_append {text below : Text} (hwhole : Whole text) (hends : '\n' ∈ text)
    (hbelow : ∀ c ∈ below.head?, Region.continues c = false) :
    dropHeader (text ++ below) = dropHeader text ++ below := by
  unfold dropHeader
  rw [dropWhile_append_of_mem (by decide : Text.isInlineBlank '\n' = false) hends]
  have hmem := mem_dropWhile (by decide : Text.isInlineBlank '\n' = false) hends
  cases hd : text.dropWhile Text.isInlineBlank with
  | nil => simp [hd] at hmem
  | cons c rest =>
    by_cases hc : c = '\n'
    · subst hc
      cases rest with
      | nil =>
        cases below with
        | nil => simp
        | cons d below => simp [hbelow d rfl]
      | cons d rest =>
        have hsuffix : Whole ('\n' :: d :: rest) := by
          rw [← List.takeWhile_append_dropWhile (p := Text.isInlineBlank) (l := text), hd] at hwhole
          exact hwhole.of_append
        simp [hsuffix.continues]
    · simp [hc]

/-! ## Locating a key -/

/-- A key line with the lines that continue it is the region of the key. -/
theorem at?_append {key line below lead rest : Text} {start : Nat} (hkey : '\n' ∉ key) (hwhole : Whole line)
    (hends : Text.endsLine line = true) (hbelow : ∀ c ∈ below.head?, Region.continues c = false)
    (hrest : afterColon? key line = some rest) :
    at? key start lead (line ++ below) =
      some ⟨start, start + lead.length + line.length, lead, dropHeader rest⟩ := by
  have hnewline := Text.newline_mem_of_endsLine hends
  have hmem := newline_mem_of_afterColon? hkey hnewline hrest
  obtain ⟨blanks, -, hline⟩ := afterColon?_eq_some hrest
  have hbehind : Whole rest := by
    rw [hline] at hwhole
    exact hwhole.of_append.tail
  obtain ⟨header, hheader⟩ := dropHeader_isSuffix rest
  have hbody : Whole (dropHeader rest) := (hheader ▸ hbehind).of_append
  have hbodyEnds : Text.endsLine (dropHeader rest) = true := by
    refine Text.endsLine_of_suffix hends ⟨key ++ blanks ++ ':' :: header, ?_⟩ (dropHeader_ne_nil ?_)
    · rw [hline, List.append_assoc, List.cons_append, hheader]
    · exact List.ne_nil_of_mem hmem
  have hlength : (line ++ below).length - (dropHeader rest ++ below).length =
      line.length - (dropHeader rest).length := by
    simp only [List.length_append]
    omega
  have hle : (dropHeader rest).length ≤ line.length := by
    have h1 := congrArg List.length hheader
    have h2 := congrArg List.length hline
    simp only [List.length_append, List.length_cons] at h1 h2
    omega
  simp only [at?, afterColon?_append hkey hnewline, hrest, Option.map_some,
    dropHeader_append hbehind hmem hbelow, takeValue_append hbody hbodyEnds hbelow, hlength]
  congr 2
  omega

theorem findFrom_newline (key rest : Text) (start : Nat) :
    findFrom key start ('\n' :: rest) = (at? key start ['\n'] rest).or (findFrom key (start + 1) rest) := by
  rw [findFrom]
  cases at? key start ['\n'] rest <;> rfl

theorem findFrom_cons {c : Char} (hc : c ≠ '\n') (key rest : Text) (start : Nat) :
    findFrom key start (c :: rest) = findFrom key (start + 1) rest := by
  rw [findFrom, if_neg hc]

theorem ofKey?_eq (key text : Text) : ofKey? key text = (at? key 0 [] text).or (findFrom key 0 text) := by
  rw [ofKey?]
  cases at? key 0 [] text <;> rfl

theorem at?_eq_none_iff {key lead line : Text} {start : Nat} :
    at? key start lead line = none ↔ afterColon? key line = none := by
  simp [at?]

/-- No line behind a newline is a key line. -/
theorem findFrom_eq_none_iff {key text : Text} {start : Nat} :
    findFrom key start text = none ↔
      ∀ above line, text = above ++ '\n' :: line → afterColon? key line = none := by
  constructor
  · intro h above line htext
    induction above generalizing start text with
    | nil =>
      rw [htext, List.nil_append, findFrom_newline, Option.or_eq_none_iff] at h
      exact at?_eq_none_iff.mp h.1
    | cons c above ih =>
      rw [htext, List.cons_append] at h
      by_cases hc : c = '\n'
      · rw [hc, findFrom_newline, Option.or_eq_none_iff] at h
        exact ih h.2 rfl
      · rw [findFrom_cons hc] at h
        exact ih h rfl
  · intro h
    induction text generalizing start with
    | nil => rfl
    | cons c rest ih =>
      have ih : findFrom key (start + 1) rest = none := ih fun above line hrest => h (c :: above) line (by simp [hrest])
      by_cases hc : c = '\n'
      · subst hc
        rw [findFrom_newline, at?_eq_none_iff.mpr (h [] rest rfl), ih, Option.none_or]
      · rw [findFrom_cons hc, ih]

theorem ofKey?_eq_none_iff {key text : Text} :
    ofKey? key text = none ↔ afterColon? key text = none ∧ findFrom key 0 text = none := by
  rw [ofKey?_eq, Option.or_eq_none_iff, at?_eq_none_iff]

theorem ofKey?_newlines {key : Text} (hkey : '\n' ∉ key) (n : Nat) : ofKey? key (List.replicate n '\n') = none := by
  have hnone : ∀ n, afterColon? key (List.replicate n '\n') = none := by
    intro n
    cases n with
    | zero => cases key <;> rfl
    | succ n =>
      cases key with
      | nil => simp [afterColon?, Text.after?, List.replicate_succ, show Text.isInlineBlank '\n' = false by decide]
      | cons c key =>
        have hc : ¬ c = '\n' := fun h => hkey (by simp [h])
        simp [afterColon?, Text.after?, List.replicate_succ, hc]
  rw [ofKey?_eq_none_iff]
  refine ⟨hnone n, findFrom_eq_none_iff.mpr fun above line htext => ?_⟩
  have hall := (List.eq_replicate_iff.mp htext.symm).2
  have hline : line = List.replicate line.length '\n' :=
    List.eq_replicate_iff.mpr ⟨rfl, fun c hc => hall c (by simp [hc])⟩
  rw [hline]
  exact hnone line.length

/-- The value of a key is taken from behind a colon. -/
theorem ofKey?_value {key text : Text} {region : Region} (h : ofKey? key text = some region) :
    ∃ above rest, text = above ++ ':' :: rest ∧ region.value = takeValue (dropHeader rest) := by
  have hat : ∀ {start lead line}, at? key start lead line = some region →
      ∃ above rest, line = above ++ ':' :: rest ∧ region.value = takeValue (dropHeader rest) := fun h => by
    simp only [at?, Option.map_eq_some_iff] at h
    obtain ⟨rest, hrest, rfl⟩ := h
    obtain ⟨blanks, -, hline⟩ := afterColon?_eq_some hrest
    exact ⟨_, rest, hline, rfl⟩
  unfold ofKey? at h
  split at h
  · next found hfound =>
    cases h
    exact hat hfound
  · obtain ⟨before, line, rfl, hfound⟩ := findFrom_eq_some h
    obtain ⟨above, rest, rfl, hvalue⟩ := hat hfound
    exact ⟨before ++ '\n' :: above, rest, by simp, hvalue⟩

/-- No line of a value starts but to continue it. -/
theorem ofKey?_whole {key text : Text} {region : Region} (h : ofKey? key text = some region) : Whole region.value := by
  obtain ⟨_, _, -, hvalue⟩ := ofKey?_value h
  rw [hvalue]
  exact whole_takeValue _

theorem ofKey?_endsLine {key text : Text} {region : Region} (h : ofKey? key text = some region)
    (hends : Text.endsLine text = true) : Text.endsLine region.value = true := by
  obtain ⟨above, rest, rfl, hvalue⟩ := ofKey?_value h
  have hbehind := Text.endsLine_of_suffix hends (List.suffix_append above _) (List.cons_ne_nil _ _)
  have hne : rest ≠ [] := by
    rintro rfl
    exact absurd hbehind (by decide)
  rw [hvalue]
  refine endsLine_takeValue (Text.endsLine_of_suffix hbehind ?_ (dropHeader_ne_nil hne))
  exact (dropHeader_isSuffix rest).trans (List.suffix_cons _ _)

/-- The search behind newlines passes over lines that are not key lines. -/
theorem findFrom_append {key above line : Text} {start : Nat} (hkey : '\n' ∉ key)
    (habove : findFrom key start above = none) (hends : Text.endsLine above = true) :
    findFrom key start (above ++ line) =
      (at? key (start + (above.length - 1)) ['\n'] line).or (findFrom key (start + above.length) line) := by
  induction above generalizing start with
  | nil => simp [Text.endsLine] at hends
  | cons c above ih =>
    cases above with
    | nil =>
      obtain rfl : c = '\n' := by simpa [Text.endsLine] using hends
      exact findFrom_newline key line start
    | cons d above =>
      have hbehind : Text.endsLine (d :: above) = true := by simpa [Text.endsLine] using hends
      have hlines := findFrom_eq_none_iff.mp habove
      have hlater : findFrom key (start + 1) (d :: above) = none := findFrom_eq_none_iff.mpr fun front tail htext =>
        hlines (c :: front) tail (by simp [htext])
      have ih := ih hlater hbehind
      have hstart : start + 1 + ((d :: above).length - 1) = start + ((c :: d :: above).length - 1) := by
        simp only [List.length_cons]; omega
      have hend : start + 1 + (d :: above).length = start + (c :: d :: above).length := by
        simp only [List.length_cons]; omega
      rw [hstart, hend] at ih
      by_cases hc : c = '\n'
      · subst hc
        have hnone : at? key start ['\n'] (d :: above ++ line) = none := by
          rw [at?_eq_none_iff, afterColon?_append hkey (Text.newline_mem_of_endsLine hbehind),
            hlines [] _ rfl]
          rfl
        rw [List.cons_append, findFrom_newline, hnone, ih, Option.none_or]
      · rw [List.cons_append, findFrom_cons hc, ih]

/-- A key that some lines do not hold is looked for below them. -/
theorem ofKey?_below {key above : Text} (hkey : '\n' ∉ key) (hnone : ofKey? key above = none)
    (hends : Text.endsLine above = true) (line : Text) :
    ofKey? key (above ++ line) = (at? key (above.length - 1) ['\n'] line).or (findFrom key above.length line) := by
  obtain ⟨hfirst, hlater⟩ := ofKey?_eq_none_iff.mp hnone
  have hcolon : afterColon? key (above ++ line) = none := by
    rw [afterColon?_append hkey (Text.newline_mem_of_endsLine hends), hfirst]
    rfl
  rw [ofKey?_eq, at?_eq_none_iff.mpr hcolon, Option.none_or, findFrom_append hkey hlater hends, Nat.zero_add, Nat.zero_add]

/-- The first key line of a text, with the lines that continue it, is the region of the key. -/
theorem ofKey?_append {key above line below rest : Text} (hkey : '\n' ∉ key)
    (hnone : ofKey? key above = none) (hclosed : above = [] ∨ Text.endsLine above = true) (hwhole : Whole line)
    (hends : Text.endsLine line = true) (hbelow : ∀ c ∈ below.head?, Region.continues c = false)
    (hrest : afterColon? key line = some rest) :
    ∃ region before, ofKey? key (above ++ line ++ below) = some region ∧ before ++ region.lead = above ∧
      Cut region (above ++ line ++ below) before line below ∧ region.value = dropHeader rest := by
  rcases hclosed with rfl | hclosed
  · refine ⟨⟨0, line.length, [], dropHeader rest⟩, [], ?_, rfl, ⟨rfl, rfl, rfl⟩, rfl⟩
    rw [ofKey?_eq, List.nil_append, at?_append hkey hwhole hends hbelow hrest, Option.some_or]
    simp
  · have hfound := ofKey?_below hkey hnone hclosed (line ++ below)
    rw [at?_append hkey hwhole hends hbelow hrest, Option.some_or, ← List.append_assoc] at hfound
    obtain ⟨front, rfl⟩ := Text.endsLine_iff.mp hclosed
    refine ⟨_, front, hfound, rfl, ⟨rfl, ?_, ?_⟩, rfl⟩
    · simp
    · simp only [List.length_append, List.length_cons, List.length_nil]
      omega

/-- Closed lines put together hold no key line that they do not hold apart. -/
theorem ofKey?_append_none {key above below : Text} (hkey : '\n' ∉ key) (habove : ofKey? key above = none)
    (hclosed : Text.endsLine above = true) (hbelow : ofKey? key below = none) :
    ofKey? key (above ++ below) = none := by
  obtain ⟨hfirst, hlater⟩ := ofKey?_eq_none_iff.mp hbelow
  rw [ofKey?_below hkey habove hclosed, at?_eq_none_iff.mpr hfirst, Option.none_or]
  exact findFrom_eq_none_iff.mpr (findFrom_eq_none_iff.mp hlater)

end Region
end YamlSplice
