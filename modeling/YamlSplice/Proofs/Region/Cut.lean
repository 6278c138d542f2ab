/-
  YamlSplice.Proofs.Region.Cut — a region cuts a text.

  The offsets of a located key are the lengths of what stands before it: the text before the region,
  the newline in front of the key line, the key line with its value, and the rest.
  - `ofKey?_cut`: the region of a key cuts its text, and between the newline and the stop it holds
    the key, blanks and a colon.
  - `Cut.splice_eq`: replacing a region replaces that part of the text and nothing else.
-/

import YamlSplice.Edit.Region

namespace YamlSplice.Region

/-- The text is cut by the region: `before`, the lead, `body`, `after`. -/
structure Cut (region : Region) (text before body after : Text) : Prop where
  whole : text = before ++ region.lead ++ body ++ after
  start : before.length = region.start
  stop : (before ++ region.lead ++ body).length = region.stop

namespace Cut

variable {region : Region} {text before body after : Text}

theorem take_eq (h : Cut region text before body after) : text.take region.start = before := by
  rw [h.whole, ← h.start, List.append_assoc, List.append_assoc, List.take_left]

theorem drop_eq (h : Cut region text before body after) : text.drop region.stop = after := by
  rw [h.whole, ← h.stop, List.drop_left]

theorem drop_line_eq (h : Cut region text before body after) :
    text.drop (region.start + region.lead.length) = body ++ after := by
  rw [h.whole, ← h.start, ← List.length_append, List.append_assoc, List.drop_left]

theorem splice_eq (h : Cut region text before body after) (replacement : Text) :
    splice region text replacement = before ++ region.lead ++ replacement ++ after := by
  simp only [splice, h.take_eq, h.drop_eq]

end Cut

/-! ## The value behind the colon -/

/-- What lies between the colon and the value: nothing, or the rest of the key line, which is then blank, and the line
    below it continues the key. -/
def Between (header value : Text) : Prop :=
  header = [] ∨ ∃ blanks, blanks.all Text.isInlineBlank = true ∧ header = blanks ++ ['\n'] ∧
    value.head?.any continues = true

/-- Nothing of the text behind the colon is skipped but the rest of the key line. -/
theorem dropHeader_between (text : Text) : ∃ header, header ++ dropHeader text = text ∧ Between header (dropHeader text) := by
  unfold dropHeader
  split
  · next c rest hd =>
    split
    · next hcontinues =>
      refine ⟨text.takeWhile Text.isInlineBlank ++ ['\n'], ?_, Or.inr ⟨_, List.all_takeWhile, rfl, hcontinues⟩⟩
      rw [List.append_assoc, List.singleton_append, ← hd, List.takeWhile_append_dropWhile]
    · exact ⟨[], rfl, Or.inl rfl⟩
  · exact ⟨[], rfl, Or.inl rfl⟩

theorem dropHeader_isSuffix (text : Text) : dropHeader text <:+ text := by
  obtain ⟨header, hheader, -⟩ := dropHeader_between text
  exact ⟨header, hheader⟩

theorem takeValue_head? (text : Text) : (takeValue text).head? = text.head? := by
  cases text with
  | nil => rfl
  | cons c rest =>
    unfold takeValue
    split
    · next hc =>
      subst hc
      split
      · rfl
      · split <;> rfl
    · rfl

/-- What follows the value does not continue it. -/
theorem takeValue_stop {text after : Text} (h : text = takeValue text ++ after) :
    ∀ c ∈ after.head?, continues c = false := by
  induction text with
  | nil => intro c hc; simp [takeValue] at h; simp [h] at hc
  | cons x rest ih =>
    unfold takeValue at h
    split at h
    · next hx =>
      subst hx
      split at h
      · intro c hc; simp at h; simp [h] at hc
      · next d tail =>
        split at h
        · exact ih (by simpa using h)
        · next hd =>
          intro c hc
          simp only [List.singleton_append, List.cons.injEq, true_and] at h
          subst h
          simp only [List.head?_cons, Option.mem_def, Option.some.injEq] at hc
          subst hc
          simpa using hd
    · exact ih (by simpa using h)

/-! ## Locating a key -/

theorem findFrom_eq_some {key text : Text} {start : Nat} {region : Region}
    (h : findFrom key start text = some region) :
    ∃ before line, text = before ++ '\n' :: line ∧ at? key (start + before.length) ['\n'] line = some region := by
  induction text generalizing start with
  | nil => simp [findFrom] at h
  | cons c rest ih =>
    unfold findFrom at h
    have later (h : findFrom key (start + 1) rest = some region) :
        ∃ before line, c :: rest = before ++ '\n' :: line ∧
          at? key (start + before.length) ['\n'] line = some region := by
      obtain ⟨before, line, hrest, hat⟩ := ih h
      refine ⟨c :: before, line, by simp [hrest], ?_⟩
      rw [← hat, List.length_cons]
      congr 1
      omega
    split at h
    · next hc =>
      subst hc
      split at h
      · next found hfound =>
        cases h
        exact ⟨[], rest, rfl, hfound⟩
      · exact later h
    · exact later h

/-- A key line that starts a line of a text cuts it. -/
theorem at?_cut {key before lead line : Text} {region : Region}
    (h : at? key before.length lead line = some region) :
    ∃ body after, Cut region (before ++ lead ++ line) before body after ∧ region.lead = lead ∧
      (∃ blanks header, blanks.all Text.isInlineBlank = true ∧ body = key ++ blanks ++ ':' :: (header ++ region.value) ∧
        Between header region.value) ∧
      ∀ c ∈ after.head?, continues c = false := by
  simp only [at?, Option.map_eq_some_iff] at h
  obtain ⟨rest, hrest, rfl⟩ := h
  obtain ⟨blanks, hblanks, hline⟩ := afterColon?_eq_some hrest
  obtain ⟨header, hheader, hbetween⟩ := dropHeader_between rest
  rw [Between, ← takeValue_head?] at hbetween
  obtain ⟨after, hafter⟩ := takeValue_isPrefix (dropHeader rest)
  have hparts : line = key ++ blanks ++ ':' :: (header ++ takeValue (dropHeader rest)) ++ after := by
    have hrest : rest = header ++ (takeValue (dropHeader rest) ++ after) := by rw [hafter, hheader]
    calc line = key ++ blanks ++ ':' :: rest := hline
      _ = key ++ blanks ++ ':' :: (header ++ (takeValue (dropHeader rest) ++ after)) :=
        congrArg (fun tail => key ++ blanks ++ ':' :: tail) hrest
      _ = _ := by simp only [List.append_assoc, List.cons_append]
  refine ⟨key ++ blanks ++ ':' :: (header ++ takeValue (dropHeader rest)), after, ⟨?_, rfl, ?_⟩, rfl,
    ⟨blanks, header, hblanks, rfl, hbetween⟩, takeValue_stop hafter.symm⟩
  · simp [hparts]
  · have hlen : line.length - (dropHeader rest).length = key.length + blanks.length + 1 + header.length := by
      have h1 := congrArg List.length hline
      have h2 := congrArg List.length hheader
      simp only [List.length_append, List.length_cons] at h1 h2
      omega
    simp only [hlen, List.length_append, List.length_cons]
    omega

/-- The region of a key cuts the text. Its key line starts the text or follows a newline, its value goes to the end
    of it, and what follows does not continue the value. -/
theorem ofKey?_cut {key text : Text} {region : Region} (h : ofKey? key text = some region) :
    ∃ before body after, Cut region text before body after ∧
      (before = [] ∧ region.lead = [] ∨ region.lead = ['\n']) ∧
      (∃ blanks header, blanks.all Text.isInlineBlank = true ∧ body = key ++ blanks ++ ':' :: (header ++ region.value) ∧
        Between header region.value) ∧
      ∀ c ∈ after.head?, continues c = false := by
  unfold ofKey? at h
  split at h
  · next found hat =>
    cases h
    change at? key ([] : Text).length [] text = some region at hat
    obtain ⟨body, after, hcut, hlead, hbody, hafter⟩ := at?_cut hat
    exact ⟨[], body, after, by simpa using hcut, Or.inl ⟨rfl, hlead⟩, hbody, hafter⟩
  · obtain ⟨before, line, htext, hat⟩ := findFrom_eq_some h
    rw [Nat.zero_add] at hat
    obtain ⟨body, after, hcut, hlead, hbody, hafter⟩ := at?_cut hat
    refine ⟨before, body, after, ?_, Or.inr hlead, hbody, hafter⟩
    rwa [htext, ← List.singleton_append, ← List.append_assoc]

end YamlSplice.Region
