/-
  YamlSplice.Proofs.Edit.Append — keys that a document lacks are added one below the other.

  An added entry goes above the empty lines at the end of the text. Its own last line is not empty, so the text is left
  with the empty lines that it had, and the next entry goes below this one.
  - `exists_emptyLines`: the cut of a text above its empty lines.
  - `append_eq`: an addition goes above the empty lines.
  - `apply_adds`: what one of a run leaves is cut above the same empty lines.
  - `applyAll_adds`: all of the text is kept, and the entries stand in the order of the updates.
-/

import YamlSplice.Proofs.Edit.Sections

namespace YamlSplice

namespace Text

/-! ## The empty lines at the end -/

/-- The text is `front`, which does not end with a newline, a newline, and `n` empty lines. -/
structure EmptyLines (front : Text) (n : Nat) (text : Text) : Prop where
  whole : text = front ++ '\n' :: List.replicate n '\n'
  last : endsLine front = false

theorem endsLine_dropTrailingNewlines (text : Text) : endsLine (dropTrailingNewlines text) = false := by
  unfold endsLine dropTrailingNewlines
  rw [List.getLast?_reverse]
  have hstop := List.head?_dropWhile_not (· == '\n') text.reverse
  cases hrest : (text.reverse.dropWhile (· == '\n')).head? with
  | none => rfl
  | some c =>
    rw [hrest] at hstop
    simpa using hstop

/-- The first of the newlines that a text ends with ends a line, each other one is an empty line. -/
theorem exists_emptyLines {text : Text} (h : endsLine text = true) : ∃ front n, EmptyLines front n text := by
  obtain ⟨more, hmore⟩ := trailingNewlines_of_endsLine h
  have hnewlines := trailingNewlines_eq_replicate text
  rw [hmore, List.length_cons] at hnewlines
  have hwhole := dropTrailingNewlines_append text
  rw [hmore, hnewlines] at hwhole
  exact ⟨dropTrailingNewlines text, more.length, hwhole.symm, endsLine_dropTrailingNewlines text⟩

namespace EmptyLines

variable {front text : Text} {n : Nat}

theorem trailingNewlines_eq (h : EmptyLines front n text) : trailingNewlines text = '\n' :: List.replicate n '\n' := by
  have hnone : trailingNewlines front = [] := by
    by_contra hsome
    have hends := endsLine_of_trailingNewlines hsome
    rw [h.last] at hends
    cases hends
  rw [h.whole, ← List.replicate_succ, trailingNewlines_append_newlines, hnone, List.nil_append]

theorem dropTrailingNewlines_eq (h : EmptyLines front n text) : dropTrailingNewlines text = front := by
  have hwhole := dropTrailingNewlines_append text
  rw [h.trailingNewlines_eq] at hwhole
  exact List.append_cancel_right (hwhole.trans h.whole)

theorem endsLine (h : EmptyLines front n text) : endsLine text = true := by
  apply endsLine_of_trailingNewlines
  rw [h.trailingNewlines_eq]
  exact List.cons_ne_nil _ _

end EmptyLines

end Text

namespace Edit

open Text (EmptyLines)

variable {format : Format} {keep : Bool} {key value : Value} {front text addition : Text} {n : Nat}
  {updates : List (Value × Value)} {additions : List Text}

/-! ## One key -/

/-- An addition goes above the empty lines. -/
theorem append_eq (h : EmptyLines front n text) (addition : Text) :
    append text addition = front ++ '\n' :: addition ++ List.replicate n '\n' := by
  rw [append, h.trailingNewlines_eq, h.dropTrailingNewlines_eq]

/-! ## A run of keys -/

/-- The entry that is written for an update. Its last line is not empty. -/
structure WrittenFor (format : Format) (keep : Bool) (update : Value × Value) (addition : Text) : Prop where
  set : update.2.treatment = .replace ∨ update.2.treatment = .merge
  entry : Render.entry format keep update.1 update.2 = .ok addition
  lastLine : ∃ above c, c ≠ '\n' ∧ addition = above ++ [c, '\n']

/-- The text is read as a mapping that lacks the key. -/
def LacksKey (format : Format) (key : Value) (text : Text) : Prop :=
  ∃ entries, format.read (Text.closeLine text) = .ok (.map entries) ∧ Value.valueUnder? entries key = none

/-- Whenever a key is to be set, the text lacks it, as the updates before left it. -/
def LacksEach (format : Format) (keep : Bool) (updates : List (Value × Value)) (text : Text) : Prop :=
  ∀ done key value rest changed, updates = done ++ (key, value) :: rest →
    (applyAll format keep done text).result = .ok changed → LacksKey format key changed

theorem LacksEach.nil (text : Text) : LacksEach format keep [] text := by
  intro done key value rest changed h
  exact absurd h.symm (List.append_ne_nil_of_right_ne_nil _ (List.cons_ne_nil _ _))

/-- The text lacks the first key, and what the first update leaves lacks the others. -/
theorem lacksEach_cons_iff : LacksEach format keep ((key, value) :: updates) text ↔ LacksKey format key text ∧
    ∀ changed, (apply format keep key value text).result = .ok changed → LacksEach format keep updates changed := by
  constructor
  · intro h
    refine ⟨h [] key value updates text rfl (by rw [applyAll_nil]; rfl), ?_⟩
    intro changed hchanged done nextKey next rest later hupdates hdone
    exact h ((key, value) :: done) nextKey next rest later (by rw [hupdates, List.cons_append])
      (applyAll_cons_eq_ok.mpr ⟨changed, hchanged, hdone⟩)
  · intro ⟨hfirst, hothers⟩ done nextKey next rest later hupdates hdone
    cases done with
    | nil =>
      rw [applyAll_nil] at hdone
      cases hdone
      cases hupdates
      exact hfirst
    | cons first done =>
      obtain ⟨rfl, hrest⟩ := List.cons.inj hupdates
      obtain ⟨changed, hchanged, hdone⟩ := applyAll_cons_eq_ok.mp hdone
      exact hothers changed hchanged done nextKey next rest later hrest hdone

/-- An entry is added above the empty lines, and what it leaves is cut above the same ones. -/
theorem apply_adds (h : EmptyLines front n (Text.closeLine text)) (hwritten : WrittenFor format keep (key, value) addition)
    (hlacks : LacksKey format key text) : ∃ changed above, (apply format keep key value text).result = .ok changed ∧
      EmptyLines above n changed ∧ above ++ ['\n'] = front ++ '\n' :: addition := by
  obtain ⟨entries, hread, habsent⟩ := hlacks
  obtain ⟨line, c, hc, rfl⟩ := hwritten.lastLine
  refine ⟨_, front ++ '\n' :: line ++ [c], apply_absent hread habsent hwritten.set hwritten.entry, ⟨?_, ?_⟩, by simp⟩
  · rw [append_eq h]
    simp
  · rw [Text.endsLine, List.getLast?_concat]
    simpa using hc

/-- The first update of a run, if the others add their entries to what it leaves. -/
theorem applyAll_adds_first (h : EmptyLines front n (Text.closeLine text))
    (hwritten : WrittenFor format keep (key, value) addition) (hlacks : LacksEach format keep ((key, value) :: updates) text)
    (hothers : ∀ changed above, EmptyLines above n changed → LacksEach format keep updates changed →
      (applyAll format keep updates changed).result = .ok (above ++ '\n' :: additions.flatten ++ List.replicate n '\n')) :
    (applyAll format keep ((key, value) :: updates) text).result =
      .ok (front ++ '\n' :: (addition :: additions).flatten ++ List.replicate n '\n') := by
  obtain ⟨hlacksFirst, hlacksOthers⟩ := lacksEach_cons_iff.mp hlacks
  obtain ⟨changed, above, hchanged, hcut, habove⟩ := apply_adds h hwritten hlacksFirst
  have hentries : above ++ '\n' :: additions.flatten = front ++ '\n' :: (addition :: additions).flatten := by
    calc
      above ++ '\n' :: additions.flatten = above ++ ['\n'] ++ additions.flatten := by simp
      _ = front ++ '\n' :: addition ++ additions.flatten := by rw [habove]
      _ = front ++ '\n' :: (addition :: additions).flatten := by simp
  refine applyAll_cons_eq_ok.mpr ⟨changed, hchanged, ?_⟩
  rw [hothers changed above hcut (hlacksOthers changed hchanged), hentries]

/-- A run of updates of a text that ends with a newline. -/
theorem applyAll_adds_closed (hadds : List.Forall₂ (WrittenFor format keep) updates additions)
    (h : EmptyLines front n text) (hlacks : LacksEach format keep updates text) :
    (applyAll format keep updates text).result = .ok (front ++ '\n' :: additions.flatten ++ List.replicate n '\n') := by
  induction hadds generalizing front text with
  | nil =>
    rw [applyAll_nil, h.whole]
    simp
  | cons hfirst _ ih =>
    have hclosed := Text.closeLine_of_endsLine h.endsLine
    refine applyAll_adds_first (hclosed.symm ▸ h) hfirst hlacks ?_
    intro changed above hcut hothers
    exact ih hcut hothers

/-- Updates of keys that a document lacks put their entries, in order, above the empty lines at the end of its text, the
    last line of which is closed first. All of the text stays, and there are as many empty lines as before. -/
theorem applyAll_adds (hne : updates ≠ []) (hadds : List.Forall₂ (WrittenFor format keep) updates additions)
    (hlacks : LacksEach format keep updates text) :
    (∃ front n, EmptyLines front n (Text.closeLine text)) ∧
    ∀ front n, EmptyLines front n (Text.closeLine text) →
      (applyAll format keep updates text).result = .ok (front ++ '\n' :: additions.flatten ++ List.replicate n '\n') := by
  refine ⟨Text.exists_emptyLines (Text.endsLine_closeLine text), ?_⟩
  intro front n h
  cases hadds with
  | nil => exact absurd rfl hne
  | cons hfirst hrest =>
    refine applyAll_adds_first h hfirst hlacks ?_
    intro changed above hcut hothers
    exact applyAll_adds_closed hrest hcut hothers

/-- Two keys, the second with a mapping, in a text with two empty lines at its end. -/
theorem applyAll_adds_two_keys :
    (applyAll Format.yaml false [(.str "b".toList, .str "x".toList), (.str "c".toList, .map [(.str "d".toList, .int 2)])]
      "a: 1\n\n\n".toList).result = .ok "a: 1\nb: x\nc:\n  d: 2\n\n\n".toList := by
  have hread : Format.yaml.read (Text.closeLine "a: 1\n\n\n".toList) = .ok (.map [(.str ['a'], .int 1)]) := by cbv
  have hreadLater : Format.yaml.read (Text.closeLine "a: 1\nb: x\n\n\n".toList) =
      .ok (.map [(.str ['a'], .int 1), (.str ['b'], .str ['x'])]) := by cbv
  have habsent : Value.valueUnder? [(.str ['a'], .int 1)] (.str ['b']) = none := by cbv
  have habsentLater : Value.valueUnder? [(.str ['a'], .int 1), (.str ['b'], .str ['x'])] (.str ['c']) = none := by cbv
  have hfirst : WrittenFor Format.yaml false (.str "b".toList, .str "x".toList) "b: x\n".toList :=
    ⟨Or.inl rfl, rfl, "b: ".toList, 'x', by decide, rfl⟩
  have hsecond : WrittenFor Format.yaml false (.str "c".toList, .map [(.str "d".toList, .int 2)]) "c:\n  d: 2\n".toList :=
    ⟨Or.inr rfl, rfl, "c:\n  d: ".toList, '2', by decide, rfl⟩
  have hadded : (apply Format.yaml false (.str "b".toList) (.str "x".toList) "a: 1\n\n\n".toList).result =
      .ok "a: 1\nb: x\n\n\n".toList := apply_absent hread habsent hfirst.set hfirst.entry
  have hlacks : LacksEach Format.yaml false [(.str "b".toList, .str "x".toList),
      (.str "c".toList, .map [(.str "d".toList, .int 2)])] "a: 1\n\n\n".toList := by
    refine lacksEach_cons_iff.mpr ⟨⟨_, hread, habsent⟩, ?_⟩
    intro changed hchanged
    cases hadded.symm.trans hchanged
    exact lacksEach_cons_iff.mpr ⟨⟨_, hreadLater, habsentLater⟩, fun _ _ => LacksEach.nil _⟩
  have hcut : EmptyLines "a: 1".toList 2 (Text.closeLine "a: 1\n\n\n".toList) := ⟨rfl, rfl⟩
  exact (applyAll_adds (List.cons_ne_nil _ _) (.cons hfirst (.cons hsecond .nil)) hlacks).2 _ _ hcut

end Edit
end YamlSplice
