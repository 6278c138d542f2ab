/-
  YamlSplice.Proofs.Stream.Single — a stream with one document.

  A text without separator lines is one document, and the place for new keys is in it. So every update is made there,
  however the documents are chosen; before it is made the body is read once more to choose them. That reading comes
  before the last line is closed, which makes no difference as long as the body stays closed: only an empty body is
  read as another text, and then both are read as no value. Documents that hold no value may stand in front.
  - `targets_last`: one turn is made in the last document, or its reading fails as the edit would have.
  - `applyInTurn_last`: all turns.
  - `applyToStream_single`: the outcome is that of the updates of one document.
-/

import YamlSplice.Proofs.Stream.Turns

namespace YamlSplice.Edit

open Text (IsClosed)

variable {format : Format} {settings : Settings} {front : List Document} {d : Document}

/-! ## Reading a body -/

/-- A closed text is read as it is read with its last line closed. -/
theorem read_closeLine (hempty : format.read [] = .ok .null) (hline : format.read ['\n'] = .ok .null) {text : Text}
    (hclosed : IsClosed text) : format.read (Text.closeLine text) = format.read text := by
  rcases hclosed with rfl | hends
  · rw [hempty]
    exact hline
  · rw [Text.closeLine_of_endsLine hends]

/-- An edit fails if its document cannot be read. -/
theorem apply_eq_error {keep : Bool} {key value : Value} {text : Text} {failure : Failure}
    (h : format.read (Text.closeLine text) = .error failure) :
    (apply format keep key value text).result = .error failure := by
  rw [apply, Run.result_bind, Run.result_ofExcept, h]
  rfl

/-- A body that was read as a value or is closed is so after an edit. -/
theorem filled_or_closed_of_apply (hformat : format.EndsLines) {keep : Bool} {key value : Value} {body : Text}
    (h : Filled format d ∨ IsClosed d.body) (hbody : (apply format keep key value d.body).result = .ok body) :
    Filled format { d with body } ∨ IsClosed body := by
  rcases apply_closed hformat hbody with rfl | hclosed
  · exact h
  · exact Or.inr hclosed

/-! ## Updates in the last document -/

/-- A document that is read as no value lacks every key. -/
theorem lacks_of_null (key : Value) (h : format.read d.body = .ok .null) : Lacks format key d := by
  refine ⟨⟨.null, h⟩, ?_⟩
  rintro ⟨entries, existing, hread, -⟩
  cases h.symm.trans hread

theorem lacks_of_absent {key : Value} {entries : List (Value × Value)} (hread : format.read d.body = .ok (.map entries))
    (habsent : Value.valueUnder? entries key = none) : Lacks format key d := by
  refine ⟨⟨_, hread⟩, ?_⟩
  intro ⟨others, existing, hother, hunder⟩
  cases hread.symm.trans hother
  cases habsent.symm.trans hunder

/-- Documents that are read as no value are not found. -/
theorem filledFrom_append {later : List Document} {offset : Nat} (hfront : ∀ e ∈ front, format.read e.body = .ok .null) :
    filledFrom format offset (front ++ later) = filledFrom format (offset + front.length) later := by
  induction front generalizing offset with
  | nil => rfl
  | cons first front ih =>
    obtain ⟨hfirst, hfront⟩ := List.forall_mem_cons.mp hfront
    rw [List.cons_append, filledFrom, hfirst, List.length_cons, Nat.add_comm front.length 1, ← Nat.add_assoc, ← ih hfront]
    rfl

/-- The last document is the one to update, if it can be read. -/
theorem targets_last {key : Value} (hfront : ∀ e ∈ front, format.read e.body = .ok .null) :
    targets format settings key front.length (front ++ [d]) = (format.read d.body).map fun _ => [front.length] := by
  unfold targets
  rw [filledFrom_append hfront, holder?_append fun e he => lacks_of_null key (hfront e he), Nat.zero_add]
  cases hread : format.read d.body with
  | error failure => split <;> simp only [holder?, filledFrom, hread, bind, Except.bind, Except.map]
  | ok current =>
    split
    · cases current <;> simp only [filledFrom, hread, bind, Except.bind, pure, Except.pure, Except.map]
    · have hfound : ∃ found, holder? format key front.length [d] = .ok found ∧ found.getD front.length = front.length := by
        simp only [holder?, hread, bind, Except.bind]
        split
        · split
          · exact ⟨some front.length, rfl, rfl⟩
          · exact ⟨none, rfl, rfl⟩
        · exact ⟨none, rfl, rfl⟩
      obtain ⟨found, hfound, hplace⟩ := hfound
      simp only [hfound, hplace, bind, Except.bind, pure, Except.pure, Except.map]

/-- One turn in the last document. -/
theorem applyEach_last {key value : Value} :
    (applyEach format settings key value [front.length] (front ++ [d])).result =
      (apply format settings.keepIndent key value d.body).result.map fun body => front ++ [{ d with body }] := by
  have hlast : (front ++ [d])[front.length]? = some d := by simp
  simp only [applyEach, applyAt, Run.result_bind, Run.result_note, hlast, Except.bind]
  cases (apply format settings.keepIndent key value d.body).result with
  | error failure => rfl
  | ok body => simp [Except.map]

/-- All turns in the last document. -/
theorem applyInTurn_last (hformat : format.EndsLines) (hempty : format.read [] = .ok .null)
    (hline : format.read ['\n'] = .ok .null) (hfront : ∀ e ∈ front, format.read e.body = .ok .null)
    {updates : List (Value × Value)} (hd : Filled format d ∨ IsClosed d.body) :
    (applyInTurn format settings front.length updates (front ++ [d])).result =
      (applyAll format settings.keepIndent updates d.body).result.map fun body => front ++ [{ d with body }] := by
  induction updates generalizing d with
  | nil => rw [applyAll_nil, applyInTurn, Run.result_pure, Run.result_pure, Except.map]
  | cons update rest ih =>
    obtain ⟨key, value⟩ := update
    rw [applyInTurn, applyAll_cons]
    simp only [Run.result_bind, Run.result_ofExcept, targets_last hfront]
    cases hread : format.read d.body with
    | error failure =>
      have hclosed : IsClosed d.body := by
        rcases hd with ⟨value, hvalue, -⟩ | hclosed
        · cases hread.symm.trans hvalue
        · exact hclosed
      rw [← read_closeLine hempty hline hclosed] at hread
      rw [apply_eq_error hread]
      rfl
    | ok current =>
      simp only [Except.map, Except.bind, applyEach_last]
      cases hbody : (apply format settings.keepIndent key value d.body).result with
      | error failure => rfl
      | ok body => exact ih (filled_or_closed_of_apply hformat hd hbody)

/-- A text that is a single closed document, updated as a stream, gives what updating it as a document gives: the same
    text, or the same failure. -/
theorem applyToStream_single (hformat : format.EndsLines) (hempty : format.read [] = .ok .null)
    (hline : format.read ['\n'] = .ok .null) {text : Text} (hclosed : IsClosed text) (hone : Stream.Unseparated text)
    (updates : List (Value × Value)) :
    (applyToStream format settings updates text).result = (applyAll format settings.keepIndent updates text).result := by
  have hsplit : Stream.split text = [⟨[], text⟩] := by
    have hjoin : Stream.join [⟨[], text⟩] = text := by simp [Stream.join]
    rw [← Stream.split_join (Stream.wellFormed_singleton.mpr hone), hjoin]
  have hnone : ∀ e ∈ ([] : List Document), format.read e.body = .ok .null := fun _ he => absurd he List.not_mem_nil
  have hturns : (applyInTurn format settings 0 updates [⟨[], text⟩]).result =
      (applyAll format settings.keepIndent updates text).result.map fun body => [⟨[], body⟩] :=
    applyInTurn_last hformat hempty hline hnone (Or.inr hclosed)
  have hplace : (Stream.placeForNew? [⟨[], text⟩]).getD 0 = 0 := rfl
  simp only [applyToStream, hsplit, hplace, Run.result_bind, hturns]
  cases (applyAll format settings.keepIndent updates text).result with
  | error failure => rfl
  | ok body => simp [Except.map, Except.bind, Stream.join]

/-- The first update empties the document, the second fills it; it is not left out for being empty in between. -/
theorem applyToStream_single_emptied :
    (applyToStream Format.yaml { everyDocument := true } [(.str "a".toList, .null), (.str "b".toList, .int 2)]
      "a: 1\n".toList).result = .ok "b: 2\n".toList ∧
    (applyToStream Format.yaml { everyDocument := true } [(.str "a".toList, .null), (.str "b".toList, .int 2)]
      "a: 1\n".toList).result =
      (applyAll Format.yaml false [(.str "a".toList, .null), (.str "b".toList, .int 2)] "a: 1\n".toList).result := by
  have hempty : Format.yaml.read [] = .ok .null := by cbv
  have hline : Format.yaml.read ['\n'] = .ok .null := by cbv
  have hfirst : '\n' ∉ "a: 1".toList := by decide
  have hone : Stream.Unseparated "a: 1\n".toList :=
    (Stream.unseparated_line_iff hfirst).mpr ⟨rfl, Stream.unseparated_last List.not_mem_nil⟩
  have hsame : (applyToStream Format.yaml { everyDocument := true } _ _).result = (applyAll Format.yaml false _ _).result :=
    applyToStream_single Format.yaml_endsLines hempty hline (Or.inr rfl) hone
      [(.str "a".toList, .null), (.str "b".toList, .int 2)]
  have hread : Format.yaml.read (Text.closeLine "a: 1\n".toList) = .ok (.map [(.str ['a'], .int 1)]) := by cbv
  have hexisting : Value.valueUnder? [(.str ['a'], .int 1)] (.str ['a']) = some (.int 1) := by cbv
  have hremoved : (apply Format.yaml false (.str "a".toList) .null "a: 1\n".toList).result = .ok [] :=
    (Outcome.removed _ _ ⟨0, 5, [], " 1\n".toList⟩ hread rfl hexisting (by decide)).apply_eq_ok
  have hfilled : (apply Format.yaml false (.str "b".toList) (.int 2) []).result = .ok "b: 2\n".toList :=
    (Outcome.filled "b: 2\n".toList hline (by decide) rfl).apply_eq_ok
  have hall : (applyAll Format.yaml false [(.str "a".toList, .null), (.str "b".toList, .int 2)] "a: 1\n".toList).result =
      .ok "b: 2\n".toList := applyAll_cons_eq_ok.mpr ⟨_, hremoved, applyAll_cons_eq_ok.mpr ⟨_, hfilled, rfl⟩⟩
  exact ⟨hsame.trans hall, hsame⟩

end YamlSplice.Edit
