/-
  YamlSplice.Proofs.Edit.Refine — edits of a mapping, and of the rows that it is made of.

  An edit of one key sets it or removes it, and changes nothing else (`Refines`).
  - `KeepsOthers.of_rows`: rows of a key in place of others, between rows of other keys.
  - `Refines.of_removed` / `Refines.of_row`: these are edits of the mapping.
-/

import YamlSplice.Proofs.Value.Entries

namespace YamlSplice.Edit

open Value

/-- Two mappings are the same but for the entries that a name calls. -/
structure KeepsOthers (name : Text) (before after : List (Value × Value)) : Prop where
  /-- What is found under any other key is what was found there. -/
  kept : ∀ e ∈ before, isCalled e.1 (.str name) = false →
    ∃ found, valueUnder? before e.1 = some found ∧ valueUnder? after e.1 = some found
  /-- The other entries are the same ones, in the same order. -/
  others : after.filter (fun e => !isCalled e.1 (.str name)) = before.filter fun e => !isCalled e.1 (.str name)

/-- The mapping `after` is `before` with a key set to the value, or without the key if the value is
    absent, and otherwise the same. -/
structure Refines (name : Text) (value : Value) (before after : List (Value × Value)) : Prop
    extends KeepsOthers name before after where
  removed : value.treatment = .remove → ∀ e ∈ after, isCalled e.1 (.str name) = false
  present : value.treatment ≠ .remove →
    ∃ found, valueUnder? after (.str name) = some found ∧ agrees found value = true

/-- The name does not tell apart what is the same key. -/
abbrev Distinct (name : Text) (rows : List (Value × Value)) : Prop := ToldApart (isCalled · (.str name)) rows

/-! ## Edits of rows -/

theorem KeepsOthers.refl (name : Text) (entries : List (Value × Value)) : KeepsOthers name entries entries where
  kept _ he _ := (valueUnder?_isSome he).imp fun _ hfound => ⟨hfound, hfound⟩
  others := rfl

theorem KeepsOthers.mem {name : Text} {before after : List (Value × Value)} (h : KeepsOthers name before after)
    {e : Value × Value} (he : e ∈ before) (hname : isCalled e.1 (.str name) = false) : e ∈ after :=
  (List.mem_filter.mp (h.others ▸ List.mem_filter.mpr ⟨he, by simp [hname]⟩)).1

/-- What is found under another name is what was found there. -/
theorem KeepsOthers.valueUnder?_eq {name other : Text} {before after : List (Value × Value)}
    (h : KeepsOthers name before after) (hother : other ≠ name) :
    valueUnder? after (.str other) = valueUnder? before (.str other) := by
  have hkept : ∀ entries : List (Value × Value),
      valueUnder? (entries.filter fun e => !isCalled e.1 (.str name)) (.str other) = valueUnder? entries (.str other) :=
    fun entries => valueUnder?_keeping fun e he => by rw [isCalled_other he (Ne.symm hother)]; rfl
  rw [← hkept after, h.others, hkept]

/-- The rows that a name does not call. -/
theorem filter_rows {above own below : List (Value × Value)} {p : Value × Value → Bool} {b : Bool}
    (hown : ∀ e ∈ own, p e = b) (hothers : ∀ e ∈ above ++ below, p e = !b) :
    (above ++ own ++ below).filter p = if b then own else above ++ below := by
  have habove : ∀ e ∈ above, p e = !b := fun e he => hothers e (List.mem_append_left _ he)
  have hbelow : ∀ e ∈ below, p e = !b := fun e he => hothers e (List.mem_append_right _ he)
  rw [List.filter_append, List.filter_append]
  cases b with
  | false =>
    rw [List.filter_eq_self.mpr habove, List.filter_eq_self.mpr hbelow,
      List.filter_eq_nil_iff.mpr fun e he => by simp [hown e he], List.append_nil]
    rfl
  | true =>
    rw [List.filter_eq_self.mpr hown, List.filter_eq_nil_iff.mpr fun e he => by simp [habove e he],
      List.filter_eq_nil_iff.mpr fun e he => by simp [hbelow e he], List.append_nil]
    rfl

/-- The one entry that a name calls. -/
theorem valueUnder?_between {rows others : List (Value × Value)} {key content : Value} {name : Text}
    (hcalled : isCalled key (.str name) = true) (hothers : ∀ e ∈ rows ++ others, isCalled e.1 (.str name) = false) :
    valueUnder? (rows ++ (key, content) :: others) (.str name) = some content := by
  refine valueUnder?_of_filter (e := (key, content)) ?_
  have hsplit : (rows ++ [(key, content)] ++ others).filter (fun e => isCalled e.1 (.str name)) =
      if true then [(key, content)] else rows ++ others :=
    filter_rows (b := true) (by simpa using hcalled) fun e he => by simp [hothers e he]
  simpa using hsplit

/-- The entries of other keys are those of their rows. -/
theorem filter_others {name : Text} {above own below : List (Value × Value)}
    (hdistinct : Distinct name (above ++ own ++ below)) (hown : ∀ e ∈ own, isCalled e.1 (.str name) = true)
    (hothers : ∀ e ∈ above ++ below, isCalled e.1 (.str name) = false) :
    (ofPairs (above ++ own ++ below)).filter (fun e => !isCalled e.1 (.str name)) = ofPairs (above ++ below) := by
  have hdistinct : ToldApart (fun key => !isCalled key (.str name)) (above ++ own ++ below) :=
    fun a ha b hb hs => congrArg (!·) (hdistinct a ha b hb hs)
  rw [filter_ofPairs hdistinct, filter_rows (b := false) (fun e he => by simp [hown e he])
    (fun e he => by simp [hothers e he])]
  rfl

/-- Rows of a key take the place of others. -/
theorem KeepsOthers.of_rows {name : Text} {above own new below : List (Value × Value)}
    (hold : Distinct name (above ++ own ++ below)) (hnew : Distinct name (above ++ new ++ below))
    (hown : ∀ e ∈ own, isCalled e.1 (.str name) = true) (hcalled : ∀ e ∈ new, isCalled e.1 (.str name) = true)
    (hothers : ∀ e ∈ above ++ below, isCalled e.1 (.str name) = false) :
    KeepsOthers name (ofPairs (above ++ own ++ below)) (ofPairs (above ++ new ++ below)) := by
  have hsame := (filter_others hnew hcalled hothers).trans (filter_others hold hown hothers).symm
  refine ⟨fun e he hname => ?_, hsame⟩
  have hmem : e ∈ ofPairs (above ++ new ++ below) :=
    (List.mem_filter.mp (hsame ▸ List.mem_filter.mpr ⟨he, by simp [hname]⟩)).1
  obtain ⟨found, hbefore, hfound⟩ := valueUnder?_filter he hname hold.ofPairs
  obtain ⟨found', hafter, hfound'⟩ := valueUnder?_filter hmem hname hnew.ofPairs
  rw [hsame, hfound] at hfound'
  exact ⟨found, hbefore, by rw [hafter, hfound']⟩

/-- The one row of a key is what is found under it. -/
theorem valueUnder?_of_row {name : Text} {above below : List (Value × Value)} {row : Value × Value}
    (hdistinct : Distinct name (above ++ [row] ++ below)) (hcalled : isCalled row.1 (.str name) = true)
    (hothers : ∀ e ∈ above ++ below, isCalled e.1 (.str name) = false) :
    valueUnder? (ofPairs (above ++ [row] ++ below)) (.str name) = some row.2 := by
  refine valueUnder?_of_filter ?_
  rw [filter_ofPairs hdistinct, filter_rows (b := true) (by simpa using hcalled) fun e he => by simp [hothers e he]]
  rfl

theorem Refines.of_removed {name : Text} {value : Value} {above own below : List (Value × Value)}
    (hold : Distinct name (above ++ own ++ below)) (hown : ∀ e ∈ own, isCalled e.1 (.str name) = true)
    (hothers : ∀ e ∈ above ++ below, isCalled e.1 (.str name) = false) (ht : value.treatment = .remove) :
    Refines name value (ofPairs (above ++ own ++ below)) (ofPairs (above ++ [] ++ below)) := by
  have hnew : Distinct name (above ++ [] ++ below) := by
    intro a ha b hb hs
    simp only [List.append_nil, List.mem_append] at ha hb
    exact hold a (by simp; tauto) b (by simp; tauto) hs
  refine ⟨.of_rows hold hnew hown (by simp) hothers, fun _ e he => ?_, fun ht' => ?_⟩
  · obtain ⟨row, hrow, hkey⟩ := key_mem_ofPairs he
    rw [hkey]
    exact hothers row (by simpa using hrow)
  · exact absurd ht ht'

theorem Refines.of_row {name : Text} {value : Value} {above own below : List (Value × Value)} {row : Value × Value}
    (hold : Distinct name (above ++ own ++ below)) (hnew : Distinct name (above ++ [row] ++ below))
    (hown : ∀ e ∈ own, isCalled e.1 (.str name) = true) (hcalled : isCalled row.1 (.str name) = true)
    (hothers : ∀ e ∈ above ++ below, isCalled e.1 (.str name) = false) (ht : value.treatment ≠ .remove)
    (hagrees : Value.agrees row.2 value = true) :
    Refines name value (ofPairs (above ++ own ++ below)) (ofPairs (above ++ [row] ++ below)) where
  toKeepsOthers := .of_rows hold hnew hown (by simpa using hcalled) hothers
  removed ht' := absurd ht' ht
  present _ := ⟨row.2, valueUnder?_of_row hnew hcalled hothers, hagrees⟩

end YamlSplice.Edit
