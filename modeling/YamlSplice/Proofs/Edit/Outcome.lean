/-
  YamlSplice.Proofs.Edit.Outcome — what setting or removing one key can come to.

  `Outcome` lists the ways in which an edit of one key succeeds, each with what was read of the
  document and with the text that is left. Whatever is proved of edits is proved of these.
  - `outcome_of_apply` / `Outcome.apply_eq_ok`: an edit that succeeds comes to one of them, and each of
    them is that of an edit.
  - `Run.bind_eq_ok` / `Except.bind_eq_ok`: a sequence succeeds if its parts do.
-/

import YamlSplice.Edit.Update

namespace YamlSplice

theorem Except.bind_eq_ok {ε α β : Type} {x : Except ε α} {f : α → Except ε β} {b : β} :
    x >>= f = .ok b ↔ ∃ a, x = .ok a ∧ f a = .ok b := by
  cases x <;> simp [bind, Except.bind]

namespace Run

variable {α β : Type}

theorem bind_eq_ok {r : Run α} {f : α → Run β} {b : β} :
    (r >>= f).result = .ok b ↔ ∃ a, r.result = .ok a ∧ (f a).result = .ok b := by
  rw [result_bind]
  exact Except.bind_eq_ok

end Run

namespace Edit

variable (format : Format) (keep : Bool)

/-- How the edit of the key `name` ends that leaves a text in place of `text`. -/
inductive Outcome (name : Text) (value : Value) (text : Text) : Text → Prop where
  /-- There is nothing to remove. -/
  | nothing (absent : format.read (Text.closeLine text) = .ok .null ∨ ∃ entries,
        format.read (Text.closeLine text) = .ok (.map entries) ∧ Value.valueUnder? entries (.str name) = none) :
      value.treatment = .remove → Outcome name value text text
  | filled (addition : Text) :
      format.read (Text.closeLine text) = .ok .null → value.treatment ≠ .remove →
      Render.entry format keep (.str name) value = .ok addition →
      Outcome name value text (fillEmpty (Text.closeLine text) addition)
  | removed (entries : List (Value × Value)) (existing : Value) (region : Region) :
      format.read (Text.closeLine text) = .ok (.map entries) → value.treatment = .remove →
      Value.valueUnder? entries (.str name) = some existing →
      Region.ofKey? name (Text.closeLine text) = some region →
      Outcome name value text (region.splice (Text.closeLine text) [])
  | appended (entries : List (Value × Value)) (addition : Text) :
      format.read (Text.closeLine text) = .ok (.map entries) →
      value.treatment = .replace ∨ value.treatment = .merge →
      Value.valueUnder? entries (.str name) = none →
      Render.entry format keep (.str name) value = .ok addition →
      Outcome name value text (append (Text.closeLine text) addition)
  /-- The key holds an equal value. -/
  | unchanged (entries : List (Value × Value)) (existing : Value) :
      format.read (Text.closeLine text) = .ok (.map entries) →
      value.treatment = .replace ∨ value.treatment = .merge →
      Value.valueUnder? entries (.str name) = some existing → Value.agrees existing value = true →
      Outcome name value text text
  | replaced (entries : List (Value × Value)) (existing : Value) (region : Region) (replacement : Text) :
      format.read (Text.closeLine text) = .ok (.map entries) →
      value.treatment = .replace ∨
        value.treatment = .merge ∧ (existing.treatment = .replace ∨ existing.treatment = .remove) →
      Value.valueUnder? entries (.str name) = some existing → Value.agrees existing value = false →
      Region.ofKey? name (Text.closeLine text) = some region →
      Render.entryKeepingKey format keep name value = .ok replacement →
      Outcome name value text (region.splice (Text.closeLine text) replacement)
  | merged (entries : List (Value × Value)) (existing : Value) (region : Region)
        (updates : List (Value × Value)) (block : Text) :
      format.read (Text.closeLine text) = .ok (.map entries) →
      value = .map updates → existing.treatment = .merge →
      Value.valueUnder? entries (.str name) = some existing → Value.agrees existing value = false →
      Region.ofKey? name (Text.closeLine text) = some region →
      (Margin.change name region.value (applyAll format keep updates)).result = .ok block →
      Outcome name value text (region.splice (Text.closeLine text) (name ++ ':' :: '\n' :: block))

theorem regionOf_eq_ok {name text : Text} {region : Region} (h : regionOf (.str name) text = .ok region) :
    Region.ofKey? name text = some region := by
  simp only [regionOf] at h
  split at h
  · next found hfound => cases h; exact hfound
  · cases h

theorem replaceValue_eq_ok {name text result : Text} {value : Value} {region : Region}
    (h : replaceValue format keep (.str name) value region text = .ok result) :
    ∃ replacement, Render.entryKeepingKey format keep name value = .ok replacement ∧
      result = region.splice text replacement := by
  simp only [replaceValue] at h
  cases hr : Render.entryKeepingKey format keep name value with
  | error e => rw [hr] at h; cases h
  | ok replacement => rw [hr] at h; cases h; exact ⟨replacement, rfl, rfl⟩

variable {format keep}

/-- An edit of one key that succeeds comes to one of the outcomes. -/
theorem outcome_of_apply {name text result : Text} {value : Value}
    (h : (apply format keep (.str name) value text).result = .ok result) :
    Outcome format keep name value text result := by
  rw [apply] at h
  obtain ⟨current, hread, h⟩ := Run.bind_eq_ok.mp h
  rw [Run.result_ofExcept] at hread
  split at h
  · -- the document holds no value
    split at h
    · next ht => cases h; exact .nothing (Or.inl hread) ht
    · next ht =>
      obtain ⟨-, -, h⟩ := Run.bind_eq_ok.mp h
      obtain ⟨addition, hadd, h⟩ := Run.bind_eq_ok.mp h
      cases h
      exact .filled addition hread ht hadd
  · next entries =>
    split at h
    · next ht hv => cases h; exact .nothing (Or.inr ⟨entries, hread, hv⟩) ht
    · next existing ht hv =>
      obtain ⟨-, -, h⟩ := Run.bind_eq_ok.mp h
      obtain ⟨region, hregion, h⟩ := Run.bind_eq_ok.mp h
      cases h
      exact .removed entries existing region hread ht hv (regionOf_eq_ok hregion)
    · cases h
    · next hv h1 h2 =>
      obtain ⟨-, -, h⟩ := Run.bind_eq_ok.mp h
      obtain ⟨addition, hadd, h⟩ := Run.bind_eq_ok.mp h
      cases h
      refine .appended entries addition hread ?_ hv hadd
      cases ht : value.treatment <;> simp_all
    · next existing hv h1 h2 =>
      have ht : value.treatment = .replace ∨ value.treatment = .merge := by
        cases ht : value.treatment <;> simp_all
      split at h
      · next hagree =>
        obtain ⟨-, -, h⟩ := Run.bind_eq_ok.mp h
        cases h
        exact .unchanged entries existing hread ht hv hagree
      · next hagree =>
        have hdiffers : Value.agrees existing value = false := by simpa using hagree
        obtain ⟨region, hregion, h⟩ := Run.bind_eq_ok.mp h
        have hlocated := regionOf_eq_ok hregion
        split at h
        · next hsimple =>
          obtain ⟨-, -, h⟩ := Run.bind_eq_ok.mp h
          obtain ⟨replacement, hrep, rfl⟩ := replaceValue_eq_ok format keep h
          refine .replaced entries existing region replacement hread ?_ hv hdiffers hlocated hrep
          rcases hsimple with hs | hs
          · exact Or.inl hs
          · rcases ht with ht | ht
            · exact Or.inl ht
            · exact Or.inr ⟨ht, hs⟩
        · split at h
          · next hmerge =>
            obtain ⟨updates, rfl⟩ : ∃ updates, value = .map updates := by
              cases value <;> first | exact ⟨_, rfl⟩ | cases h
            obtain ⟨-, -, h⟩ := Run.bind_eq_ok.mp h
            obtain ⟨block, hblock, h⟩ := Run.bind_eq_ok.mp h
            cases h
            exact .merged entries existing region updates block hread rfl hmerge hv hdiffers hlocated hblock
          · cases h
  · cases h

theorem regionOf_str {name text : Text} {region : Region} (h : Region.ofKey? name text = some region) :
    regionOf (.str name) text = .ok region := by
  simp only [regionOf, h]

theorem replaceValue_str {name text replacement : Text} {value : Value} {region : Region}
    (h : Render.entryKeepingKey format keep name value = .ok replacement) :
    replaceValue format keep (.str name) value region text = .ok (region.splice text replacement) := by
  simp only [replaceValue, h]
  rfl

/-- A key that the document lacks is added. -/
theorem apply_absent {key value : Value} {text addition : Text} {entries : List (Value × Value)}
    (hread : format.read (Text.closeLine text) = .ok (.map entries))
    (habsent : Value.valueUnder? entries key = none) (hset : value.treatment = .replace ∨ value.treatment = .merge)
    (hentry : Render.entry format keep key value = .ok addition) :
    (apply format keep key value text).result = .ok (append (Text.closeLine text) addition) := by
  have hadded : (do
      Run.note (.appending key.written)
      return append (Text.closeLine text) (← Run.ofExcept (Render.entry format keep key value)) : Run Text).result =
        .ok (append (Text.closeLine text) addition) :=
    Run.bind_eq_ok.mpr ⟨(), rfl, Run.bind_eq_ok.mpr ⟨addition, hentry, rfl⟩⟩
  rw [apply]
  refine Run.bind_eq_ok.mpr ⟨_, hread, ?_⟩
  rcases hset with hset | hset
  · simp only [hset, habsent]
    exact hadded
  · simp only [hset, habsent]
    exact hadded

/-- Every outcome is that of an edit. -/
theorem Outcome.apply_eq_ok {name text result : Text} {value : Value}
    (h : Outcome format keep name value text result) :
    (apply format keep (.str name) value text).result = .ok result := by
  cases h with
  | nothing absent ht =>
    rw [apply]
    rcases absent with hread | ⟨entries, hread, hv⟩
    · exact Run.bind_eq_ok.mpr ⟨_, hread, by simp only [ht]; rfl⟩
    · exact Run.bind_eq_ok.mpr ⟨_, hread, by simp only [ht, hv]; rfl⟩
  | filled addition hread ht hadd =>
    rw [apply]
    refine Run.bind_eq_ok.mpr ⟨_, hread, ?_⟩
    have hresult : (do
        Run.note (.fillingEmpty (Value.str name).written)
        return fillEmpty (Text.closeLine text)
          (← Run.ofExcept (Render.entry format keep (.str name) value)) : Run Text).result
          = .ok (fillEmpty (Text.closeLine text) addition) :=
      Run.bind_eq_ok.mpr ⟨(), rfl, Run.bind_eq_ok.mpr ⟨addition, hadd, rfl⟩⟩
    cases ht' : value.treatment <;> first | exact absurd ht' ht | exact hresult
  | removed entries existing region hread ht hv hlocated =>
    rw [apply]
    refine Run.bind_eq_ok.mpr ⟨_, hread, ?_⟩
    simp only [ht, hv]
    exact Run.bind_eq_ok.mpr ⟨(), rfl, Run.bind_eq_ok.mpr ⟨region, regionOf_str hlocated, rfl⟩⟩
  | appended entries addition hread ht hv hadd => exact apply_absent hread hv ht hadd
  | unchanged entries existing hread ht hv hagree =>
    rw [apply]
    refine Run.bind_eq_ok.mpr ⟨_, hread, ?_⟩
    rcases ht with ht | ht <;> simp only [ht, hv, hagree, if_true] <;>
      exact Run.bind_eq_ok.mpr ⟨(), rfl, rfl⟩
  | replaced entries existing region replacement hread ht hv hagree hlocated hrep =>
    rw [apply]
    refine Run.bind_eq_ok.mpr ⟨_, hread, ?_⟩
    rcases ht with ht | ⟨ht, hsimple⟩ <;> simp only [ht, hv, hagree, Bool.false_eq_true, if_false] <;>
      refine Run.bind_eq_ok.mpr ⟨region, regionOf_str hlocated, ?_⟩
    · rw [if_pos (Or.inl trivial)]
      exact Run.bind_eq_ok.mpr ⟨(), rfl, replaceValue_str hrep⟩
    · rw [if_pos (Or.inr hsimple)]
      exact Run.bind_eq_ok.mpr ⟨(), rfl, replaceValue_str hrep⟩
  | merged entries existing region updates block hread hvalue hmerge hv hagree hlocated hblock =>
    rw [apply]
    subst hvalue
    have ht : (Value.map updates).treatment = .merge := rfl
    refine Run.bind_eq_ok.mpr ⟨_, hread, ?_⟩
    simp only [ht, hv, hagree, Bool.false_eq_true, if_false]
    refine Run.bind_eq_ok.mpr ⟨region, regionOf_str hlocated, ?_⟩
    rw [if_neg (by simp [hmerge]), if_pos hmerge]
    exact Run.bind_eq_ok.mpr ⟨(), rfl, Run.bind_eq_ok.mpr ⟨block, hblock, rfl⟩⟩

/-- Updates succeed if the first does and the others do in the text that it left. -/
theorem applyAll_cons_eq_ok {key value : Value} {rest : List (Value × Value)} {text result : Text} :
    (applyAll format keep ((key, value) :: rest) text).result = .ok result ↔
      ∃ changed, (apply format keep key value text).result = .ok changed ∧
        (applyAll format keep rest changed).result = .ok result := by
  rw [applyAll_cons, Run.bind_eq_ok]

/-- Updates that change nothing one by one change nothing together. -/
theorem applyAll_same {text : Text} {updates : List (Value × Value)}
    (h : ∀ u ∈ updates, (apply format keep u.1 u.2 text).result = .ok text) :
    (applyAll format keep updates text).result = .ok text := by
  induction updates with
  | nil =>
    rw [applyAll_nil]
    rfl
  | cons u rest ih =>
    obtain ⟨hu, hrest⟩ := List.forall_mem_cons.mp h
    obtain ⟨key, value⟩ := u
    rw [applyAll_cons]
    exact Run.bind_eq_ok.mpr ⟨text, hu, ih hrest⟩

end Edit
end YamlSplice
