/-
  YamlSplice.Proofs.Edit.Paths — what a merge leaves at the end of a path of keys.

  A merge goes down into the mappings that both the document and the update have. On the way it compares what it meets
  with what is asked for, and stops where they agree. So a key is removed if the update has the absent value at the end
  of a path and nothing above it agrees; where something does, the key had the absent value, and keeps it.
  - `at?_of_agrees`: what agrees with an update has the absent value where the update has it.
  - `Becomes`: what a merge makes of the value under one key.
  - `Becomes.at?`: what is then found along a path.
-/

import YamlSplice.Proofs.Edit.Sections

namespace YamlSplice

namespace Value

/-- The value at the end of a path of keys, through mappings. -/
def at? : Value → List Text → Option Value
  | value, [] => some value
  | map entries, key :: path => (valueUnder? entries (.str key)).bind fun value => at? value path
  | _, _ :: _ => none

theorem at?_cons_eq_some {value found : Value} {key : Text} {path : List Text} :
    value.at? (key :: path) = some found ↔ ∃ entries inner, value = .map entries ∧
      valueUnder? entries (.str key) = some inner ∧ inner.at? path = some found := by
  cases value with
  | map entries => simp [at?, Option.bind_eq_some_iff]
  | _ => simp [at?]

theorem at?_map {entries : List (Value × Value)} {key : Text} {path : List Text} {inner : Value}
    (h : valueUnder? entries (.str key) = some inner) : (map entries).at? (key :: path) = inner.at? path := by
  rw [at?, h, Option.bind_some]

theorem eq_null_of_agrees {value : Value} (h : agrees value .null = true) : value = .null := by
  cases value with
  | null => rfl
  | back shape => cases shape <;> cases h
  | _ => cases h

theorem eq_map_of_agrees {value : Value} {entries : List (Value × Value)} (h : agrees value (.map entries) = true) :
    ∃ current, value = .map current := by
  cases value with
  | map current => exact ⟨current, rfl⟩
  | _ => cases h

theorem eq_null_of_treatment {value : Value} (h : value.treatment = .remove) : value = .null := by
  cases value with
  | null => rfl
  | back shape => cases shape <;> cases h
  | _ => cases h

end Value

namespace Edit

open Value

/-- What an update may ask for: to remove a key, a simple value, or at each of some keys the like. -/
inductive Desired : Value → Prop where
  | remove : Desired .null
  | simple {value : Value} : value.treatment = .replace → Desired value
  | merge {updates : List (Text × Value)} : (∀ u ∈ updates, Desired u.2) → Desired (.map (named updates))

theorem Desired.of_mem {entries : List (Value × Value)} (h : Desired (.map entries)) {e : Value × Value}
    (he : e ∈ entries) : Desired e.2 := by
  cases h with
  | simple ht => cases ht
  | merge hall =>
    obtain ⟨u, hu, rfl⟩ := List.mem_map.mp he
    exact hall u hu

/-- What is asked for below a key. -/
theorem Desired.inner {entries : List (Value × Value)} (h : Desired (.map entries)) {name : Text} {value : Value}
    (hfound : valueUnder? entries (.str name) = some value) : Desired value := by
  obtain ⟨e, he, -, rfl⟩ := mem_of_valueUnder? hfound
  exact h.of_mem he

theorem Desired.eq_named {value : Value} (h : Desired value) (ht : value.treatment = .merge) :
    ∃ updates, value = .map (named updates) := by
  cases h with
  | remove => cases ht
  | simple hsimple => rw [ht] at hsimple; cases hsimple
  | merge => exact ⟨_, rfl⟩

theorem Desired.kind {value : Value} (h : Desired value) : value.treatment ≠ .refuse := by
  cases h with
  | remove => simp [Value.treatment]
  | simple ht => simp [ht]
  | merge => simp [Value.treatment]

theorem named_injective {updates others : List (Text × Value)} (h : named updates = named others) : updates = others :=
  List.map_injective_iff.mpr (fun a b hsame => by simpa [Prod.ext_iff] using hsame) h

theorem mem_of_valueUnder?_named {updates : List (Text × Value)} {name : Text} {value : Value}
    (h : valueUnder? (named updates) (.str name) = some value) : (name, value) ∈ updates := by
  obtain ⟨e, he, hcalled, hvalue⟩ := mem_of_valueUnder? h
  obtain ⟨u, hu, rfl⟩ := List.mem_map.mp he
  obtain rfl : u.1 = name := isCalled_str_iff.mp hcalled
  rw [← hvalue]
  exact hu

/-- What agrees with an update has the absent value wherever the update has it. -/
theorem at?_of_agrees {value desired : Value} (hdesired : Desired desired) (h : agrees value desired = true)
    {path : List Text} (hpath : desired.at? path = some .null) : value.at? path = some .null := by
  induction path generalizing value desired with
  | nil =>
    obtain rfl : desired = .null := Option.some.inj hpath
    rw [eq_null_of_agrees h]
    rfl
  | cons key path ih =>
    obtain ⟨entries, inner, rfl, hinner, hrest⟩ := at?_cons_eq_some.mp hpath
    have hbelow := hdesired.inner hinner
    cases hdesired with
    | simple ht => cases ht
    | @merge updates _ =>
      cases value with
      | map current =>
        simp only [agrees, Bool.and_eq_true] at h
        obtain ⟨found, hfound, hagrees⟩ := agreesEntries_iff.mp h.2 _ (List.mem_map_of_mem (mem_of_valueUnder?_named hinner))
        rw [at?_map hfound]
        exact ih hbelow hagrees hrest
      | _ => cases h

/-! ## Above the end of a path -/

/-- Somewhere above the end of the path, the value agrees with the update. -/
def AgreesAbove (value desired : Value) (path : List Text) : Prop :=
  ∃ front back found asked, path = front ++ back ∧ back ≠ [] ∧ value.at? front = some found ∧
    desired.at? front = some asked ∧ agrees found asked = true

theorem agreesAbove_of_agrees {value desired : Value} {path : List Text} (h : agrees value desired = true)
    (hne : path ≠ []) : AgreesAbove value desired path := ⟨[], path, value, desired, rfl, hne, rfl, rfl, h⟩

/-- Mappings that differ agree above the end of a path if what is below its first key does. -/
theorem agreesAbove_cons_iff {current updates : List (Value × Value)} {key : Text} {path : List Text} {found asked : Value}
    (hdiffers : agrees (.map current) (.map updates) = false) (hfound : valueUnder? current (.str key) = some found)
    (hasked : valueUnder? updates (.str key) = some asked) :
    AgreesAbove (.map current) (.map updates) (key :: path) ↔ AgreesAbove found asked path := by
  constructor
  · rintro ⟨front, back, value, desired, hpath, hne, hvalue, hdesired, hagrees⟩
    cases front with
    | nil =>
      cases hvalue
      cases hdesired
      rw [hdiffers] at hagrees
      cases hagrees
    | cons first front =>
      obtain ⟨rfl, rfl⟩ := List.cons.inj hpath
      rw [at?_map hfound] at hvalue
      rw [at?_map hasked] at hdesired
      exact ⟨front, back, value, desired, rfl, hne, hvalue, hdesired, hagrees⟩
  · rintro ⟨front, back, value, desired, rfl, hne, hvalue, hdesired, hagrees⟩
    exact ⟨key :: front, back, value, desired, rfl, hne, by rw [at?_map hfound, hvalue], by rw [at?_map hasked, hdesired],
      hagrees⟩

/-- Nothing is above the end of a path of one key but the mapping itself. -/
theorem not_agreesAbove_singleton {value desired : Value} {key : Text} (hdiffers : agrees value desired = false) :
    ¬ AgreesAbove value desired [key] := by
  rintro ⟨front, back, found, asked, hpath, hne, hfound, hasked, hagrees⟩
  cases front with
  | nil =>
    cases hfound
    cases hasked
    rw [hdiffers] at hagrees
    cases hagrees
  | cons first front =>
    obtain ⟨-, hnil⟩ := List.cons.inj hpath
    exact hne (List.append_eq_nil_iff.mp hnil.symm).2

/-! ## The value under a key -/

/-- What a merge makes of the value under a key: it removes it, writes a new one, or goes down into the mapping that is
    there, unless this agrees with what is asked for. -/
inductive Becomes : Value → Option Value → Option Value → Prop where
  | removed (before : Option Value) : Becomes .null before none
  | written {desired found : Value} {before : Option Value} : desired ≠ .null →
      (∀ entries, before = some (.map entries) → desired.treatment ≠ .merge) → agrees found desired = true →
      Becomes desired before (some found)
  | kept {current : List (Value × Value)} {updates : List (Text × Value)} :
      agrees (.map current) (.map (named updates)) = true →
      Becomes (.map (named updates)) (some (.map current)) (some (.map current))
  | merged {current merged : List (Value × Value)} {updates : List (Text × Value)} :
      agrees (.map current) (.map (named updates)) = false →
      (∀ u ∈ updates, Becomes u.2 (valueUnder? current (.str u.1)) (valueUnder? merged (.str u.1))) →
      Becomes (.map (named updates)) (some (.map current)) (some (.map merged))

theorem Becomes.eq_none {before after : Option Value} (h : Becomes .null before after) : after = none := by
  cases h with
  | removed => rfl
  | written hset => exact absurd rfl hset

/-- What a merge leaves at the end of a path where the update has the absent value, if mappings lead there: nothing,
    or the absent value where something above agreed with the update. -/
theorem Becomes.at? {desired : Value} {before after : Option Value} (h : Becomes desired before after)
    (hdesired : Desired desired) {value : Value} {key : Text} {path : List Text} {parent : List (Value × Value)}
    (hbefore : before = some value) (hpath : desired.at? (key :: path) = some .null)
    (hparent : value.at? (key :: path).dropLast = some (.map parent)) :
    (¬ AgreesAbove value desired (key :: path) → (after.bind fun changed => changed.at? (key :: path)) = none) ∧
    (AgreesAbove value desired (key :: path) → (after.bind fun changed => changed.at? (key :: path)) = some .null) := by
  induction h generalizing value key path with
  | removed => cases hpath
  | written _ hmap _ =>
    -- a path through the value and the update is a path through two mappings
    obtain ⟨entries, -, rfl, -⟩ := at?_cons_eq_some.mp hpath
    obtain ⟨current, rfl⟩ : ∃ current, value = .map current := by
      cases path with
      | nil => exact ⟨parent, Option.some.inj hparent⟩
      | cons next path =>
        obtain ⟨current, -, rfl, -⟩ := at?_cons_eq_some.mp hparent
        exact ⟨current, rfl⟩
    exact absurd rfl (hmap current hbefore)
  | kept hagrees =>
    cases hbefore
    have habove := agreesAbove_of_agrees hagrees (List.cons_ne_nil key path)
    exact ⟨fun hnot => absurd habove hnot, fun _ => at?_of_agrees hdesired hagrees hpath⟩
  | @merged current merged updates hdiffers hinner ih =>
    cases hbefore
    obtain ⟨_, asked, ⟨⟩, hasked, hrest⟩ := at?_cons_eq_some.mp hpath
    have hmem := mem_of_valueUnder?_named hasked
    simp only [Option.bind_some, Value.at?]
    cases path with
    | nil =>
      obtain rfl : asked = .null := Option.some.inj hrest
      have hgone : valueUnder? merged (.str key) = none := (hinner _ hmem).eq_none
      rw [hgone]
      exact ⟨fun _ => rfl, fun habove => absurd habove (not_agreesAbove_singleton hdiffers)⟩
    | cons next path =>
      -- the path goes on below a key of both mappings
      rw [List.dropLast_cons_of_ne_nil (List.cons_ne_nil _ _)] at hparent
      obtain ⟨_, found, ⟨⟩, hfound, hparent⟩ := at?_cons_eq_some.mp hparent
      rw [agreesAbove_cons_iff hdiffers hfound hasked]
      exact ih _ hmem (hdesired.inner hasked) hfound hrest hparent

end Edit
end YamlSplice
