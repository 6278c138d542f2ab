/-
  YamlSplice.Proofs.Stream.NewKey — the document that a new key is added to.

  A key that no document holds is added to every document that holds a value, or to one place. That place is the first
  document, or the second if the first is blank; whether these hold a value is not asked. So the key goes to the first
  document with a value if nothing stands in front of it but a blank beginning, and otherwise to a document without value
  in front of it.
  - `placeForNew?_leads` / `placeForNew?_lt_of_not_leads`: where the place is.
  - `Edited.one`: an update that is made in one document.
  - `turned_of_edited`: an update that is made in all documents that hold a value.
  - `applyToStream_at_place`: a key is added at the place for new keys.
  - `applyToStream_new_key`: what a new key leaves of a stream.
  - `new_key_in_empty_document`: it may go to a document without value.
-/

import YamlSplice.Proofs.Stream.Every

namespace YamlSplice.Edit

variable {format : Format} {settings : Settings} {keep : Bool} {key value : Value} {front back : List Document}
  {d : Document}

/-! ## The place for new keys -/

/-- In front of the document there is nothing but a blank beginning. -/
def Leads (front : List Document) (d : Document) : Prop :=
  front = [] ∧ Text.hasContent d.body = true ∨ ∃ first, front = [first] ∧ Text.hasContent first.body = false

theorem placeForNew?_leads (h : Leads front d) (back : List Document) :
    (Stream.placeForNew? (front ++ d :: back)).getD 0 = front.length := by
  rcases h with ⟨rfl, hcontent⟩ | ⟨first, rfl, hblank⟩
  · cases back with
    | nil => rfl
    | cons next back => simp [Stream.placeForNew?, hcontent]
  · simp [Stream.placeForNew?, hblank]

theorem placeForNew?_lt_of_not_leads (hne : front ≠ []) (h : ¬ Leads front d) (back : List Document) :
    (Stream.placeForNew? (front ++ d :: back)).getD 0 < front.length := by
  cases front with
  | nil => exact absurd rfl hne
  | cons first rest =>
    cases rest with
    | nil =>
      have hcontent : Text.hasContent first.body = true := by
        by_contra hblank
        exact h (Or.inr ⟨first, rfl, by simpa using hblank⟩)
      simp [Stream.placeForNew?, hcontent]
    | cons next rest =>
      simp only [List.cons_append, Stream.placeForNew?, Option.getD_some, List.length_cons]
      split <;> omega

/-! ## One turn -/

/-- An update that is made in one document leaves those in front of it and behind it. -/
theorem Edited.one {after : List Document} (h : Edited format keep key value [front.length] (front ++ d :: back) after) :
    ∃ body, (apply format keep key value d.body).result = .ok body ∧ after = front ++ { d with body } :: back := by
  obtain ⟨e, body, he, hbody, hafter⟩ := h.goal front.length List.mem_cons_self
  rw [List.getElem?_append_right (Nat.le_refl _), Nat.sub_self] at he
  cases he
  refine ⟨body, hbody, ?_⟩
  have hset : (front ++ d :: back).set front.length { d with body } = front ++ { d with body } :: back := by simp
  rw [← hset]
  refine List.ext_getElem? fun i => ?_
  by_cases hi : i = front.length
  · rw [hi, hafter, List.getElem?_set_self (by simp)]
  · rw [h.other i (by simpa using hi), List.getElem?_set_ne (Ne.symm hi)]

theorem Edited.in_front {place : Nat} {after : List Document} (hinside : place < front.length)
    (h : Edited format keep key value [place] (front ++ back) after) : ∃ above e below body, front = above ++ e :: below ∧
      (apply format keep key value e.body).result = .ok body ∧ after = above ++ { e with body } :: (below ++ back) := by
  obtain ⟨above, below, hfront, hlength, -⟩ := @List.exists_of_set _ place front[place] front hinside
  generalize front[place] = e at hfront
  subst hfront hlength
  rw [List.append_assoc, List.cons_append] at h
  obtain ⟨body, hbody, hafter⟩ := h.one
  exact ⟨above, e, below, body, rfl, hbody, hafter⟩

/-- An update that is made in all documents that hold a value leaves the others. -/
theorem turned_of_edited {before after : List Document} {goals : List Nat}
    (hread : ∀ e ∈ before, ∃ current, format.read e.body = .ok current) (hset : value ≠ .null)
    (hgoals : ∀ i, i ∈ goals ↔ ∃ e, before[i]? = some e ∧ Filled format e)
    (h : Edited format keep key value goals before after) : List.Forall₂ (Turned format keep key value) before after := by
  rw [List.forall₂_iff_get]
  refine ⟨h.length.symm, ?_⟩
  intro i hbefore hafter
  have hold : before[i]? = some (before.get ⟨i, hbefore⟩) := List.getElem?_eq_getElem hbefore
  have hnew : after[i]? = some (after.get ⟨i, hafter⟩) := List.getElem?_eq_getElem hafter
  by_cases hi : i ∈ goals
  · obtain ⟨e, body, he, hbody, hchanged⟩ := h.goal i hi
    obtain ⟨other, hother, hfilled⟩ := (hgoals i).mp hi
    cases hold.symm.trans he
    cases hold.symm.trans hother
    rw [Option.some.inj (hnew.symm.trans hchanged)]
    exact .made body hfilled hbody
  · -- the document holds no value, or it would be one of those to update
    have hsame : after.get ⟨i, hafter⟩ = before.get ⟨i, hbefore⟩ := by
      have hkept := h.other i hi
      rw [hnew, hold] at hkept
      exact Option.some.inj hkept
    rw [hsame]
    refine .passed ?_ fun hnull => absurd hnull hset
    obtain ⟨current, hcurrent⟩ := hread _ (List.get_mem before ⟨i, hbefore⟩)
    by_cases hnull : current = .null
    · rw [hcurrent, hnull]
    · exact absurd ((hgoals i).mpr ⟨_, hold, current, hcurrent, hnull⟩) hi

/-! ## A stream -/

/-- A key that no document holds is added at the place for new keys. -/
theorem applyToStream_at_place (hone : settings.everyDocument = false) {text body : Text}
    (hsplit : Stream.split text = front ++ d :: back) (hlacks : ∀ e ∈ Stream.split text, Lacks format key e)
    (hplace : (Stream.placeForNew? (Stream.split text)).getD 0 = front.length)
    (hbody : (apply format settings.keepIndent key value d.body).result = .ok body) :
    (applyToStream format settings [(key, value)] text).result = .ok (Stream.join (front ++ { d with body } :: back)) := by
  have hnone : holder? format key 0 (Stream.split text) = .ok none := by
    have hpassed := holder?_append hlacks [] 0
    rwa [List.append_nil] at hpassed
  have htargets : targets format settings key front.length (Stream.split text) = .ok [front.length] := by
    rw [targets, if_neg (by simp [hone]), hnone]
    rfl
  have hthere : (Stream.split text)[front.length]? = some d := by simp [hsplit]
  have heach : (applyEach format settings key value [front.length] (Stream.split text)).result =
      .ok (front ++ { d with body } :: back) :=
    applyEach_cons_eq_ok.mpr ⟨_, (applyAt_eq_ok hthere).mpr ⟨body, hbody, rfl⟩, by simp [applyEach, hsplit]⟩
  rw [applyToStream_eq_ok, hplace]
  exact ⟨_, applyInTurn_cons_eq_ok.mpr ⟨_, _, htargets, heach, rfl⟩, rfl⟩

/-- A key that no document of a stream holds is set. The documents stay as many as they were, each with its separator.
    Made in every document, the update leaves each that is read as no value, and is made in each other one. Otherwise it
    is made in one document, and the others stay. This is the first that holds a value, if it is the first document of
    all or only a blank beginning stands in front of it; if not, it is a document in front that holds none. -/
theorem applyToStream_new_key (hformat : format.EndsLines) {text result : Text}
    (hsplit : Stream.split text = front ++ d :: back) (hfront : ∀ e ∈ front, format.read e.body = .ok .null)
    (hd : Filled format d) (hback : ∀ e ∈ back, ∃ current, format.read e.body = .ok current)
    (hnew : ∀ e ∈ Stream.split text, ¬ Holds format key e) (hset : value ≠ .null)
    (h : (applyToStream format settings [(key, value)] text).result = .ok result) :
    ∃ goals documents, StreamEdit format settings [(key, value)] text goals documents ∧ result = Stream.join documents ∧
      (settings.everyDocument = true →
        List.Forall₂ (Turned format settings.keepIndent key value) (Stream.split text) documents) ∧
      (settings.everyDocument = false →
        (Leads front d → ∃ body, (apply format settings.keepIndent key value d.body).result = .ok body ∧
          documents = front ++ { d with body } :: back) ∧
        (front ≠ [] → ¬ Leads front d → ∃ above e below body, front = above ++ e :: below ∧
          (apply format settings.keepIndent key value e.body).result = .ok body ∧
          documents = above ++ { e with body } :: (below ++ d :: back))) := by
  obtain ⟨documents, hdocuments, rfl⟩ := applyToStream_eq_ok.mp h
  obtain ⟨goals, hturns⟩ := turns_of_applyInTurn (placeForNew?_lt (Stream.split_ne_nil text)) hdocuments
  refine ⟨goals, documents, streamEdit_of_turns hformat hturns, rfl, ?_⟩
  cases hturns with
  | turn hgoals hedited hlater =>
    cases hlater
    constructor
    · intro hevery
      have hread : ∀ e ∈ Stream.split text, ∃ current, format.read e.body = .ok current := by
        obtain ⟨current, hcurrent, -⟩ := hd
        rw [hsplit]
        exact List.forall_mem_append.mpr ⟨fun e he => ⟨_, hfront e he⟩, List.forall_mem_cons.mpr ⟨⟨_, hcurrent⟩, hback⟩⟩
      cases hgoals with
      | holder _ _ _ hone | newKey hone => cases hone.symm.trans hevery
      | filled _ _ _ _ hmem => exact turned_of_edited hread hset hmem hedited
      | noneFilled _ hnone => exact absurd hd (hnone d (by simp [hsplit]))
    · intro hone
      -- no document holds the key, so it is the place for new keys that the update is made in
      have hplaced : Edited format settings.keepIndent key value [(Stream.placeForNew? (front ++ d :: back)).getD 0]
          (front ++ d :: back) documents := by
        rw [← hsplit]
        cases hgoals with
        | holder above e below _ hparts he => exact absurd he (hnew e (by simp [hparts]))
        | newKey => exact hedited
        | filled _ hevery | noneFilled hevery => cases hone.symm.trans hevery
      constructor
      · intro hleads
        rw [placeForNew?_leads hleads] at hplaced
        exact hplaced.one
      · intro hne hbehind
        have hinside := placeForNew?_lt_of_not_leads hne hbehind back
        exact hplaced.in_front hinside

theorem read_nothing : Format.yaml.read [] = .ok .null := by cbv

theorem read_one_row : Format.yaml.read "a: 1\n".toList = .ok (.map [(.str ['a'], .int 1)]) := by cbv

/-- The key goes to the second of three documents; there is nothing in the others. -/
theorem applyToStream_new_key_second :
    (applyToStream Format.yaml {} [(.str "b".toList, .int 2)] "---\na: 1\n---\n".toList).result =
      .ok "---\na: 1\nb: 2\n---\n".toList ∧
    ∃ goals documents, StreamEdit Format.yaml {} [(.str "b".toList, .int 2)] "---\na: 1\n---\n".toList goals documents ∧
      "---\na: 1\nb: 2\n---\n".toList = Stream.join documents ∧
      ∃ body, (apply Format.yaml false (.str "b".toList) (.int 2) "a: 1\n".toList).result = .ok body ∧
        documents = [⟨[], []⟩] ++ ⟨"---\n".toList, body⟩ :: [⟨"---\n".toList, []⟩] := by
  have hsplit : Stream.split "---\na: 1\n---\n".toList =
      [⟨[], []⟩] ++ ⟨"---\n".toList, "a: 1\n".toList⟩ :: [⟨"---\n".toList, []⟩] := by decide
  have hclosed : Text.closeLine "a: 1\n".toList = "a: 1\n".toList := rfl
  have hread : Format.yaml.read (Text.closeLine "a: 1\n".toList) = .ok (.map [(.str ['a'], .int 1)]) := by
    rw [hclosed, read_one_row]
  have habsent : Value.valueUnder? [(.str ['a'], .int 1)] (.str ['b']) = none := by cbv
  have hentry : Render.entry Format.yaml false (.str ['b']) (.int 2) = .ok "b: 2\n".toList := rfl
  have hbody : (apply Format.yaml false (.str ['b']) (.int 2) "a: 1\n".toList).result = .ok "a: 1\nb: 2\n".toList :=
    apply_absent hread habsent (Or.inl rfl) hentry
  have hlacks : ∀ e ∈ Stream.split "---\na: 1\n---\n".toList, Lacks Format.yaml (.str ['b']) e := by
    rw [hsplit]
    simpa using ⟨lacks_of_null _ read_nothing, lacks_of_absent read_one_row habsent, lacks_of_null _ read_nothing⟩
  have hplace : (Stream.placeForNew? (Stream.split "---\na: 1\n---\n".toList)).getD 0 = 1 := by
    rw [hsplit]
    rfl
  have hadded : (applyToStream Format.yaml {} [(.str "b".toList, .int 2)] "---\na: 1\n---\n".toList).result =
      .ok (Stream.join ([⟨[], []⟩] ++ ⟨"---\n".toList, "a: 1\nb: 2\n".toList⟩ :: [⟨"---\n".toList, []⟩])) :=
    applyToStream_at_place rfl hsplit hlacks hplace hbody
  have hresult : (applyToStream Format.yaml {} [(.str "b".toList, .int 2)] "---\na: 1\n---\n".toList).result =
      .ok "---\na: 1\nb: 2\n---\n".toList := hadded.trans rfl
  have hfront : ∀ e ∈ [(⟨[], []⟩ : Document)], Format.yaml.read e.body = .ok .null := by simpa using read_nothing
  have hback : ∀ e ∈ [(⟨"---\n".toList, []⟩ : Document)], ∃ current, Format.yaml.read e.body = .ok current := by
    simpa using ⟨_, read_nothing⟩
  have hfilled : Filled Format.yaml ⟨"---\n".toList, "a: 1\n".toList⟩ := ⟨_, read_one_row, Value.noConfusion⟩
  obtain ⟨goals, documents, hedit, hjoin, -, hone⟩ := applyToStream_new_key Format.yaml_endsLines hsplit hfront hfilled
    hback (fun e he => (hlacks e he).2) Value.noConfusion hresult
  exact ⟨hresult, goals, documents, hedit, hjoin, (hone rfl).1 (Or.inr ⟨_, rfl, rfl⟩)⟩

/-! ## Exceptions -/

/-- The key goes to an empty document behind the beginning, or below the comment in front of the first separator, and not
    to the document that holds a value. -/
theorem new_key_in_empty_document :
    (Stream.split "---\n---\na: 1\n".toList = [⟨[], []⟩, ⟨"---\n".toList, []⟩, ⟨"---\n".toList, "a: 1\n".toList⟩] ∧
      Format.yaml.read [] = .ok .null ∧
      Format.yaml.read "a: 1\n".toList = .ok (.map [(.str ['a'], .int 1)]) ∧
      (applyToStream Format.yaml {} [(.str "k".toList, .int 1)] "---\n---\na: 1\n".toList).result =
        .ok "---\nk: 1\n---\na: 1\n".toList) ∧
    Stream.split "# c\n---\na: 1\n".toList = [⟨[], "# c\n".toList⟩, ⟨"---\n".toList, "a: 1\n".toList⟩] ∧
    Format.yaml.read "# c\n".toList = .ok .null ∧
    (applyToStream Format.yaml {} [(.str "k".toList, .int 1)] "# c\n---\na: 1\n".toList).result =
      .ok "# c\nk: 1\n---\na: 1\n".toList := by
  have habsent : Value.valueUnder? [(.str ['a'], .int 1)] (.str ['k']) = none := by cbv
  have hentry : Render.entry Format.yaml false (.str ['k']) (.int 1) = .ok "k: 1\n".toList := rfl
  constructor
  · have hsplit : Stream.split "---\n---\na: 1\n".toList =
        [⟨[], []⟩] ++ ⟨"---\n".toList, []⟩ :: [⟨"---\n".toList, "a: 1\n".toList⟩] := by decide
    have hlacks : ∀ e ∈ Stream.split "---\n---\na: 1\n".toList, Lacks Format.yaml (.str ['k']) e := by
      rw [hsplit]
      simpa using ⟨lacks_of_null _ read_nothing, lacks_of_null _ read_nothing, lacks_of_absent read_one_row habsent⟩
    have hline : Format.yaml.read (Text.closeLine []) = .ok .null := by cbv
    have hfilled : (apply Format.yaml false (.str ['k']) (.int 1) []).result = .ok "k: 1\n".toList :=
      (Outcome.filled _ hline Treatment.noConfusion hentry).apply_eq_ok
    have hplace : (Stream.placeForNew? (Stream.split "---\n---\na: 1\n".toList)).getD 0 = 1 := by
      rw [hsplit]
      rfl
    have hadded : (applyToStream Format.yaml {} [(.str "k".toList, .int 1)] "---\n---\na: 1\n".toList).result =
        .ok (Stream.join ([⟨[], []⟩] ++ ⟨"---\n".toList, "k: 1\n".toList⟩ :: [⟨"---\n".toList, "a: 1\n".toList⟩])) :=
      applyToStream_at_place rfl hsplit hlacks hplace hfilled
    exact ⟨hsplit, read_nothing, read_one_row, hadded.trans rfl⟩
  · have hsplit : Stream.split "# c\n---\na: 1\n".toList =
        [] ++ ⟨[], "# c\n".toList⟩ :: [⟨"---\n".toList, "a: 1\n".toList⟩] := by decide
    have hcomment : Format.yaml.read (Text.closeLine "# c\n".toList) = .ok .null := by cbv
    have hlacks : ∀ e ∈ Stream.split "# c\n---\na: 1\n".toList, Lacks Format.yaml (.str ['k']) e := by
      rw [hsplit]
      simpa using ⟨lacks_of_null _ hcomment, lacks_of_absent read_one_row habsent⟩
    have hfilled : (apply Format.yaml false (.str ['k']) (.int 1) "# c\n".toList).result = .ok "# c\nk: 1\n".toList :=
      (Outcome.filled _ hcomment Treatment.noConfusion hentry).apply_eq_ok
    have hplace : (Stream.placeForNew? (Stream.split "# c\n---\na: 1\n".toList)).getD 0 = 0 := by
      rw [hsplit]
      rfl
    have hadded : (applyToStream Format.yaml {} [(.str "k".toList, .int 1)] "# c\n---\na: 1\n".toList).result =
        .ok (Stream.join ([] ++ ⟨[], "# c\nk: 1\n".toList⟩ :: [⟨"---\n".toList, "a: 1\n".toList⟩])) :=
      applyToStream_at_place rfl hsplit hlacks hplace hfilled
    exact ⟨hsplit, hcomment, hadded.trans rfl⟩

end YamlSplice.Edit
