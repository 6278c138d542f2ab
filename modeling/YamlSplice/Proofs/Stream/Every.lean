/-
  YamlSplice.Proofs.Stream.Every — updates of every document.

  With the choice for every document the updates take turns, and in each turn the documents that hold a value are
  found anew. A document that an update has emptied is passed over from then on, unless there is no other. As long as
  that makes no difference, each document comes to what the updates make of it alone.
  - `edited_of_turned`: one turn, if every document that it passes over is one that it would leave as it is.
  - `applyInTurn_every`: all turns, where documents hold a value whenever something is set.
  - `applyToStream_every`: the stream is joined from what the updates make of each document.
-/

import YamlSplice.Proofs.Stream.Single
import Mathlib.Data.List.Forall2

namespace YamlSplice.Edit

open Text (IsClosed)

variable {format : Format} {settings : Settings} {keep : Bool} {key value : Value}

/-! ## Readings that succeed -/

/-- Removing a key from a document without value leaves it. -/
theorem apply_remove_of_null {text : Text} (h : format.read (Text.closeLine text) = .ok .null) :
    (apply format keep key .null text).result = .ok text := by
  rw [apply]
  exact Run.bind_eq_ok.mpr ⟨_, h, rfl⟩

/-- A document can be read if an edit of it succeeds. -/
theorem read_of_apply {text result : Text} (h : (apply format keep key value text).result = .ok result) :
    ∃ current, format.read (Text.closeLine text) = .ok current := by
  rw [apply] at h
  obtain ⟨current, hread, -⟩ := Run.bind_eq_ok.mp h
  exact ⟨current, hread⟩

/-- The documents that hold anything are found if all can be read. -/
theorem exists_filledFrom {documents : List Document} (h : ∀ d ∈ documents, ∃ current, format.read d.body = .ok current)
    (offset : Nat) : ∃ found, filledFrom format offset documents = .ok found := by
  induction documents generalizing offset with
  | nil => exact ⟨[], rfl⟩
  | cons first later ih =>
    obtain ⟨⟨current, hread⟩, hlater⟩ := List.forall_mem_cons.mp h
    obtain ⟨found, hfound⟩ := ih hlater (offset + 1)
    by_cases hnull : current = .null
    · subst hnull
      exact ⟨found, by rw [filledFrom, hread]; exact hfound⟩
    · refine ⟨offset :: found, ?_⟩
      rw [filledFrom, hread]
      cases current with
      | null => exact absurd rfl hnull
      | _ => exact Except.bind_eq_ok.mpr ⟨_, rfl, Except.bind_eq_ok.mpr ⟨found, hfound, rfl⟩⟩

theorem exists_targets (hevery : settings.everyDocument = true) {place : Nat} {documents : List Document}
    (h : ∀ d ∈ documents, ∃ current, format.read d.body = .ok current) :
    ∃ goals, targets format settings key place documents = .ok goals := by
  obtain ⟨found, hfound⟩ := exists_filledFrom h 0
  unfold targets
  rw [if_pos hevery, hfound]
  cases found with
  | nil => exact ⟨[place], rfl⟩
  | cons i found => exact ⟨i :: found, rfl⟩

/-- The edits of one turn succeed if they do one by one. -/
theorem applyEach_of_edited {goals : List Nat} {before after : List Document} (hnodup : goals.Nodup)
    (h : Edited format settings.keepIndent key value goals before after) :
    (applyEach format settings key value goals before).result = .ok after := by
  induction goals generalizing before with
  | nil =>
    obtain rfl : after = before := List.ext_getElem? fun i => h.other i List.not_mem_nil
    rfl
  | cons i rest ih =>
    obtain ⟨hi, hrest⟩ := List.nodup_cons.mp hnodup
    obtain ⟨⟨d, body, hd, hbody, hafter⟩, hgoals⟩ := List.forall_mem_cons.mp h.goal
    have hinside : i < before.length := (List.getElem?_eq_some_iff.mp hd).1
    refine applyEach_cons_eq_ok.mpr ⟨_, (applyAt_eq_ok hd).mpr ⟨body, hbody, rfl⟩, ih hrest ⟨?_, fun j hj => ?_, fun j hj => ?_⟩⟩
    · rw [h.length, List.length_set]
    · have hne : i ≠ j := fun h => hi (h ▸ hj)
      rw [List.getElem?_set_ne hne]
      exact hgoals j hj
    · by_cases hne : i = j
      · subst hne
        rw [List.getElem?_set_self hinside, hafter]
      · rw [List.getElem?_set_ne hne]
        exact h.other j (by simpa [Ne.symm hne] using hj)

/-! ## One turn of all documents -/

/-- A document in one turn: if it is read as a value the update is made in it, and if it is read as none it stays, which
    for the removal of a key is what the update makes of it. -/
inductive Turned (format : Format) (keep : Bool) (key value : Value) (d : Document) : Document → Prop where
  | made (body : Text) : Filled format d → (apply format keep key value d.body).result = .ok body →
      Turned format keep key value d { d with body }
  | passed : format.read d.body = .ok .null →
      (value = .null → (apply format keep key value d.body).result = .ok d.body) → Turned format keep key value d d

theorem Turned.read {d e : Document} (h : Turned format keep key value d e) : ∃ current, format.read d.body = .ok current := by
  cases h with
  | made _ hfilled _ =>
    obtain ⟨current, hread, -⟩ := hfilled
    exact ⟨current, hread⟩
  | passed hread _ => exact ⟨.null, hread⟩

theorem Turned.of_filled {d e : Document} (h : Turned format keep key value d e) (hfilled : Filled format d) :
    ∃ body, (apply format keep key value d.body).result = .ok body ∧ e = { d with body } := by
  cases h with
  | made body _ hbody => exact ⟨body, hbody, rfl⟩
  | passed hnull _ =>
    obtain ⟨current, hread, hne⟩ := hfilled
    cases hnull.symm.trans hread
    exact absurd rfl hne

theorem Turned.of_not_filled {d e : Document} (h : Turned format keep key value d e) (hfilled : ¬ Filled format d) :
    e = d ∧ (value = .null → (apply format keep key value d.body).result = .ok d.body) := by
  cases h with
  | made _ hd _ => exact absurd hd hfilled
  | passed _ hnull => exact ⟨rfl, hnull⟩

theorem getElem?_of_forall₂ {R : Document → Document → Prop} {before after : List Document}
    (h : List.Forall₂ R before after) {i : Nat} {d : Document} (hd : before[i]? = some d) :
    ∃ e, after[i]? = some e ∧ R d e := by
  induction h generalizing i with
  | nil => cases hd
  | cons hfirst _ ih =>
    cases i with
    | zero =>
      cases hd
      exact ⟨_, rfl, hfirst⟩
    | succ i => exact ih hd

/-- A turn of all documents is a turn in those that it is made in, if there is one that holds a value or nothing is
    set. -/
theorem edited_of_turned {place : Nat} {before after : List Document} {goals : List Nat}
    (h : List.Forall₂ (Turned format settings.keepIndent key value) before after) (hplace : place < before.length)
    (hsome : value = .null ∨ ∃ d ∈ before, Filled format d) (hgoals : Goals format settings key place before goals)
    (hevery : settings.everyDocument = true) : Edited format settings.keepIndent key value goals before after := by
  have hstays : ∀ i : Nat, (∀ d, before[i]? = some d → ¬ Filled format d) → after[i]? = before[i]? := by
    intro i hi
    cases hd : before[i]? with
    | none =>
      rw [List.getElem?_eq_none_iff] at hd ⊢
      rwa [← h.length_eq]
    | some d =>
      obtain ⟨e, he, hturned⟩ := getElem?_of_forall₂ h hd
      rw [he, (hturned.of_not_filled (hi d hd)).1]
  cases hgoals with
  | holder _ _ _ hone _ _ _ => cases hone.symm.trans hevery
  | newKey hone _ => cases hone.symm.trans hevery
  | filled _ _ _ _ hmem =>
    refine ⟨h.length_eq.symm, fun i hi => ?_, fun i hi => hstays i fun d hd hfilled => hi ((hmem i).mpr ⟨d, hd, hfilled⟩)⟩
    obtain ⟨d, hd, hfilled⟩ := (hmem i).mp hi
    obtain ⟨e, he, hturned⟩ := getElem?_of_forall₂ h hd
    obtain ⟨body, hbody, rfl⟩ := hturned.of_filled hfilled
    exact ⟨d, body, hd, hbody, he⟩
  | noneFilled _ hnone =>
    -- then nothing is set, and the removal is made in a document without value
    have hremoves : value = .null := hsome.resolve_right fun ⟨d, hd, hfilled⟩ => hnone d hd hfilled
    have hsame : ∀ i : Nat, after[i]? = before[i]? := fun i =>
      hstays i fun d hd => hnone d (List.mem_of_getElem? hd)
    refine ⟨h.length_eq.symm, List.forall_mem_cons.mpr ⟨?_, fun _ hi => absurd hi List.not_mem_nil⟩, fun i _ => hsame i⟩
    obtain ⟨d, hd⟩ : ∃ d, before[place]? = some d := ⟨_, List.getElem?_eq_getElem hplace⟩
    obtain ⟨e, he, hturned⟩ := getElem?_of_forall₂ h hd
    obtain ⟨-, hbody⟩ := hturned.of_not_filled (hnone d (List.mem_of_getElem? hd))
    exact ⟨d, d.body, hd, hbody hremoves, by rw [hsame, hd]⟩

/-- A turn of all documents, and the turns behind it. -/
theorem applyInTurn_of_turned (hevery : settings.everyDocument = true) {place : Nat} {rest : List (Value × Value)}
    {before between after : List Document} (hplace : place < before.length)
    (h : List.Forall₂ (Turned format settings.keepIndent key value) before between)
    (hsome : value = .null ∨ ∃ d ∈ before, Filled format d)
    (hrest : (applyInTurn format settings place rest between).result = .ok after) :
    (applyInTurn format settings place ((key, value) :: rest) before).result = .ok after := by
  have hread : ∀ d ∈ before, ∃ current, format.read d.body = .ok current := by
    intro d hd
    obtain ⟨i, hi⟩ := List.mem_iff_getElem?.mp hd
    obtain ⟨e, -, hturned⟩ := getElem?_of_forall₂ h hi
    exact hturned.read
  obtain ⟨goals, htargets⟩ : ∃ goals, targets format settings key place before = .ok goals := exists_targets hevery hread
  have hgoals := goals_of_targets htargets
  have hedited := edited_of_turned h hplace hsome hgoals hevery
  exact applyInTurn_cons_eq_ok.mpr ⟨goals, _, htargets, applyEach_of_edited (hgoals.inside hplace).1 hedited, hrest⟩

/-! ## All turns of all documents -/

/-- A document in all turns. It holds a value whenever something is set. -/
inductive Passes (format : Format) (keep : Bool) : List (Value × Value) → Document → Document → Prop where
  | done (d : Document) : Passes format keep [] d d
  | turn {key value : Value} {rest : List (Value × Value)} {before between after : Document} :
      Turned format keep key value before between → (value ≠ .null → Filled format before) →
      Passes format keep rest between after → Passes format keep ((key, value) :: rest) before after

theorem Passes.nil_eq {d e : Document} (h : Passes format keep [] d e) : e = d := by
  cases h
  rfl

theorem Passes.cons {rest : List (Value × Value)} {d e : Document} (h : Passes format keep ((key, value) :: rest) d e) :
    ∃ between, Turned format keep key value d between ∧ (value ≠ .null → Filled format d) ∧
      Passes format keep rest between e := by
  cases h with
  | turn hturned hfilled hrest => exact ⟨_, hturned, hfilled, hrest⟩

theorem forall₂_passes_cons {rest : List (Value × Value)} {before after : List Document}
    (h : List.Forall₂ (Passes format keep ((key, value) :: rest)) before after) :
    ∃ between, List.Forall₂ (Turned format keep key value) before between ∧
      (∀ d ∈ before, value ≠ .null → Filled format d) ∧ List.Forall₂ (Passes format keep rest) between after := by
  induction h with
  | nil => exact ⟨[], .nil, by simp, .nil⟩
  | cons hfirst _ ih =>
    obtain ⟨d, hturned, hfilled, hrest⟩ := hfirst.cons
    obtain ⟨between, hturneds, hfilleds, hrests⟩ := ih
    exact ⟨d :: between, .cons hturned hturneds, List.forall_mem_cons.mpr ⟨hfilled, hfilleds⟩, .cons hrest hrests⟩

/-- All turns, behind documents without value. -/
theorem applyInTurn_every (hevery : settings.everyDocument = true) (hempty : format.read [] = .ok .null)
    (hline : format.read ['\n'] = .ok .null) {place : Nat} {updates : List (Value × Value)}
    {front documents results : List Document} (hplace : place < (front ++ documents).length) (hne : documents ≠ [])
    (hfront : ∀ e ∈ front, format.read e.body = .ok .null ∧ IsClosed e.body)
    (h : List.Forall₂ (Passes format settings.keepIndent updates) documents results) :
    (applyInTurn format settings place updates (front ++ documents)).result = .ok (front ++ results) := by
  induction updates generalizing documents with
  | nil =>
    obtain rfl : results = documents := List.forall₂_eq_eq_eq ▸ (h.imp fun _ _ h => h.nil_eq).flip
    rfl
  | cons update rest ih =>
    obtain ⟨key, value⟩ := update
    obtain ⟨between, hturned, hfilled, hrest⟩ := forall₂_passes_cons h
    have hidle : List.Forall₂ (Turned format settings.keepIndent key value) front front :=
      List.forall₂_same.mpr fun e he => by
        obtain ⟨hread, hclosed⟩ := hfront e he
        refine .passed hread ?_
        rintro rfl
        exact apply_remove_of_null ((read_closeLine hempty hline hclosed).trans hread)
    have hall := List.rel_append hidle hturned
    have hsome : value = .null ∨ ∃ d ∈ front ++ documents, Filled format d := by
      by_cases hremoves : value = .null
      · exact Or.inl hremoves
      · obtain ⟨d, hd⟩ := List.exists_mem_of_ne_nil documents hne
        exact Or.inr ⟨d, List.mem_append_right _ hd, hfilled d hd hremoves⟩
    refine applyInTurn_of_turned hevery hplace hall hsome (ih (by rwa [← hall.length_eq]) ?_ hrest)
    rintro rfl
    exact hne (List.forall₂_nil_right_iff.mp hturned)

/-! ## A stream -/

/-- A document that holds a value, and what updates of it alone, made in order, leave. -/
structure Received (format : Format) (keep : Bool) (updates : List (Value × Value)) (before after : Document) : Prop where
  separator : after.separator = before.separator
  filled : Filled format before
  result : (applyAll format keep updates before.body).result = .ok after.body

/-- Whenever something is set, the document holds a value, as the updates before left it. -/
def StaysFilled (format : Format) (keep : Bool) (updates : List (Value × Value)) (d : Document) : Prop :=
  ∀ done key value rest body, updates = done ++ (key, value) :: rest → value ≠ .null →
    (applyAll format keep done d.body).result = .ok body → Filled format { d with body }

theorem StaysFilled.tail {rest : List (Value × Value)} {d : Document} {body : Text}
    (h : StaysFilled format keep ((key, value) :: rest) d)
    (hbody : (apply format keep key value d.body).result = .ok body) :
    StaysFilled format keep rest { d with body } := by
  intro done nextKey next later last hrest hset hdone
  exact h ((key, value) :: done) nextKey next later last (by rw [hrest, List.cons_append]) hset
    (applyAll_cons_eq_ok.mpr ⟨body, hbody, hdone⟩)

/-- Updates that succeed one after the other are all turns of the document. -/
theorem passes_of_applyAll (hformat : format.EndsLines) (hempty : format.read [] = .ok .null)
    (hline : format.read ['\n'] = .ok .null) {updates : List (Value × Value)} {d : Document} {last : Text}
    (hd : Filled format d ∨ IsClosed d.body) (hstays : StaysFilled format keep updates d)
    (hall : (applyAll format keep updates d.body).result = .ok last) :
    Passes format keep updates d { d with body := last } := by
  induction updates generalizing d with
  | nil =>
    rw [applyAll_nil] at hall
    cases hall
    exact .done d
  | cons update rest ih =>
    obtain ⟨key, value⟩ := update
    obtain ⟨body, hbody, hrest⟩ := applyAll_cons_eq_ok.mp hall
    have hset : value ≠ .null → Filled format d := fun hset =>
      hstays [] key value rest d.body rfl hset (by rw [applyAll_nil]; rfl)
    have hnext := ih (d := { d with body }) (filled_or_closed_of_apply hformat hd hbody) (hstays.tail hbody) hrest
    refine .turn ?_ hset hnext
    by_cases hfilled : Filled format d
    · exact .made body hfilled hbody
    · -- only a removal is left, and it leaves the document as it is
      obtain rfl : value = .null := Classical.byContradiction fun h => hfilled (hset h)
      have hread := read_of_apply hbody
      rw [read_closeLine hempty hline (hd.resolve_left hfilled)] at hread
      obtain ⟨current, hread⟩ := hread
      obtain rfl : current = .null := Classical.byContradiction fun h => hfilled ⟨current, hread, h⟩
      have hsame : (apply format keep key .null d.body).result = .ok d.body :=
        apply_remove_of_null ((read_closeLine hempty hline (hd.resolve_left hfilled)).trans hread)
      cases hbody.symm.trans hsame
      exact .passed hread fun _ => hsame

theorem placeForNew?_front {front : List Document} (hlength : front.length ≤ 1)
    (hblank : ∀ e ∈ front, Text.hasContent e.body = false) (d : Document) :
    Stream.placeForNew? (front ++ [d]) = some front.length := by
  match front with
  | [] => rfl
  | [first] =>
    have hfirst := hblank first List.mem_cons_self
    simp [Stream.placeForNew?, hfirst]
  | _ :: _ :: _ => simp at hlength

/-- Updates of every document of a stream. A blank beginning may stand in front of the first separator, if it is read
    as no value; the documents behind it each hold a value, and the updates of each alone succeed. Unless there is but
    one document, each holds a value whenever something is set, as the updates before left it. Then the stream is
    joined, with its separators, from what the updates leave of each document. -/
theorem applyToStream_every (hformat : format.EndsLines) (hempty : format.read [] = .ok .null)
    (hline : format.read ['\n'] = .ok .null) (hevery : settings.everyDocument = true) {updates : List (Value × Value)}
    {text : Text} {front documents results : List Document} (hsplit : Stream.split text = front ++ documents)
    (hne : documents ≠ []) (hlength : front.length ≤ 1)
    (hfront : ∀ e ∈ front, Text.hasContent e.body = false ∧ format.read e.body = .ok .null)
    (hstays : documents.length = 1 ∨ ∀ d ∈ documents, StaysFilled format settings.keepIndent updates d)
    (h : List.Forall₂ (Received format settings.keepIndent updates) documents results) :
    (applyToStream format settings updates text).result = .ok (Stream.join (front ++ results)) := by
  have hplace := placeForNew?_lt (Stream.split_ne_nil text)
  have hclosed := (Stream.wellFormed_split text).closed
  rw [hsplit] at hclosed
  have hidle : ∀ e ∈ front, format.read e.body = .ok .null ∧ IsClosed e.body := fun e he =>
    ⟨(hfront e he).2, hclosed e (by rw [List.dropLast_append_of_ne_nil hne]; exact List.mem_append_left _ he)⟩
  refine applyToStream_eq_ok.mpr ⟨front ++ results, ?_, rfl⟩
  rw [hsplit] at hplace ⊢
  have hafter : ∀ {d e : Document}, Received format settings.keepIndent updates d e → { d with body := e.body } = e :=
    fun hreceived => by rw [← hreceived.separator]
  rcases hstays with hone | hstays
  · -- the place for new keys is in the only document
    obtain ⟨d, rfl⟩ := List.length_eq_one_iff.mp hone
    obtain ⟨e, last, hreceived, hnil, rfl⟩ := List.forall₂_cons_left_iff.mp h
    obtain rfl := List.forall₂_nil_left_iff.mp hnil
    rw [placeForNew?_front hlength (fun e he => (hfront e he).1) d, Option.getD_some,
      applyInTurn_last hformat hempty hline (fun e he => (hfront e he).2) (Or.inl hreceived.filled), hreceived.result]
    simp only [Except.map, hafter hreceived]
  · refine applyInTurn_every hevery hempty hline hplace hne hidle ?_
    refine ((List.forall₂_and_left documents results).mpr ⟨hstays, h⟩).imp fun d e hde => ?_
    have hpasses := passes_of_applyAll hformat hempty hline (Or.inl hde.2.filled) hde.1 hde.2.result
    rwa [hafter hde.2] at hpasses

/-- A key is added to both documents, and the key that one of them had is removed. -/
theorem applyToStream_every_second_loses_key :
    (applyToStream Format.yaml { everyDocument := true } [(.str "c".toList, .int 3), (.str "b".toList, .null)]
      "---\na: 1\n---\nb: 2\n".toList).result = .ok "---\na: 1\nc: 3\n---\nc: 3\n".toList := by
  have hempty : Format.yaml.read [] = .ok .null := by cbv
  have hline : Format.yaml.read ['\n'] = .ok .null := by cbv
  have hsplit : Stream.split "---\na: 1\n---\nb: 2\n".toList =
      [⟨[], []⟩] ++ [⟨"---\n".toList, "a: 1\n".toList⟩, ⟨"---\n".toList, "b: 2\n".toList⟩] := by decide
  have hreadA : Format.yaml.read (Text.closeLine "a: 1\n".toList) = .ok (.map [(.str ['a'], .int 1)]) := by cbv
  have hreadB : Format.yaml.read (Text.closeLine "b: 2\n".toList) = .ok (.map [(.str ['b'], .int 2)]) := by cbv
  have hentry : Render.entry Format.yaml false (.str ['c']) (.int 3) = .ok "c: 3\n".toList := rfl
  have hfirst : (applyAll Format.yaml false [(.str "c".toList, .int 3), (.str "b".toList, .null)] "a: 1\n".toList).result =
      .ok "a: 1\nc: 3\n".toList := by
    have hread : Format.yaml.read (Text.closeLine "a: 1\nc: 3\n".toList) =
        .ok (.map [(.str ['a'], .int 1), (.str ['c'], .int 3)]) := by cbv
    have habsentC : Value.valueUnder? [(.str ['a'], .int 1)] (.str ['c']) = none := by cbv
    have habsentB : Value.valueUnder? [(.str ['a'], .int 1), (.str ['c'], .int 3)] (.str ['b']) = none := by cbv
    have hadded : (apply Format.yaml false (.str ['c']) (.int 3) "a: 1\n".toList).result = .ok "a: 1\nc: 3\n".toList :=
      (Outcome.appended _ _ hreadA (Or.inl rfl) habsentC hentry).apply_eq_ok
    have hkept : (apply Format.yaml false (.str ['b']) .null "a: 1\nc: 3\n".toList).result = .ok "a: 1\nc: 3\n".toList :=
      (Outcome.nothing (Or.inr ⟨_, hread, habsentB⟩) rfl).apply_eq_ok
    exact applyAll_cons_eq_ok.mpr ⟨_, hadded, applyAll_cons_eq_ok.mpr ⟨_, hkept, rfl⟩⟩
  have hsecond : (applyAll Format.yaml false [(.str "c".toList, .int 3), (.str "b".toList, .null)] "b: 2\n".toList).result =
      .ok "c: 3\n".toList := by
    have hread : Format.yaml.read (Text.closeLine "b: 2\nc: 3\n".toList) =
        .ok (.map [(.str ['b'], .int 2), (.str ['c'], .int 3)]) := by cbv
    have habsentC : Value.valueUnder? [(.str ['b'], .int 2)] (.str ['c']) = none := by cbv
    have hholdsB : Value.valueUnder? [(.str ['b'], .int 2), (.str ['c'], .int 3)] (.str ['b']) = some (.int 2) := by cbv
    have hregion : Region.ofKey? ['b'] (Text.closeLine "b: 2\nc: 3\n".toList) = some ⟨0, 5, [], " 2\n".toList⟩ := by decide
    have hadded : (apply Format.yaml false (.str ['c']) (.int 3) "b: 2\n".toList).result = .ok "b: 2\nc: 3\n".toList :=
      (Outcome.appended _ _ hreadB (Or.inl rfl) habsentC hentry).apply_eq_ok
    have hremoved : (apply Format.yaml false (.str ['b']) .null "b: 2\nc: 3\n".toList).result = .ok "c: 3\n".toList :=
      (Outcome.removed _ _ _ hread rfl hholdsB hregion).apply_eq_ok
    exact applyAll_cons_eq_ok.mpr ⟨_, hadded, applyAll_cons_eq_ok.mpr ⟨_, hremoved, rfl⟩⟩
  -- the first update is the only one that sets anything
  have hstays : ∀ d : Document, Filled Format.yaml d →
      StaysFilled Format.yaml false [(.str "c".toList, .int 3), (.str "b".toList, .null)] d := by
    intro d hd done key value rest body hupdates hset hbody
    rcases done with _ | ⟨_, _ | ⟨_, done⟩⟩
    · rw [applyAll_nil] at hbody
      cases hbody
      exact hd
    · cases hupdates
      exact absurd rfl hset
    · cases done <;> cases hupdates
  have hclosedA : Text.closeLine "a: 1\n".toList = "a: 1\n".toList := rfl
  have hclosedB : Text.closeLine "b: 2\n".toList = "b: 2\n".toList := rfl
  rw [hclosedA] at hreadA
  rw [hclosedB] at hreadB
  have hfilledA : Filled Format.yaml ⟨"---\n".toList, "a: 1\n".toList⟩ := ⟨_, hreadA, Value.noConfusion⟩
  have hfilledB : Filled Format.yaml ⟨"---\n".toList, "b: 2\n".toList⟩ := ⟨_, hreadB, Value.noConfusion⟩
  have hblank : ∀ e ∈ [(⟨[], []⟩ : Document)], Text.hasContent e.body = false ∧ Format.yaml.read e.body = .ok .null := by
    intro e he
    rw [List.mem_singleton.mp he]
    exact ⟨rfl, hempty⟩
  have hfilled : ∀ d ∈ [(⟨"---\n".toList, "a: 1\n".toList⟩ : Document), ⟨"---\n".toList, "b: 2\n".toList⟩],
      StaysFilled Format.yaml false [(.str "c".toList, .int 3), (.str "b".toList, .null)] d :=
    List.forall_mem_cons.mpr ⟨hstays _ hfilledA, List.forall_mem_cons.mpr ⟨hstays _ hfilledB,
      fun _ hd => absurd hd List.not_mem_nil⟩⟩
  have hreceived : List.Forall₂ (Received Format.yaml false [(.str "c".toList, .int 3), (.str "b".toList, .null)])
      [⟨"---\n".toList, "a: 1\n".toList⟩, ⟨"---\n".toList, "b: 2\n".toList⟩]
      [⟨"---\n".toList, "a: 1\nc: 3\n".toList⟩, ⟨"---\n".toList, "c: 3\n".toList⟩] :=
    .cons ⟨rfl, hfilledA, hfirst⟩ (.cons ⟨rfl, hfilledB, hsecond⟩ .nil)
  have hresult : (applyToStream Format.yaml { everyDocument := true } _ _).result = .ok _ :=
    applyToStream_every Format.yaml_endsLines hempty hline rfl hsplit (List.cons_ne_nil _ _) (Nat.le_refl 1) hblank
      (Or.inr hfilled) hreceived
  exact hresult

/-! ## Exceptions -/

/-- A document that lost its only key is passed over, although what it holds alone could be updated. And a blank
    beginning with a tab is read like the other documents, but it is no document. -/
theorem document_left_out :
    (Stream.split "a: 1\n---\nb: 2\n".toList = [⟨[], "a: 1\n".toList⟩, ⟨"---\n".toList, "b: 2\n".toList⟩] ∧
      Format.yaml.read "a: 1\n".toList = .ok (.map [(.str ['a'], .int 1)]) ∧
      Format.yaml.read "b: 2\n".toList = .ok (.map [(.str ['b'], .int 2)]) ∧
      (applyAll Format.yaml false [(.str "a".toList, .null), (.str "c".toList, .int 3)] "a: 1\n".toList).result =
        .ok "c: 3\n".toList ∧
      (applyAll Format.yaml false [(.str "a".toList, .null), (.str "c".toList, .int 3)] "b: 2\n".toList).result =
        .ok "b: 2\nc: 3\n".toList ∧
      (applyToStream Format.yaml { everyDocument := true } [(.str "a".toList, .null), (.str "c".toList, .int 3)]
        "a: 1\n---\nb: 2\n".toList).result = .ok "---\nb: 2\nc: 3\n".toList ∧
      Stream.join [⟨[], "c: 3\n".toList⟩, ⟨"---\n".toList, "b: 2\nc: 3\n".toList⟩] ≠ "---\nb: 2\nc: 3\n".toList) ∧
    Stream.split "\t\n---\na: 1\n".toList = [⟨[], "\t\n".toList⟩, ⟨"---\n".toList, "a: 1\n".toList⟩] ∧
    Text.hasContent "\t\n".toList = false ∧
    (applyAll Format.yaml false [(.str "a".toList, .int 1)] "a: 1\n".toList).result = .ok "a: 1\n".toList ∧
    (applyToStream Format.yaml { everyDocument := true } [(.str "a".toList, .int 1)] "\t\n---\na: 1\n".toList).result =
      .error (.notYaml "\t\n".toList) := by
  have hempty : Format.yaml.read [] = .ok .null := by cbv
  have hline : Format.yaml.read (Text.closeLine []) = .ok .null := by cbv
  have hreadA : Format.yaml.read (Text.closeLine "a: 1\n".toList) = .ok (.map [(.str ['a'], .int 1)]) := by cbv
  have hreadB : Format.yaml.read (Text.closeLine "b: 2\n".toList) = .ok (.map [(.str ['b'], .int 2)]) := by cbv
  have hclosedA : Text.closeLine "a: 1\n".toList = "a: 1\n".toList := rfl
  have hclosedB : Text.closeLine "b: 2\n".toList = "b: 2\n".toList := rfl
  have hholdsA : Value.valueUnder? [(.str ['a'], .int 1)] (.str ['a']) = some (.int 1) := by cbv
  have hentry : Render.entry Format.yaml false (.str ['c']) (.int 3) = .ok "c: 3\n".toList := rfl
  constructor
  · have habsentA : Value.valueUnder? [(.str ['b'], .int 2)] (.str ['a']) = none := by cbv
    have habsentC : Value.valueUnder? [(.str ['b'], .int 2)] (.str ['c']) = none := by cbv
    have hregion : Region.ofKey? ['a'] (Text.closeLine "a: 1\n".toList) = some ⟨0, 5, [], " 1\n".toList⟩ := by decide
    have hremoved : (apply Format.yaml false (.str ['a']) .null "a: 1\n".toList).result = .ok [] :=
      (Outcome.removed _ _ _ hreadA rfl hholdsA hregion).apply_eq_ok
    have hfilled : (apply Format.yaml false (.str ['c']) (.int 3) []).result = .ok "c: 3\n".toList :=
      (Outcome.filled _ hline Treatment.noConfusion hentry).apply_eq_ok
    have hkept : (apply Format.yaml false (.str ['a']) .null "b: 2\n".toList).result = .ok "b: 2\n".toList :=
      (Outcome.nothing (Or.inr ⟨_, hreadB, habsentA⟩) rfl).apply_eq_ok
    have hadded : (apply Format.yaml false (.str ['c']) (.int 3) "b: 2\n".toList).result = .ok "b: 2\nc: 3\n".toList :=
      (Outcome.appended _ _ hreadB (Or.inl rfl) habsentC hentry).apply_eq_ok
    have hsplit : Stream.split "a: 1\n---\nb: 2\n".toList =
        [⟨[], "a: 1\n".toList⟩, ⟨"---\n".toList, "b: 2\n".toList⟩] := by decide
    rw [hclosedA] at hreadA
    rw [hclosedB] at hreadB
    have hfilledA : Filled Format.yaml ⟨[], "a: 1\n".toList⟩ := ⟨_, hreadA, Value.noConfusion⟩
    have hfilledB : Filled Format.yaml ⟨"---\n".toList, "b: 2\n".toList⟩ := ⟨_, hreadB, Value.noConfusion⟩
    have hfirst : List.Forall₂ (Turned Format.yaml false (.str ['a']) .null)
        [⟨[], "a: 1\n".toList⟩, ⟨"---\n".toList, "b: 2\n".toList⟩] [⟨[], []⟩, ⟨"---\n".toList, "b: 2\n".toList⟩] :=
      .cons (.made [] hfilledA hremoved) (.cons (.made _ hfilledB hkept) .nil)
    have hsecond : List.Forall₂ (Turned Format.yaml false (.str ['c']) (.int 3))
        [⟨[], []⟩, ⟨"---\n".toList, "b: 2\n".toList⟩] [⟨[], []⟩, ⟨"---\n".toList, "b: 2\nc: 3\n".toList⟩] :=
      .cons (.passed hempty Value.noConfusion) (.cons (.made _ hfilledB hadded) .nil)
    have hlater : (applyInTurn Format.yaml { everyDocument := true } 0 [(.str ['c'], .int 3)]
        [⟨[], []⟩, ⟨"---\n".toList, "b: 2\n".toList⟩]).result = .ok [⟨[], []⟩, ⟨"---\n".toList, "b: 2\nc: 3\n".toList⟩] :=
      applyInTurn_of_turned rfl Nat.two_pos hsecond (Or.inr ⟨_, List.mem_cons_of_mem _ List.mem_cons_self, hfilledB⟩) rfl
    refine ⟨hsplit, hreadA, hreadB, applyAll_cons_eq_ok.mpr ⟨_, hremoved, applyAll_cons_eq_ok.mpr ⟨_, hfilled, rfl⟩⟩,
      applyAll_cons_eq_ok.mpr ⟨_, hkept, applyAll_cons_eq_ok.mpr ⟨_, hadded, rfl⟩⟩, ?_, by decide⟩
    rw [applyToStream_eq_ok, hsplit]
    exact ⟨_, applyInTurn_of_turned rfl Nat.two_pos hfirst (Or.inl rfl) hlater, rfl⟩
  · have hsplit : Stream.split "\t\n---\na: 1\n".toList = [⟨[], "\t\n".toList⟩, ⟨"---\n".toList, "a: 1\n".toList⟩] := by
      decide
    have hagrees : Value.agrees (.int 1) (.int 1) = true := by cbv
    have hkept : (apply Format.yaml false (.str ['a']) (.int 1) "a: 1\n".toList).result = .ok "a: 1\n".toList :=
      (Outcome.unchanged _ _ hreadA (Or.inl rfl) hholdsA hagrees).apply_eq_ok
    exact ⟨hsplit, by decide, applyAll_cons_eq_ok.mpr ⟨_, hkept, rfl⟩, by cbv⟩

end YamlSplice.Edit
