/-
  YamlSplice.Proofs.Stream.Unreadable — a stream with a document that cannot be read.

  Updates of every document read all of them first, so the first that cannot be read makes them fail. Otherwise a key is
  looked for from the first document on, and what stands behind the document that holds it is not read. So a document
  that cannot be read does no harm as long as every key is held in front of it at its time; the first key that is not
  makes the updates fail.
  - `applyInTurn_inFront`: updates made in front of some documents leave these, and are made without reading them.
  - `inFront_of_applyInTurn`: updates that succeed were all made in front of the document.
  - `applyToStream_unreadable`: when the updates fail for the document, and when they succeed.
  - `malformed_document_not_read`: they may succeed.
-/

import YamlSplice.Proofs.Stream.Turns

namespace YamlSplice.Edit

variable {format : Format} {settings : Settings} {keep : Bool} {key value : Value} {place : Nat} {failure : Failure}
  {front back : List Document} {d : Document}

/-! ## Looking for documents -/

/-- The search for documents that hold anything fails for the first that cannot be read. -/
theorem filledFrom_eq_error (hfront : ∀ e ∈ front, ∃ current, format.read e.body = .ok current)
    (hd : format.read d.body = .error failure) (offset : Nat) :
    filledFrom format offset (front ++ d :: back) = .error failure := by
  induction front generalizing offset with
  | nil =>
    rw [List.nil_append, filledFrom, hd]
    rfl
  | cons first front ih =>
    obtain ⟨⟨current, hread⟩, hfront⟩ := List.forall_mem_cons.mp hfront
    rw [List.cons_append, filledFrom, hread]
    cases current with
    | null => exact ih hfront (offset + 1)
    | _ => simp only [bind, Except.bind, ih hfront (offset + 1)]

/-- The search for a key fails for the first document that cannot be read, if no document in front holds the key. -/
theorem holder?_eq_error (hfront : ∀ e ∈ front, Lacks format key e) (hd : format.read d.body = .error failure)
    (offset : Nat) : holder? format key offset (front ++ d :: back) = .error failure := by
  rw [holder?_append hfront, holder?, hd]
  rfl

/-- A key that is found was held in front of a document that cannot be read. -/
theorem holder?_in_front (hd : format.read d.body = .error failure) {found : Option Nat}
    (h : holder? format key 0 (front ++ d :: back) = .ok found) :
    ∃ above e below, front = above ++ e :: below ∧ found = some above.length ∧ Holds format key e ∧
      ∀ a ∈ above, Lacks format key a := by
  cases found with
  | none =>
    obtain ⟨⟨current, hread⟩, -⟩ := holder?_eq_none h d (by simp)
    cases hd.symm.trans hread
  | some i =>
    obtain ⟨above, e, later, hdocuments, hi, he, habove⟩ := holder?_eq_some h
    rw [Nat.zero_add] at hi
    subst hi
    -- every document up to the one that holds the key was read
    have hread : ∀ a ∈ above ++ [e], ∃ current, format.read a.body = .ok current := by
      obtain ⟨entries, existing, hread, -⟩ := he
      exact List.forall_mem_append.mpr ⟨fun a ha => (habove a ha).1, by simpa using ⟨_, hread⟩⟩
    have hcut : front ++ d :: back = above ++ [e] ++ later := by simpa using hdocuments
    rcases List.append_eq_append_iff.mp hcut with ⟨behind, hfront, hbehind⟩ | ⟨below, rfl, -⟩
    · cases behind with
      | nil => exact ⟨above, e, [], by simpa using hfront.symm, rfl, he, habove⟩
      | cons first behind =>
        obtain ⟨rfl, -⟩ := List.cons.inj hbehind
        obtain ⟨current, hread⟩ := hread d (by simp [hfront])
        cases hd.symm.trans hread
    · exact ⟨above, e, below, by simp, rfl, he, habove⟩

/-! ## Updates in front of other documents -/

/-- Updates each of which is made in the first document that holds its key, and the documents before and after. -/
inductive InFront (format : Format) (keep : Bool) : List (Value × Value) → List Document → List Document → Prop where
  | done (documents : List Document) : InFront format keep [] documents documents
  | turn {key value : Value} {rest : List (Value × Value)} {above below after : List Document} {d : Document} {body : Text} :
      (∀ e ∈ above, Lacks format key e) → Holds format key d → (apply format keep key value d.body).result = .ok body →
      InFront format keep rest (above ++ { d with body } :: below) after →
      InFront format keep ((key, value) :: rest) (above ++ d :: below) after

/-- One turn, made in the first document that holds the key. -/
theorem applyInTurn_holder (hone : settings.everyDocument = false) {rest : List (Value × Value)}
    {above later : List Document} (habove : ∀ e ∈ above, Lacks format key e) (hd : Holds format key d) {body : Text}
    (hbody : (apply format settings.keepIndent key value d.body).result = .ok body) :
    (applyInTurn format settings place ((key, value) :: rest) (above ++ d :: later)).result =
      (applyInTurn format settings place rest (above ++ { d with body } :: later)).result := by
  have htargets : targets format settings key place (above ++ d :: later) = .ok [above.length] := by
    rw [targets, if_neg (by simp [hone]), holder?_append habove, Nat.zero_add, holder?_holds hd]
    rfl
  have hthere : (above ++ d :: later)[above.length]? = some d := by simp
  have heach : (applyEach format settings key value [above.length] (above ++ d :: later)).result =
      .ok (above ++ { d with body } :: later) :=
    applyEach_cons_eq_ok.mpr ⟨_, (applyAt_eq_ok hthere).mpr ⟨body, hbody, rfl⟩, by simp [applyEach]⟩
  rw [applyInTurn, Run.result_bind, Run.result_ofExcept, htargets]
  simp only [Except.bind, Run.result_bind, heach]

/-- Updates made in front of other documents leave these, whatever they hold. -/
theorem applyInTurn_inFront (hone : settings.everyDocument = false) {updates : List (Value × Value)}
    {after : List Document} (h : InFront format settings.keepIndent updates front after) (place : Nat)
    (rest : List (Value × Value)) (later : List Document) :
    (applyInTurn format settings place (updates ++ rest) (front ++ later)).result =
      (applyInTurn format settings place rest (after ++ later)).result := by
  induction h with
  | done _ => rfl
  | turn habove hd hbody _ ih =>
    rw [List.cons_append, List.append_assoc, List.cons_append, applyInTurn_holder hone habove hd hbody, ← ih,
      List.append_assoc, List.cons_append]

/-- Updates that succeed were all made in front of a document that cannot be read. -/
theorem inFront_of_applyInTurn (hone : settings.everyDocument = false) (hd : format.read d.body = .error failure)
    {updates : List (Value × Value)} {documents : List Document}
    (h : (applyInTurn format settings place updates (front ++ d :: back)).result = .ok documents) :
    ∃ after, InFront format settings.keepIndent updates front after ∧ documents = after ++ d :: back := by
  induction updates generalizing front with
  | nil =>
    cases h
    exact ⟨front, .done front, rfl⟩
  | cons update rest ih =>
    obtain ⟨key, value⟩ := update
    obtain ⟨goals, between, htargets, heach, hrest⟩ := applyInTurn_cons_eq_ok.mp h
    rw [targets, if_neg (by simp [hone])] at htargets
    obtain ⟨found, hfound, htargets⟩ := Except.bind_eq_ok.mp htargets
    obtain ⟨above, e, below, rfl, rfl, he, habove⟩ := holder?_in_front hd hfound
    cases htargets
    obtain ⟨changed, hchanged, hdone⟩ := applyEach_cons_eq_ok.mp heach
    cases hdone
    have hthere : (above ++ e :: below ++ d :: back)[above.length]? = some e := by simp
    obtain ⟨body, hbody, rfl⟩ := (applyAt_eq_ok hthere).mp hchanged
    have hset : (above ++ e :: below ++ d :: back).set above.length { e with body } =
        above ++ { e with body } :: below ++ d :: back := by simp
    rw [hset] at hrest
    obtain ⟨after, hafter, hdocuments⟩ := ih hrest
    exact ⟨after, .turn habove he hbody hafter, hdocuments⟩

/-! ## A stream -/

theorem applyToStream_eq_error {updates : List (Value × Value)} {text : Text}
    (h : (applyInTurn format settings ((Stream.placeForNew? (Stream.split text)).getD 0) updates
      (Stream.split text)).result = .error failure) : (applyToStream format settings updates text).result = .error failure := by
  rw [applyToStream, Run.result_bind, h]
  rfl

/-- Updates made in front of other documents succeed, whatever these hold. -/
theorem applyToStream_inFront (hone : settings.everyDocument = false) {updates : List (Value × Value)} {text : Text}
    {after later : List Document} (hsplit : Stream.split text = front ++ later)
    (h : InFront format settings.keepIndent updates front after) :
    (applyToStream format settings updates text).result = .ok (Stream.join (after ++ later)) := by
  refine applyToStream_eq_ok.mpr ⟨_, ?_, rfl⟩
  rw [hsplit]
  have hturns := applyInTurn_inFront hone h ((Stream.placeForNew? (front ++ later)).getD 0) [] later
  rwa [List.append_nil] at hturns

/-- Updates of a stream with a document that cannot be read. Made in every document, they fail as the reading of the
    first such document fails. Otherwise they fail so as soon as a key is looked for that no document in front of it
    holds, as the updates before left them; and they succeed exactly if every key is held in front of it at its time, and
    then it stays as it is, with all documents behind it. -/
theorem applyToStream_unreadable {updates : List (Value × Value)} {text : Text}
    (hsplit : Stream.split text = front ++ d :: back) (hd : format.read d.body = .error failure) :
    (settings.everyDocument = true → updates ≠ [] → (∀ e ∈ front, ∃ current, format.read e.body = .ok current) →
      (applyToStream format settings updates text).result = .error failure) ∧
    (settings.everyDocument = false →
      (∀ done key value rest after, updates = done ++ (key, value) :: rest →
        InFront format settings.keepIndent done front after → (∀ e ∈ after, Lacks format key e) →
        (applyToStream format settings updates text).result = .error failure) ∧
      ∀ result, (applyToStream format settings updates text).result = .ok result ↔
        ∃ after, InFront format settings.keepIndent updates front after ∧ result = Stream.join (after ++ d :: back)) := by
  refine ⟨fun hevery hne hfront => ?_, fun hone => ⟨?_, fun result => ⟨fun h => ?_, ?_⟩⟩⟩
  · obtain ⟨⟨key, value⟩, rest, rfl⟩ := List.exists_cons_of_ne_nil hne
    refine applyToStream_eq_error ?_
    rw [hsplit, applyInTurn, Run.result_bind, Run.result_ofExcept, targets, if_pos hevery, filledFrom_eq_error hfront hd]
    rfl
  · rintro done key value rest after rfl hdone hafter
    refine applyToStream_eq_error ?_
    rw [hsplit, applyInTurn_inFront hone hdone, applyInTurn, Run.result_bind, Run.result_ofExcept, targets,
      if_neg (by simp [hone]), holder?_eq_error hafter hd]
    rfl
  · obtain ⟨documents, hdocuments, rfl⟩ := applyToStream_eq_ok.mp h
    rw [hsplit] at hdocuments
    obtain ⟨after, hafter, rfl⟩ := inFront_of_applyInTurn hone hd hdocuments
    exact ⟨after, hafter, rfl⟩
  · rintro ⟨after, hafter, rfl⟩
    exact applyToStream_inFront hone hsplit hafter

/-- A key that a document in front holds. -/
theorem inFront_a :
    InFront Format.yaml false [(.str "a".toList, .int 2)] [⟨[], "a: 1\n".toList⟩] [⟨[], "a: 2\n".toList⟩] := by
  have hread : Format.yaml.read (Text.closeLine "a: 1\n".toList) = .ok (.map [(.str ['a'], .int 1)]) := by cbv
  have hexisting : Value.valueUnder? [(.str ['a'], .int 1)] (.str ['a']) = some (.int 1) := by cbv
  have hdiffers : Value.agrees (.int 1) (.int 2) = false := by cbv
  have hlocated : Region.ofKey? ['a'] (Text.closeLine "a: 1\n".toList) = some ⟨0, 5, [], " 1\n".toList⟩ := by decide
  have hwrite : Render.entryKeepingKey Format.yaml false ['a'] (.int 2) = .ok "a: 2\n".toList := rfl
  have hbody : (apply Format.yaml false (.str "a".toList) (.int 2) "a: 1\n".toList).result = .ok "a: 2\n".toList :=
    (Outcome.replaced _ _ _ _ hread (Or.inl rfl) hexisting hdiffers hlocated hwrite).apply_eq_ok
  have hnone : ∀ e ∈ ([] : List Document), Lacks Format.yaml (.str "a".toList) e := by simp
  exact InFront.turn hnone ⟨_, _, hread, hexisting⟩ hbody (.done _)

theorem split_malformed : Stream.split "a: 1\n---\nb: [\n".toList =
    [⟨[], "a: 1\n".toList⟩] ++ [⟨"---\n".toList, "b: [\n".toList⟩] := by decide

theorem read_malformed : Format.yaml.read "b: [\n".toList = .error (.notYaml "b: [\n".toList) := by cbv

/-- The second of two documents cannot be read. The first does not hold the second key; and it is of no help that it
    holds the first one, if all documents are to be updated. -/
theorem applyToStream_unreadable_second :
    (applyToStream Format.yaml {} [(.str "a".toList, .int 2), (.str "c".toList, .int 3)]
      "a: 1\n---\nb: [\n".toList).result = .error (.notYaml "b: [\n".toList) ∧
    (applyToStream Format.yaml { everyDocument := true } [(.str "a".toList, .int 2)] "a: 1\n---\nb: [\n".toList).result =
      .error (.notYaml "b: [\n".toList) := by
  constructor
  · have hread : Format.yaml.read "a: 2\n".toList = .ok (.map [(.str ['a'], .int 2)]) := by cbv
    have habsent : Value.valueUnder? [(.str ['a'], .int 2)] (.str ['c']) = none := by cbv
    have hlacks : ∀ e ∈ [(⟨[], "a: 2\n".toList⟩ : Document)], Lacks Format.yaml (.str "c".toList) e := by
      intro e he
      rw [List.mem_singleton.mp he]
      refine ⟨⟨_, hread⟩, ?_⟩
      rintro ⟨entries, existing, hother, hunder⟩
      cases hread.symm.trans hother
      cases habsent.symm.trans hunder
    exact ((applyToStream_unreadable split_malformed read_malformed).2 rfl).1 [_] _ _ [] _ rfl inFront_a hlacks
  · have hread : Format.yaml.read "a: 1\n".toList = .ok (.map [(.str ['a'], .int 1)]) := by cbv
    have hfront : ∀ e ∈ [(⟨[], "a: 1\n".toList⟩ : Document)], ∃ current, Format.yaml.read e.body = .ok current := by
      simpa using ⟨_, hread⟩
    exact (applyToStream_unreadable split_malformed read_malformed).1 rfl (List.cons_ne_nil _ _) hfront

/-! ## Exceptions -/

/-- A document that is no YAML is passed over in silence, since the key is held by the one in front of it. -/
theorem malformed_document_not_read :
    Stream.split "a: 1\n---\nb: [\n".toList = [⟨[], "a: 1\n".toList⟩, ⟨"---\n".toList, "b: [\n".toList⟩] ∧
    Format.yaml.read "b: [\n".toList = .error (.notYaml "b: [\n".toList) ∧
    (applyToStream Format.yaml {} [(.str "a".toList, .int 2)] "a: 1\n---\nb: [\n".toList).result =
      .ok "a: 2\n---\nb: [\n".toList := by
  have hresult : (applyToStream Format.yaml {} [(.str "a".toList, .int 2)] "a: 1\n---\nb: [\n".toList).result =
      .ok (Stream.join ([⟨[], "a: 2\n".toList⟩] ++ [⟨"---\n".toList, "b: [\n".toList⟩])) :=
    applyToStream_inFront rfl split_malformed inFront_a
  exact ⟨split_malformed, read_malformed, hresult⟩

end YamlSplice.Edit
