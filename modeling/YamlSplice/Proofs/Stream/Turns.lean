/-
  YamlSplice.Proofs.Stream.Turns — what updates leave of the documents of a stream.

  The updates take turns. In its turn an update is made in some documents, and which these are is a
  matter of what all documents hold at that time (`Goals`). Nothing but the bodies of these documents
  changes (`Edited`), and a body that changes is closed, so that the separator line behind it stays a
  line of its own.
  - `holder?_eq_some` / `holder?_append`: the first document that holds a key.
  - `goals_of_targets` / `edited_of_applyEach`: one turn.
  - `Turns.others` / `Turns.separators`: what the documents keep over all turns.
  - `applyToStream_documents`: what a stream is after its updates, as documents.
-/

import YamlSplice.Operations
import YamlSplice.Proofs.Edit.Closed
import YamlSplice.Proofs.Stream.Split
import YamlSplice.Proofs.Writing.Ends

namespace YamlSplice

theorem Format.yaml_endsLines : Format.yaml.EndsLines := fun _ _ h => Yaml.write_endsLine h

namespace Edit

open Text (IsClosed)

variable {format : Format} {settings : Settings}

/-! ## Where an update is made -/

/-- The document is read as a mapping with the key. -/
def Holds (format : Format) (key : Value) (d : Document) : Prop :=
  ∃ entries existing, format.read d.body = .ok (.map entries) ∧ Value.valueUnder? entries key = some existing

/-- The document is read as a value. -/
def Filled (format : Format) (d : Document) : Prop := ∃ value, format.read d.body = .ok value ∧ value ≠ .null

/-- The places of the documents in which the key is to be updated, if new keys go to `place`. -/
inductive Goals (format : Format) (settings : Settings) (key : Value) (place : Nat) (documents : List Document) :
    List Nat → Prop where
  /-- No document in front of this one holds the key. -/
  | holder (front : List Document) (d : Document) (back : List Document) : settings.everyDocument = false →
      documents = front ++ d :: back → Holds format key d → (∀ e ∈ front, ¬ Holds format key e) →
      Goals format settings key place documents [front.length]
  | newKey : settings.everyDocument = false → (∀ d ∈ documents, ¬ Holds format key d) →
      Goals format settings key place documents [place]
  | filled (goals : List Nat) : settings.everyDocument = true → goals ≠ [] → goals.Pairwise (· < ·) →
      (∀ i, i ∈ goals ↔ ∃ d, documents[i]? = some d ∧ Filled format d) →
      Goals format settings key place documents goals
  | noneFilled : settings.everyDocument = true → (∀ d ∈ documents, ¬ Filled format d) →
      Goals format settings key place documents [place]

/-- The document can be read, and lacks the key. -/
def Lacks (format : Format) (key : Value) (d : Document) : Prop :=
  (∃ current, format.read d.body = .ok current) ∧ ¬ Holds format key d

/-- The search ends at a document that holds the key. -/
theorem holder?_holds {key : Value} {first : Document} (h : Holds format key first) (later : List Document) (offset : Nat) :
    holder? format key offset (first :: later) = .ok (some offset) := by
  obtain ⟨entries, existing, hread, hunder⟩ := h
  rw [holder?, hread]
  simp only [bind, Except.bind, hunder]
  rfl

/-- It goes on behind one that lacks the key. -/
theorem holder?_lacks {key : Value} {first : Document} (h : Lacks format key first) (later : List Document) (offset : Nat) :
    holder? format key offset (first :: later) = holder? format key (offset + 1) later := by
  obtain ⟨⟨current, hread⟩, hlacks⟩ := h
  rw [holder?, hread]
  cases current with
  | map entries =>
    cases hunder : Value.valueUnder? entries key with
    | none => simp only [bind, Except.bind, hunder]
    | some existing => exact absurd ⟨entries, existing, hread, hunder⟩ hlacks
  | _ => rfl

theorem holder?_cons {key : Value} {first : Document} {later : List Document} {offset : Nat} {found : Option Nat}
    (h : holder? format key offset (first :: later) = .ok found) :
    Holds format key first ∧ found = some offset ∨
      Lacks format key first ∧ holder? format key (offset + 1) later = .ok found := by
  by_cases hfirst : Holds format key first
  · rw [holder?_holds hfirst] at h
    cases h
    exact Or.inl ⟨hfirst, rfl⟩
  · have hread := h
    rw [holder?] at hread
    obtain ⟨current, hread, -⟩ := Except.bind_eq_ok.mp hread
    have hlacks : Lacks format key first := ⟨⟨current, hread⟩, hfirst⟩
    rw [holder?_lacks hlacks] at h
    exact Or.inr ⟨hlacks, h⟩

theorem holder?_append {key : Value} {front : List Document} (hfront : ∀ e ∈ front, Lacks format key e)
    (later : List Document) (offset : Nat) :
    holder? format key offset (front ++ later) = holder? format key (offset + front.length) later := by
  induction front generalizing offset with
  | nil => rfl
  | cons first front ih =>
    obtain ⟨hfirst, hfront⟩ := List.forall_mem_cons.mp hfront
    rw [List.cons_append, holder?_lacks hfirst, ih hfront, List.length_cons, Nat.add_assoc, Nat.add_comm 1]

theorem holder?_eq_some {key : Value} {documents : List Document} {offset i : Nat}
    (h : holder? format key offset documents = .ok (some i)) :
    ∃ front d back, documents = front ++ d :: back ∧ i = offset + front.length ∧ Holds format key d ∧
      ∀ e ∈ front, Lacks format key e := by
  induction documents generalizing offset with
  | nil => cases h
  | cons first later ih =>
    rcases holder?_cons h with ⟨hfirst, hfound⟩ | ⟨hfirst, hlater⟩
    · cases hfound
      exact ⟨[], first, later, rfl, rfl, hfirst, by simp⟩
    · obtain ⟨front, d, back, rfl, rfl, hd, hfront⟩ := ih hlater
      exact ⟨first :: front, d, back, rfl, by simp; omega, hd, List.forall_mem_cons.mpr ⟨hfirst, hfront⟩⟩

theorem holder?_eq_none {key : Value} {documents : List Document} {offset : Nat}
    (h : holder? format key offset documents = .ok none) : ∀ d ∈ documents, Lacks format key d := by
  induction documents generalizing offset with
  | nil => simp
  | cons first later ih =>
    rcases holder?_cons h with ⟨-, hfound⟩ | ⟨hfirst, hlater⟩
    · cases hfound
    · exact List.forall_mem_cons.mpr ⟨hfirst, ih hlater⟩

theorem filledFrom_cons {first : Document} {later : List Document} {offset : Nat} {found : List Nat}
    (h : filledFrom format offset (first :: later) = .ok found) :
    (Filled format first ∧ ∃ rest, filledFrom format (offset + 1) later = .ok rest ∧ found = offset :: rest) ∨
      ¬ Filled format first ∧ filledFrom format (offset + 1) later = .ok found := by
  unfold filledFrom at h
  obtain ⟨current, hread, h⟩ := Except.bind_eq_ok.mp h
  split at h
  · refine Or.inr ⟨?_, h⟩
    rintro ⟨value, hvalue, hne⟩
    cases hread.symm.trans hvalue
    exact hne rfl
  · next hne =>
    obtain ⟨rest, hlater, h⟩ := Except.bind_eq_ok.mp h
    cases h
    exact Or.inl ⟨⟨current, hread, hne⟩, rest, hlater, rfl⟩

/-- The documents that are found are those that are read as a value, in order. -/
theorem filledFrom_eq_ok {documents : List Document} {offset : Nat} {found : List Nat}
    (h : filledFrom format offset documents = .ok found) :
    found.Pairwise (· < ·) ∧ ∀ i, i ∈ found ↔ ∃ d, (d, i) ∈ documents.zipIdx offset ∧ Filled format d := by
  induction documents generalizing offset found with
  | nil =>
    cases h
    simp
  | cons first later ih =>
    rw [List.zipIdx_cons]
    rcases filledFrom_cons h with ⟨hfirst, rest, hlater, rfl⟩ | ⟨hfirst, hlater⟩
    · obtain ⟨hordered, hmem⟩ := ih hlater
      refine ⟨List.pairwise_cons.mpr ⟨fun i hi => ?_, hordered⟩, fun i => ?_⟩
      · obtain ⟨d, hd, -⟩ := (hmem i).mp hi
        exact List.le_snd_of_mem_zipIdx hd
      · rw [List.mem_cons, hmem]
        constructor
        · rintro (rfl | ⟨d, hd, hfilled⟩)
          · exact ⟨first, List.mem_cons_self, hfirst⟩
          · exact ⟨d, List.mem_cons_of_mem _ hd, hfilled⟩
        · rintro ⟨d, hd, hfilled⟩
          rcases List.mem_cons.mp hd with heq | hd
          · cases heq
            exact Or.inl rfl
          · exact Or.inr ⟨d, hd, hfilled⟩
    · obtain ⟨hordered, hmem⟩ := ih hlater
      refine ⟨hordered, fun i => (hmem i).trans ⟨?_, ?_⟩⟩
      · rintro ⟨d, hd, hfilled⟩
        exact ⟨d, List.mem_cons_of_mem _ hd, hfilled⟩
      · rintro ⟨d, hd, hfilled⟩
        rcases List.mem_cons.mp hd with heq | hd
        · cases heq
          exact absurd hfilled hfirst
        · exact ⟨d, hd, hfilled⟩

theorem goals_of_targets {key : Value} {place : Nat} {documents : List Document} {goals : List Nat}
    (h : targets format settings key place documents = .ok goals) :
    Goals format settings key place documents goals := by
  unfold targets at h
  split at h
  · next hevery =>
    obtain ⟨found, hfound, h⟩ := Except.bind_eq_ok.mp h
    obtain ⟨hordered, hmem⟩ := filledFrom_eq_ok hfound
    simp only [List.mk_mem_zipIdx_iff_getElem?] at hmem
    split at h
    · cases h
      refine .noneFilled hevery fun d hd hfilled => ?_
      obtain ⟨i, hi⟩ := List.mem_iff_getElem?.mp hd
      exact List.not_mem_nil ((hmem i).mpr ⟨d, hi, hfilled⟩)
    · next hne =>
      cases h
      exact .filled goals hevery hne hordered hmem
  · next hevery =>
    have hone : settings.everyDocument = false := by simpa using hevery
    obtain ⟨found, hfound, h⟩ := Except.bind_eq_ok.mp h
    cases h
    cases found with
    | none => exact .newKey hone fun d hd => (holder?_eq_none hfound d hd).2
    | some i =>
      obtain ⟨front, d, back, rfl, rfl, hd, hfront⟩ := holder?_eq_some hfound
      rw [Option.getD_some, Nat.zero_add]
      exact .holder front d back hone rfl hd fun e he => (hfront e he).2

/-- An update is made in documents that there are, and in none of them twice. -/
theorem Goals.inside {key : Value} {place : Nat} {documents : List Document} {goals : List Nat}
    (h : Goals format settings key place documents goals) (hplace : place < documents.length) :
    goals.Nodup ∧ ∀ i ∈ goals, i < documents.length := by
  cases h with
  | holder front d back _ hdocuments _ _ => simp [hdocuments]
  | newKey | noneFilled => simpa using hplace
  | filled _ _ _ hordered hmem =>
    refine ⟨hordered.imp fun h => Nat.ne_of_lt h, fun i hi => ?_⟩
    obtain ⟨d, hd, -⟩ := (hmem i).mp hi
    exact (List.getElem?_eq_some_iff.mp hd).1

theorem placeForNew?_lt {documents : List Document} (h : documents ≠ []) :
    (Stream.placeForNew? documents).getD 0 < documents.length := by
  cases documents with
  | nil => exact absurd rfl h
  | cons first later =>
    cases later with
    | nil => exact Nat.one_pos
    | cons next later =>
      simp only [Stream.placeForNew?, Option.getD_some, List.length_cons]
      split <;> omega

/-! ## One turn -/

/-- The documents before and after an update is made in some of them. -/
structure Edited (format : Format) (keep : Bool) (key value : Value) (goals : List Nat)
    (before after : List Document) : Prop where
  length : after.length = before.length
  /-- A document in which the update is made has a new body. -/
  goal : ∀ i ∈ goals, ∃ d body, before[i]? = some d ∧ (apply format keep key value d.body).result = .ok body ∧
    after[i]? = some { d with body }
  other : ∀ i, i ∉ goals → after[i]? = before[i]?

theorem Edited.none {keep : Bool} {key value : Value} (documents : List Document) :
    Edited format keep key value [] documents documents := ⟨rfl, by simp, fun _ _ => rfl⟩

/-- The update is made in one document more. -/
theorem Edited.cons {keep : Bool} {key value : Value} {i : Nat} {rest : List Nat} {before after : List Document}
    {d : Document} {body : Text} (hi : i ∉ rest) (hd : before[i]? = some d)
    (hbody : (apply format keep key value d.body).result = .ok body)
    (h : Edited format keep key value rest (before.set i { d with body }) after) :
    Edited format keep key value (i :: rest) before after := by
  have hinside : i < before.length := (List.getElem?_eq_some_iff.mp hd).1
  refine ⟨by rw [h.length, List.length_set], List.forall_mem_cons.mpr ⟨⟨d, body, hd, hbody, ?_⟩, fun j hj => ?_⟩,
    fun j hj => ?_⟩
  · rw [h.other i hi, List.getElem?_set_self hinside]
  · have hne : i ≠ j := fun h => hi (h ▸ hj)
    have hgoal := h.goal j hj
    rwa [List.getElem?_set_ne hne] at hgoal
  · obtain ⟨hne, hrest⟩ := not_or.mp (mt List.mem_cons.mpr hj)
    rw [h.other j hrest, List.getElem?_set_ne (Ne.symm hne)]

theorem applyAt_eq_ok {key value : Value} {documents changed : List Document} {i : Nat} {d : Document}
    (hd : documents[i]? = some d) : (applyAt format settings key value documents i).result = .ok changed ↔
      ∃ body, (apply format settings.keepIndent key value d.body).result = .ok body ∧
        changed = documents.set i { d with body } := by
  have hopen : (applyAt format settings key value documents i).result =
      (apply format settings.keepIndent key value d.body >>= fun body =>
        pure (documents.set i { d with body })).result := by
    rw [applyAt, Run.result_bind, hd]
    rfl
  rw [hopen, Run.bind_eq_ok]
  simp only [Run.result_pure, Except.ok.injEq, eq_comm]

theorem applyEach_cons_eq_ok {key value : Value} {i : Nat} {rest : List Nat} {documents after : List Document} :
    (applyEach format settings key value (i :: rest) documents).result = .ok after ↔
      ∃ changed, (applyAt format settings key value documents i).result = .ok changed ∧
        (applyEach format settings key value rest changed).result = .ok after := by
  rw [applyEach, Run.bind_eq_ok]

theorem edited_of_applyEach {key value : Value} {goals : List Nat} {before after : List Document}
    (hnodup : goals.Nodup) (hinside : ∀ i ∈ goals, i < before.length)
    (h : (applyEach format settings key value goals before).result = .ok after) :
    Edited format settings.keepIndent key value goals before after := by
  induction goals generalizing before with
  | nil =>
    cases h
    exact Edited.none _
  | cons i rest ih =>
    obtain ⟨hi, hrest⟩ := List.nodup_cons.mp hnodup
    obtain ⟨hiInside, hrestInside⟩ := List.forall_mem_cons.mp hinside
    obtain ⟨changed, hchanged, h⟩ := applyEach_cons_eq_ok.mp h
    obtain ⟨d, hd⟩ : ∃ d, before[i]? = some d := ⟨_, List.getElem?_eq_getElem hiInside⟩
    obtain ⟨body, hbody, rfl⟩ := (applyAt_eq_ok hd).mp hchanged
    exact Edited.cons hi hd hbody (ih hrest (by simpa using hrestInside) h)

theorem Edited.separators {keep : Bool} {key value : Value} {goals : List Nat} {before after : List Document}
    (h : Edited format keep key value goals before after) :
    after.map Document.separator = before.map Document.separator := by
  refine List.ext_getElem? fun i => ?_
  rw [List.getElem?_map, List.getElem?_map]
  by_cases hi : i ∈ goals
  · obtain ⟨d, body, hd, -, hchanged⟩ := h.goal i hi
    rw [hd, hchanged]
    rfl
  · rw [h.other i hi]

/-- A new body is closed or equal to the old one. -/
theorem Edited.closed (hformat : format.EndsLines) {keep : Bool} {key value : Value} {goals : List Nat}
    {before after : List Document} (h : Edited format keep key value goals before after)
    (hbefore : ∀ d ∈ before.dropLast, IsClosed d.body) : ∀ d ∈ after.dropLast, IsClosed d.body := by
  have hclosed : ∀ i d, i < before.length - 1 → before[i]? = some d → IsClosed d.body := fun i d hi hd =>
    hbefore d (List.mem_iff_getElem?.mpr ⟨i, by rw [List.getElem?_dropLast, if_pos hi, hd]⟩)
  intro d hd
  obtain ⟨i, hi⟩ := List.mem_iff_getElem?.mp hd
  rw [List.getElem?_dropLast, h.length] at hi
  split at hi
  · next hinside =>
    by_cases hgoal : i ∈ goals
    · obtain ⟨old, body, hold, hbody, hchanged⟩ := h.goal i hgoal
      cases hi.symm.trans hchanged
      rcases apply_closed hformat hbody with hsame | hnew
      · rw [hsame]
        exact hclosed i old hinside hold
      · exact hnew
    · rw [h.other i hgoal] at hi
      exact hclosed i d hinside hi
  · cases hi

/-! ## All turns -/

/-- The documents before and after updates, made one after the other; each is made where it is to be made
    at its time. -/
inductive Turns (format : Format) (settings : Settings) (place : Nat) :
    List (Value × Value) → List Document → List (List Nat) → List Document → Prop where
  | done (documents : List Document) : Turns format settings place [] documents [] documents
  | turn {key value : Value} {rest : List (Value × Value)} {before between after : List Document}
      {goals : List Nat} {later : List (List Nat)} : Goals format settings key place before goals →
      Edited format settings.keepIndent key value goals before between →
      Turns format settings place rest between later after →
      Turns format settings place ((key, value) :: rest) before (goals :: later) after

theorem applyInTurn_cons_eq_ok {key value : Value} {rest : List (Value × Value)} {place : Nat}
    {documents after : List Document} :
    (applyInTurn format settings place ((key, value) :: rest) documents).result = .ok after ↔
      ∃ goals between, targets format settings key place documents = .ok goals ∧
        (applyEach format settings key value goals documents).result = .ok between ∧
        (applyInTurn format settings place rest between).result = .ok after := by
  rw [applyInTurn, Run.bind_eq_ok]
  simp only [Run.result_ofExcept, Run.bind_eq_ok, exists_and_left]

theorem turns_of_applyInTurn {place : Nat} {updates : List (Value × Value)} {before after : List Document}
    (hplace : place < before.length) (h : (applyInTurn format settings place updates before).result = .ok after) :
    ∃ goals, Turns format settings place updates before goals after := by
  induction updates generalizing before with
  | nil =>
    cases h
    exact ⟨[], .done _⟩
  | cons update rest ih =>
    obtain ⟨key, value⟩ := update
    obtain ⟨goals, between, htargets, heach, h⟩ := applyInTurn_cons_eq_ok.mp h
    have hgoals := goals_of_targets htargets
    obtain ⟨hnodup, hinside⟩ := hgoals.inside hplace
    have hedited := edited_of_applyEach hnodup hinside heach
    obtain ⟨later, hlater⟩ := ih (hedited.length ▸ hplace) h
    exact ⟨goals :: later, .turn hgoals hedited hlater⟩

theorem Turns.others {place : Nat} {updates : List (Value × Value)} {before after : List Document}
    {goals : List (List Nat)} (h : Turns format settings place updates before goals after) {i : Nat}
    (hi : ∀ g ∈ goals, i ∉ g) : after[i]? = before[i]? := by
  induction h with
  | done _ => rfl
  | turn _ hedited _ ih =>
    obtain ⟨hfirst, hlater⟩ := List.forall_mem_cons.mp hi
    rw [ih hlater, hedited.other i hfirst]

theorem Turns.separators {place : Nat} {updates : List (Value × Value)} {before after : List Document}
    {goals : List (List Nat)} (h : Turns format settings place updates before goals after) :
    after.map Document.separator = before.map Document.separator := by
  induction h with
  | done _ => rfl
  | turn _ hedited _ ih => rw [ih, hedited.separators]

theorem Turns.closed (hformat : format.EndsLines) {place : Nat} {updates : List (Value × Value)}
    {before after : List Document} {goals : List (List Nat)}
    (h : Turns format settings place updates before goals after) (hbefore : ∀ d ∈ before.dropLast, IsClosed d.body) :
    ∀ d ∈ after.dropLast, IsClosed d.body := by
  induction h with
  | done _ => exact hbefore
  | turn _ hedited _ ih => exact ih (hedited.closed hformat hbefore)

/-! ## A stream -/

/-- What updates leave of a stream: the documents, and for each update the places of those in which it was
    made. -/
structure StreamEdit (format : Format) (settings : Settings) (updates : List (Value × Value)) (text : Text)
    (goals : List (List Nat)) (documents : List Document) : Prop where
  turns : Turns format settings ((Stream.placeForNew? (Stream.split text)).getD 0) updates (Stream.split text) goals documents
  separators : documents.map Document.separator = (Stream.split text).map Document.separator
  /-- A document in which no update was made is as it was. -/
  others : ∀ i, (∀ g ∈ goals, i ∉ g) → documents[i]? = (Stream.split text)[i]?
  closed : ∀ d ∈ documents.dropLast, IsClosed d.body
  /-- No documents fuse. -/
  split_join : (∀ d ∈ documents, Stream.Unseparated d.body) → Stream.split (Stream.join documents) = documents

theorem applyToStream_eq_ok {updates : List (Value × Value)} {text result : Text} :
    (applyToStream format settings updates text).result = .ok result ↔ ∃ documents,
      (applyInTurn format settings ((Stream.placeForNew? (Stream.split text)).getD 0) updates
        (Stream.split text)).result = .ok documents ∧ result = Stream.join documents := by
  rw [applyToStream, Run.bind_eq_ok]
  simp only [Run.result_pure, Except.ok.injEq, eq_comm]

theorem streamEdit_of_turns (hformat : format.EndsLines) {updates : List (Value × Value)} {text : Text}
    {goals : List (List Nat)} {documents : List Document} (h : Turns format settings
      ((Stream.placeForNew? (Stream.split text)).getD 0) updates (Stream.split text) goals documents) :
    StreamEdit format settings updates text goals documents := by
  have hwell := Stream.wellFormed_split text
  have hclosed := h.closed hformat hwell.closed
  refine ⟨h, h.separators, fun _ hi => h.others hi, hclosed, fun hbodies => ?_⟩
  exact Stream.split_join (hwell.of_separators h.separators hbodies hclosed)

/-- A stream after its updates has the documents that it had, and they are found in it again. -/
theorem applyToStream_documents (hformat : format.EndsLines) {updates : List (Value × Value)} {text result : Text}
    (h : (applyToStream format settings updates text).result = .ok result) :
    ∃ goals documents, StreamEdit format settings updates text goals documents ∧ result = Stream.join documents := by
  obtain ⟨documents, hdocuments, rfl⟩ := applyToStream_eq_ok.mp h
  obtain ⟨goals, hturns⟩ := turns_of_applyInTurn (placeForNew?_lt (Stream.split_ne_nil text)) hdocuments
  exact ⟨goals, documents, streamEdit_of_turns hformat hturns, rfl⟩

/-- The key is in the last of three documents; the first is blank. -/
theorem applyToStream_documents_last_holds :
    Format.yaml.EndsLines ∧
    (applyToStream Format.yaml {} [(.str "b".toList, .str "y".toList)] "---\na: 1\n---\nb: x\n".toList).result =
      .ok "---\na: 1\n---\nb: y\n".toList ∧
    ∃ goals documents, StreamEdit Format.yaml {} [(.str "b".toList, .str "y".toList)] "---\na: 1\n---\nb: x\n".toList
      goals documents ∧ "---\na: 1\n---\nb: y\n".toList = Stream.join documents := by
  have hsplit : Stream.split "---\na: 1\n---\nb: x\n".toList = [⟨[], []⟩, ⟨['-', '-', '-', '\n'], ['a', ':', ' ', '1', '\n']⟩,
      ⟨['-', '-', '-', '\n'], ['b', ':', ' ', 'x', '\n']⟩] := by decide
  have hblank : Format.yaml.read [] = .ok .null := by cbv
  have hfirst : Format.yaml.read ['a', ':', ' ', '1', '\n'] = .ok (.map [(.str ['a'], .int 1)]) := by cbv
  have hlast : Format.yaml.read ['b', ':', ' ', 'x', '\n'] = .ok (.map [(.str ['b'], .str ['x'])]) := by cbv
  have hother : Value.valueUnder? [(.str ['a'], .int 1)] (.str ['b']) = none := by cbv
  have hexisting : Value.valueUnder? [(.str ['b'], .str ['x'])] (.str ['b']) = some (.str ['x']) := by cbv
  have hdiffers : Value.agrees (.str ['x']) (.str ['y']) = false := by cbv
  have hlocated : Region.ofKey? ['b'] ['b', ':', ' ', 'x', '\n'] = some ⟨0, 5, [], [' ', 'x', '\n']⟩ := by decide
  have hwrite : Render.entryKeepingKey Format.yaml false ['b'] (.str ['y']) = .ok ['b', ':', ' ', 'y', '\n'] := rfl
  have htargets : targets Format.yaml {} (.str ['b']) 1 (Stream.split "---\na: 1\n---\nb: x\n".toList) = .ok [2] := by
    simp only [hsplit, targets, holder?, hblank, hfirst, hlast, hother, hexisting, bind, Except.bind, pure, Except.pure]
    rfl
  have hbody : (apply Format.yaml false (.str ['b']) (.str ['y']) ['b', ':', ' ', 'x', '\n']).result =
      .ok ['b', ':', ' ', 'y', '\n'] := by
    have hwhole : Text.closeLine ['b', ':', ' ', 'x', '\n'] = ['b', ':', ' ', 'x', '\n'] := rfl
    rw [← hwhole] at hlast hlocated
    exact (Outcome.replaced _ _ _ _ hlast (Or.inl rfl) hexisting hdiffers hlocated hwrite).apply_eq_ok
  have hplace : (Stream.placeForNew? (Stream.split "---\na: 1\n---\nb: x\n".toList)).getD 0 = 1 := by
    rw [hsplit]
    rfl
  have hthird : (Stream.split "---\na: 1\n---\nb: x\n".toList)[2]? = some ⟨['-', '-', '-', '\n'], ['b', ':', ' ', 'x', '\n']⟩ := by
    rw [hsplit]
    rfl
  have hresult : (applyToStream Format.yaml {} [(.str "b".toList, .str "y".toList)] "---\na: 1\n---\nb: x\n".toList).result =
      .ok "---\na: 1\n---\nb: y\n".toList := by
    have hchanged : (applyAt Format.yaml {} (.str "b".toList) (.str "y".toList)
        (Stream.split "---\na: 1\n---\nb: x\n".toList) 2).result = .ok _ := (applyAt_eq_ok hthird).mpr ⟨_, hbody, rfl⟩
    rw [applyToStream_eq_ok, hplace]
    refine ⟨_, applyInTurn_cons_eq_ok.mpr ⟨_, _, htargets, applyEach_cons_eq_ok.mpr ⟨_, hchanged, rfl⟩, rfl⟩, ?_⟩
    rw [hsplit]
    rfl
  exact ⟨Format.yaml_endsLines, hresult, applyToStream_documents Format.yaml_endsLines hresult⟩

end Edit
end YamlSplice
