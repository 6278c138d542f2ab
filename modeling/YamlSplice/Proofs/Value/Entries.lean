/-
  YamlSplice.Proofs.Value.Entries — mappings made of pairs, and the entries that a name calls.

  - `filter_ofPairs`: entries may be told apart before or after a mapping is made of them, by any test
    that does not tell apart what is the same key.
  - `isCalled_str_iff`: text calls the keys that read the same.
  - `valueUnder?_of_filter` / `valueUnder?_congr`: what is found under a key depends on the entries that
    it calls alone, and what a name does not call is found without those that it calls.
  - `agreesItems_iff` / `agreesEntries_iff`: agreement of sequences and mappings, by their parts.
-/

import Mathlib.Data.List.Induction
import Mathlib.Data.List.Find
import Mathlib.Data.List.Forall2
import YamlSplice.Value.Agreement

namespace YamlSplice.Value

/-! ## Atoms -/

/-- The absent value, a whole number, a text or a date. -/
def isAtom : Value → Bool
  | null | int _ | str _ | date _ => true
  | _ => false

/-- Atoms are the same only as themselves. -/
theorem same_atom_iff {a b : Value} (ha : a.isAtom = true) (hb : b.isAtom = true) : same a b = true ↔ a = b := by
  cases a <;> cases ha
  all_goals cases b <;> cases hb
  all_goals simp [same, sameNumber, quantity?, Quantity.same]

/-! ## Mappings of pairs -/

theorem ofPairs_concat (pairs : List (Value × Value)) (pair : Value × Value) :
    ofPairs (pairs ++ [pair]) = put (ofPairs pairs) pair.1 pair.2 := by
  simp [ofPairs, List.foldl_append]

theorem key_mem_put {entries : List (Value × Value)} {key value : Value} {e : Value × Value}
    (h : e ∈ put entries key value) : e.1 = key ∨ ∃ old ∈ entries, e.1 = old.1 := by
  induction entries with
  | nil => exact Or.inl (by simp only [put, List.mem_singleton] at h; rw [h])
  | cons first rest ih =>
    unfold put at h
    split at h
    · rcases List.mem_cons.mp h with rfl | h
      · exact Or.inr ⟨first, List.mem_cons_self, rfl⟩
      · exact Or.inr ⟨e, List.mem_cons_of_mem _ h, rfl⟩
    · rcases List.mem_cons.mp h with rfl | h
      · exact Or.inr ⟨first, List.mem_cons_self, rfl⟩
      · rcases ih h with h | ⟨old, hold, h⟩
        · exact Or.inl h
        · exact Or.inr ⟨old, List.mem_cons_of_mem _ hold, h⟩

/-- The keys of a mapping are keys of its pairs. -/
theorem key_mem_ofPairs {pairs : List (Value × Value)} {e : Value × Value} (h : e ∈ ofPairs pairs) :
    ∃ pair ∈ pairs, e.1 = pair.1 := by
  induction pairs using List.reverseRecOn generalizing e with
  | nil => simp [ofPairs] at h
  | append_singleton front last ih =>
    rw [ofPairs_concat] at h
    rcases key_mem_put h with h | ⟨old, hold, h⟩
    · exact ⟨last, by simp, h⟩
    · obtain ⟨pair, hpair, hold⟩ := ih hold
      exact ⟨pair, by simp [hpair], h.trans hold⟩

theorem put_of_new {entries : List (Value × Value)} {key : Value} (h : ∀ e ∈ entries, same e.1 key = false)
    (value : Value) : put entries key value = entries ++ [(key, value)] := by
  induction entries with
  | nil => rfl
  | cons first rest ih =>
    have ih := ih fun e he => h e (List.mem_cons_of_mem _ he)
    simp [put, h first List.mem_cons_self, ih]

/-- Pairs of which no two have the same key are a mapping already. -/
theorem ofPairs_eq_self {pairs : List (Value × Value)}
    (h : pairs.Pairwise fun a b => same a.1 b.1 = false) : ofPairs pairs = pairs := by
  induction pairs using List.reverseRecOn with
  | nil => rfl
  | append_singleton front last ih =>
    rw [List.pairwise_append] at h
    rw [ofPairs_concat, ih h.1, put_of_new fun e he => h.2.2 e he last List.mem_cons_self]

theorem filter_put {p : Value → Bool} {entries : List (Value × Value)} {key value : Value}
    (h : ∀ e ∈ entries, same e.1 key = true → p e.1 = p key) :
    (put entries key value).filter (p ·.1) =
      if p key then put (entries.filter (p ·.1)) key value else entries.filter (p ·.1) := by
  induction entries with
  | nil => cases hp : p key <;> simp [put, hp]
  | cons first rest ih =>
    have ih := ih fun e he => h e (List.mem_cons_of_mem _ he)
    by_cases hs : same first.1 key = true
    · have hp := h first List.mem_cons_self hs
      cases hk : p key <;> simp [put, hs, hp, hk]
    · have hput : ∀ rest, put (first :: rest) key value = first :: put rest key value := by simp [put, hs]
      rw [hput, List.filter_cons, List.filter_cons, ih]
      cases hk : p key <;> cases hf : p first.1 <;> simp [hput]

/-- Keys that a test tells apart are not the same. -/
def ToldApart (p : Value → Bool) (pairs : List (Value × Value)) : Prop :=
  ∀ a ∈ pairs, ∀ b ∈ pairs, same a.1 b.1 = true → p a.1 = p b.1

theorem filter_ofPairs {p : Value → Bool} {pairs : List (Value × Value)} (h : ToldApart p pairs) :
    (ofPairs pairs).filter (p ·.1) = ofPairs (pairs.filter (p ·.1)) := by
  induction pairs using List.reverseRecOn with
  | nil => rfl
  | append_singleton front last ih =>
    have ih := ih fun a ha b hb => h a (by simp [ha]) b (by simp [hb])
    have hlast : ∀ e ∈ ofPairs front, same e.1 last.1 = true → p e.1 = p last.1 := by
      intro e he hs
      obtain ⟨pair, hpair, hkey⟩ := key_mem_ofPairs he
      rw [hkey] at hs ⊢
      exact h pair (by simp [hpair]) last (by simp) hs
    rw [ofPairs_concat, filter_put hlast, ih, List.filter_append]
    cases hp : p last.1 <;> simp [hp, ofPairs_concat]

theorem ToldApart.ofPairs {p : Value → Bool} {pairs : List (Value × Value)} (h : ToldApart p pairs) :
    ToldApart p (ofPairs pairs) := by
  intro a ha b hb hs
  obtain ⟨first, hfirst, ha⟩ := key_mem_ofPairs ha
  obtain ⟨second, hsecond, hb⟩ := key_mem_ofPairs hb
  rw [ha, hb] at hs ⊢
  exact h first hfirst second hsecond hs

/-! ## Keys called by a name -/

theorem keyText_eq_written {key : Value} (h : key.type ≠ .bool) : keyText key = written key := by
  cases key <;> first | rfl | exact absurd rfl h

theorem isCalled_self (key : Value) : isCalled key key = true := by
  by_cases h : key.type = .bool
  · cases key with
    | bool b => simp [isCalled, same, sameNumber, quantity?, Quantity.same]
    | back shape => cases shape <;> cases h
    | _ => cases h
  · simp [isCalled, keyText_eq_written h]

theorem isCalled_str_iff {key : Value} {name : Text} :
    isCalled key (.str name) = true ↔ keyText key = name := by
  constructor
  · intro h
    simp only [isCalled, Bool.or_eq_true, Bool.and_eq_true, beq_iff_eq] at h
    rcases h with ⟨hsame, htype⟩ | h
    · cases key with
      | str text => simpa [same, keyText, written] using hsame
      | back shape => cases shape <;> cases htype
      | _ => cases htype
    · exact h
  · rintro rfl
    simp [isCalled, written]

/-- A key is called by one name only. -/
theorem isCalled_other {key : Value} {name other : Text} (h : isCalled key (.str name) = true) (hne : other ≠ name) :
    isCalled key (.str other) = false :=
  Bool.eq_false_iff.mpr fun hcalled => hne ((isCalled_str_iff.mp hcalled).symm.trans (isCalled_str_iff.mp h))

/-- A name that calls a key calls also what that key calls, unless the keys are the same. -/
theorem keyText_of_isCalled {key other : Value} {name : Text} (hname : keyText key = name)
    (htype : key.type = other.type) (hcalled : isCalled key other = true) (hsame : same key other = false) :
    keyText other = name := by
  have hread : keyText key = written other := by
    simpa [isCalled, hsame] using hcalled
  by_cases h : other.type = .bool
  · cases other with
    | bool b =>
      cases key with
      | bool a => cases a <;> cases b <;> cases hread
      | back shape => cases shape <;> cases htype
      | _ => cases htype
    | back shape => cases shape <;> cases h
    | _ => cases h
  · rw [keyText_eq_written h, ← hread, hname]

/-! ## Values found -/

theorem valueUnder?_of_filter {entries : List (Value × Value)} {key : Value} {e : Value × Value}
    (h : entries.filter (fun e => isCalled e.1 key) = [e]) : valueUnder? entries key = some e.2 := by
  simp only [valueUnder?, h]
  cases ht : e.1.type == key.type <;> simp [ht]

/-- What is found is the value of an entry that the key calls. -/
theorem mem_of_valueUnder? {entries : List (Value × Value)} {key found : Value} (h : valueUnder? entries key = some found) :
    ∃ e ∈ entries, isCalled e.1 key = true ∧ e.2 = found := by
  have hmem : ∀ e ∈ entries.filter (fun e => isCalled e.1 key), e ∈ entries ∧ isCalled e.1 key = true := fun e he =>
    List.mem_filter.mp he
  rw [valueUnder?] at h
  split at h
  · next e hfind =>
    obtain ⟨he, hcalled⟩ := hmem e (List.mem_of_find?_eq_some hfind)
    exact ⟨e, he, hcalled, Option.some.inj h⟩
  · obtain ⟨e, hhead, hvalue⟩ := Option.map_eq_some_iff.mp h
    obtain ⟨he, hcalled⟩ := hmem e (List.mem_of_head? hhead)
    exact ⟨e, he, hcalled, hvalue⟩

theorem valueUnder?_eq_none_iff {entries : List (Value × Value)} {key : Value} :
    valueUnder? entries key = none ↔ ∀ e ∈ entries, isCalled e.1 key = false := by
  have hfilter : entries.filter (fun e => isCalled e.1 key) = [] ↔ ∀ e ∈ entries, isCalled e.1 key = false := by
    simp [List.filter_eq_nil_iff]
  rw [← hfilter, valueUnder?]
  cases entries.filter (fun e => isCalled e.1 key) with
  | nil => simp
  | cons first rest => cases (first :: rest).find? (fun e => e.1.type == key.type) <;> simp

theorem valueUnder?_congr {entries others : List (Value × Value)} {key : Value}
    (h : entries.filter (fun e => isCalled e.1 key) = others.filter fun e => isCalled e.1 key) :
    valueUnder? entries key = valueUnder? others key := by
  simp only [valueUnder?, h]

/-- Entries that a key does not call may be left out. -/
theorem valueUnder?_keeping {entries : List (Value × Value)} {key : Value} {p : Value × Value → Bool}
    (h : ∀ e, isCalled e.1 key = true → p e = true) : valueUnder? (entries.filter p) key = valueUnder? entries key := by
  refine valueUnder?_congr ?_
  rw [List.filter_filter]
  refine List.filter_congr fun e _ => ?_
  cases he : isCalled e.1 key with
  | false => rfl
  | true => rw [h e he]; rfl

theorem valueUnder?_isSome {entries : List (Value × Value)} {e : Value × Value} (h : e ∈ entries) :
    ∃ found, valueUnder? entries e.1 = some found := by
  cases hv : valueUnder? entries e.1 with
  | none => exact absurd (valueUnder?_eq_none_iff.mp hv e h) (by simp [isCalled_self])
  | some found => exact ⟨found, rfl⟩

/-- A value of the type of the key is found first. -/
theorem valueUnder?_of_find {entries : List (Value × Value)} {key : Value} {e : Value × Value}
    (h : entries.find? (fun e => isCalled e.1 key ∧ e.1.type == key.type) = some e) :
    valueUnder? entries key = some e.2 := by
  simp only [valueUnder?, List.find?_filter, h]

/-- What a name does not call is found without the entries that it calls. -/
theorem valueUnder?_filter {entries : List (Value × Value)} {name : Text} {e : Value × Value}
    (he : e ∈ entries) (hname : isCalled e.1 (.str name) = false)
    (hapart : ToldApart (isCalled · (.str name)) entries) :
    ∃ found, valueUnder? entries e.1 = some found ∧
      valueUnder? (entries.filter fun e => !isCalled e.1 (.str name)) e.1 = some found := by
  obtain ⟨first, hfirst⟩ : ∃ first,
      entries.find? (fun x => isCalled x.1 e.1 ∧ x.1.type == e.1.type) = some first :=
    Option.isSome_iff_exists.mp (List.find?_isSome.mpr ⟨e, he, by simp [isCalled_self]⟩)
  refine ⟨first.2, valueUnder?_of_find hfirst, valueUnder?_of_find ?_⟩
  rw [List.find?_filter, ← hfirst]
  refine List.find?_congr fun x hx => ?_
  -- an entry that is found under the key is not called by the name
  by_cases hfound : isCalled x.1 e.1 = true ∧ x.1.type = e.1.type
  · have hx : isCalled x.1 (.str name) = false := by
      by_contra hcalled
      rw [Bool.not_eq_false] at hcalled
      by_cases hsame : same x.1 e.1 = true
      · exact absurd (hapart x hx e he hsame) (by simp [hcalled, hname])
      · have := keyText_of_isCalled (isCalled_str_iff.mp hcalled) hfound.2 hfound.1 (by simpa using hsame)
        rw [isCalled_str_iff.mpr this] at hname
        cases hname
    simp [hx, hfound]
  · have hfound : ¬ (x.1.isCalled e.1 = true ∧ (x.1.type == e.1.type) = true) := by simpa using hfound
    simp only [hfound, decide_false, Bool.false_eq_true, and_false]

/-! ## Agreement -/

theorem agreesEntries_iff {entries desired : List (Value × Value)} :
    agreesEntries entries desired = true ↔
      ∀ e ∈ desired, ∃ found, valueUnder? entries e.1 = some found ∧ agrees found e.2 = true := by
  induction desired with
  | nil => simp [agreesEntries]
  | cons first rest ih =>
    rw [agreesEntries, Bool.and_eq_true, ih, List.forall_mem_cons]
    refine and_congr_left fun _ => ?_
    cases valueUnder? entries first.1 <;> simp

theorem agreesItems_iff {items desired : List Value} :
    agreesItems items desired = true ↔ List.Forall₂ (fun c d => agrees c d = true) items desired := by
  induction items generalizing desired with
  | nil => cases desired <;> simp [agreesItems]
  | cons c items ih => cases desired <;> simp [agreesItems, ih]

theorem agreesItems_self {values : List Value} (h : ∀ value ∈ values, agrees value value = true) :
    agreesItems values values = true :=
  agreesItems_iff.mpr (List.forall₂_same.mpr h)

end YamlSplice.Value
