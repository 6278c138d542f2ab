/-
  YamlSplice.Proofs.Value.Steady — values that agree with themselves.

  Not every value does: the number that is no number differs from itself. A value is steady if every
  scalar in it is the same as itself and all its keys are plain. To agree with itself it must also keep
  its keys apart, for each entry has to be found under its own key although other keys may read the same.
  - `Steady.same`: a steady value is the same as itself.
  - `valueUnder?_own`: a plain key finds its own entry.
  - `Steady.agrees`: a steady value that keeps its keys apart agrees with itself.
-/

import Mathlib.Data.List.Nodup
import YamlSplice.Proofs.Value.Entries

namespace YamlSplice

namespace Text

theorem ofNat_eq (n : Nat) : ofNat n = Nat.toDigits 10 n := by
  rw [ofNat, Nat.toString_eq_repr, Nat.toList_repr]

theorem ofNat_inj {m n : Nat} (h : ofNat m = ofNat n) : m = n := by
  rw [ofNat_eq, ofNat_eq] at h
  rw [← Nat.ofDigitChars_ten_toDigits (n := m), h, Nat.ofDigitChars_ten_toDigits]

theorem sign_not_mem_ofNat (n : Nat) : '-' ∉ ofNat n := by
  rw [ofNat_eq]
  intro h
  have := Nat.isDigit_of_mem_toDigits (by decide) (by decide) h
  revert this
  decide

/-- Different numbers are written differently. -/
theorem ofInt_inj {m n : Int} (h : ofInt m = ofInt n) : m = n := by
  unfold ofInt at h
  split at h <;> split at h
  · have := ofNat_inj (List.cons_injective h)
    omega
  · exact absurd (h ▸ List.mem_cons_self) (sign_not_mem_ofNat n.natAbs)
  · exact absurd (h ▸ List.mem_cons_self) (sign_not_mem_ofNat m.natAbs)
  · have := ofNat_inj h
    omega

end Text

namespace Value

/-- A text, a whole number, a truth value or the absent value. -/
def isPlainKey : Value → Bool
  | null | bool _ | int _ | str _ => true
  | _ => false

/-- The value has no parts but perhaps members. -/
def isLeaf : Value → Bool
  | list _ | tuple _ | map _ => false
  | _ => true

/-- Every scalar in the value is the same as itself, and every key of a mapping in it is plain. -/
inductive Steady : Value → Prop where
  | scalar {v : Value} : v.isLeaf = true → same v v = true → Steady v
  | list {items : List Value} : (∀ x ∈ items, Steady x) → Steady (.list items)
  | tuple {items : List Value} : (∀ x ∈ items, Steady x) → Steady (.tuple items)
  | set {members : List Value} : (∀ x ∈ members, Steady x) → Steady (.set members)
  | map {entries : List (Value × Value)} : (∀ e ∈ entries, e.1.isPlainKey = true) → (∀ e ∈ entries, Steady e.2) →
      Steady (.map entries)

/-- No mapping in the value has two keys that are the same. -/
inductive KeysApart : Value → Prop where
  | leaf {v : Value} : v.isLeaf = true → KeysApart v
  | list {items : List Value} : (∀ x ∈ items, KeysApart x) → KeysApart (.list items)
  | tuple {items : List Value} : (∀ x ∈ items, KeysApart x) → KeysApart (.tuple items)
  | map {entries : List (Value × Value)} : (entries.Pairwise fun a b => same a.1 b.1 = false) →
      (∀ e ∈ entries, KeysApart e.2) → KeysApart (.map entries)

/-! ## The same value -/

theorem same_of_isPlainKey {key : Value} (h : key.isPlainKey = true) : same key key = true := by
  cases key with
  | null | bool _ | int _ | str _ => simp [same, sameNumber, quantity?, Quantity.same]
  | _ => cases h

theorem sameItems_self {items : List Value} (h : ∀ x ∈ items, same x x = true) : sameItems items items = true := by
  induction items with
  | nil => simp [sameItems]
  | cons x items ih =>
    obtain ⟨hx, hitems⟩ := List.forall_mem_cons.mp h
    rw [sameItems, hx, ih hitems]
    rfl

theorem sameMembers_subset {members others : List Value} (h : ∀ x ∈ members, x ∈ others ∧ same x x = true) :
    sameMembers members others = true := by
  induction members with
  | nil => simp [sameMembers]
  | cons x members ih =>
    obtain ⟨⟨hx, hself⟩, hmembers⟩ := List.forall_mem_cons.mp h
    rw [sameMembers, ih hmembers, List.any_eq_true.mpr ⟨x, hx, hself⟩]
    rfl

theorem sameEntries_subset {entries others : List (Value × Value)}
    (h : ∀ e ∈ entries, e ∈ others ∧ same e.1 e.1 = true ∧ same e.2 e.2 = true) :
    sameEntries entries others = true := by
  induction entries with
  | nil => simp [sameEntries]
  | cons e entries ih =>
    obtain ⟨⟨he, hkey, hvalue⟩, hentries⟩ := List.forall_mem_cons.mp h
    have hany : (others.any fun other => same e.1 other.1 && same e.2 other.2) = true :=
      List.any_eq_true.mpr ⟨e, he, by rw [hkey, hvalue]; rfl⟩
    rw [sameEntries, ih hentries, hany]
    rfl

theorem Steady.same {v : Value} (h : Steady v) : Value.same v v = true := by
  induction h with
  | scalar _ hself => exact hself
  | list _ ih => rw [Value.same]; exact sameItems_self ih
  | tuple _ ih => rw [Value.same]; exact sameItems_self ih
  | set _ ih =>
    rw [Value.same, beq_self_eq_true, Bool.true_and]
    exact sameMembers_subset fun x hx => ⟨hx, ih x hx⟩
  | map hkeys _ ih =>
    rw [Value.same, beq_self_eq_true, Bool.true_and]
    exact sameEntries_subset fun e he => ⟨he, same_of_isPlainKey (hkeys e he), ih e he⟩

/-! ## Entries under their own keys -/

theorem same_bool {a b : Bool} (h : same (bool a) (bool b) = true) : a = b := by
  simp only [same, sameNumber, quantity?, Quantity.same] at h
  revert h
  cases a <;> cases b <;> decide

/-- As a key a truth value is written in small letters, but shown with a capital. -/
theorem keyText_bool_ne (a b : Bool) : keyText (bool a) ≠ written (bool b) := by
  intro h
  cases a <;> cases b <;> cases h

/-- A plain key calls no other key of its type. -/
theorem eq_of_isCalled {key other : Value} (hkey : key.isPlainKey = true) (htype : other.type = key.type)
    (hcalled : isCalled other key = true) : other = key := by
  have hread : same other key = true ∨ keyText other = written key := by
    simpa [isCalled, htype] using hcalled
  cases key with
  | null =>
    cases other with
    | null => rfl
    | back shape => cases shape <;> cases htype
    | _ => cases htype
  | bool b =>
    cases other with
    | bool a =>
      rcases hread with hsame | hwritten
      · rw [same_bool hsame]
      · exact absurd hwritten (keyText_bool_ne a b)
    | back shape => cases shape <;> cases htype
    | _ => cases htype
  | int n =>
    cases other with
    | int m =>
      rcases hread with hsame | hwritten
      · simpa [same, sameNumber, quantity?, Quantity.same] using hsame
      · rw [Text.ofInt_inj hwritten]
    | back shape => cases shape <;> cases htype
    | _ => cases htype
  | str name =>
    cases other with
    | str text =>
      rcases hread with hsame | hwritten
      · simpa [same] using hsame
      · exact congrArg Value.str hwritten
    | back shape => cases shape <;> cases htype
    | _ => cases htype
  | _ => cases hkey

theorem keys_nodup {entries : List (Value × Value)} (hplain : ∀ e ∈ entries, e.1.isPlainKey = true)
    (hapart : entries.Pairwise fun a b => same a.1 b.1 = false) : (entries.map (·.1)).Nodup := by
  rw [List.nodup_iff_pairwise_ne, List.pairwise_map]
  refine hapart.imp_of_mem fun {a b} ha _ hne heq => ?_
  rw [← heq, same_of_isPlainKey (hplain a ha)] at hne
  cases hne

/-- A plain key finds its own entry, whatever other keys read the same. -/
theorem valueUnder?_own {entries : List (Value × Value)} (hplain : ∀ e ∈ entries, e.1.isPlainKey = true)
    (hapart : entries.Pairwise fun a b => same a.1 b.1 = false) {e : Value × Value} (he : e ∈ entries) :
    valueUnder? entries e.1 = some e.2 := by
  obtain ⟨found, hfound⟩ : ∃ found, entries.find? (fun x => isCalled x.1 e.1 ∧ x.1.type == e.1.type) = some found :=
    Option.isSome_iff_exists.mp (List.find?_isSome.mpr ⟨e, he, by simp [isCalled_self]⟩)
  have hcalled : isCalled found.1 e.1 = true ∧ found.1.type = e.1.type := by simpa using List.find?_some hfound
  have hkey := eq_of_isCalled (hplain e he) hcalled.2 hcalled.1
  have hsame : found = e :=
    List.inj_on_of_nodup_map (keys_nodup hplain hapart) (List.mem_of_find?_eq_some hfound) he hkey
  rw [valueUnder?_of_find hfound, hsame]

/-! ## Agreement -/

theorem agrees_of_same {v : Value} (hleaf : v.isLeaf = true) (h : same v v = true) : agrees v v = true := by
  cases v with
  | list _ | tuple _ | map _ => cases hleaf
  | bool b => simp [agrees]
  | _ => simpa [agrees] using h

/-- A steady value agrees with itself. -/
theorem Steady.agrees {v : Value} (h : Steady v) (hapart : KeysApart v) : Value.agrees v v = true := by
  induction h with
  | scalar hleaf hself => exact agrees_of_same hleaf hself
  | list _ ih =>
    cases hapart with
    | leaf hleaf => cases hleaf
    | list hitems => rw [Value.agrees]; exact agreesItems_self fun x hx => ih x hx (hitems x hx)
  | tuple _ ih =>
    cases hapart with
    | leaf hleaf => cases hleaf
    | tuple hitems => rw [Value.agrees]; exact agreesItems_self fun x hx => ih x hx (hitems x hx)
  | set hmembers _ => exact agrees_of_same rfl (Steady.set hmembers).same
  | map hkeys _ ih =>
    cases hapart with
    | leaf hleaf => cases hleaf
    | map hpairs hvalues =>
      rw [Value.agrees, beq_self_eq_true, Bool.true_and, agreesEntries_iff]
      exact fun e he => ⟨e.2, valueUnder?_own hkeys hpairs he, ih e he (hvalues e he)⟩

end Value
end YamlSplice
