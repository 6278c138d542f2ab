/-
  YamlSplice.Proofs.Value.Accord — what it means that a value is what an update asks for.

  `agrees` looks every desired key up and compares the numbers of entries, no more. `Accords` says
  what that comes to: the entries of two mappings go together one to one, each with the one whose key
  is its own key as written. No key of the document is left over, for different names find different
  entries, and there are no more entries than names.
  - `Quantity.same_iff_equal`: numbers are compared as the rational numbers that they stand for.
  - `paired_iff`: entries that are found by their names go together one to one.
  - `agrees_iff_accords`: a value agrees with a desired one, whose keys are names, if they accord.
-/

import Mathlib.Algebra.Order.Field.Rat
import Mathlib.Data.Int.CharZero
import Mathlib.Data.List.Perm.Basic
import Mathlib.Data.List.Perm.Subperm
import YamlSplice.Proofs.Value.Steady

namespace YamlSplice

namespace Quantity

/-- The two stand for one rational number, or for infinities of one sign. -/
inductive Equal : Quantity → Quantity → Prop where
  | finite {m q n r : Int} : (m : ℚ) * 2 ^ q = n * 2 ^ r → Equal (.finite m q) (.finite n r)
  | infinite (negative : Bool) : Equal (.infinite negative) (.infinite negative)

/-- A multiple of a lower power of two. -/
theorem mul_two_zpow {low q : Int} (h : low ≤ q) (m : Int) :
    (m : ℚ) * 2 ^ q = (m * Nat.pow 2 (q - low).toNat : Int) * 2 ^ low := by
  have hpow : (2 : ℚ) ^ q = 2 ^ (q - low).toNat * 2 ^ low := by
    rw [← zpow_natCast, ← zpow_add₀ two_ne_zero, Int.toNat_of_nonneg (by omega), Int.sub_add_cancel]
  rw [hpow, ← mul_assoc, Nat.pow_eq, Int.cast_mul, Int.cast_natCast, Nat.cast_pow, Nat.cast_ofNat]

theorem same_finite_iff {m q n r : Int} :
    (finite m q).same (finite n r) = true ↔ (m : ℚ) * 2 ^ q = n * 2 ^ r := by
  have hlow : (2 : ℚ) ^ min q r ≠ 0 := zpow_ne_zero _ two_ne_zero
  rw [same, beq_iff_eq, mul_two_zpow (Int.min_le_left q r), mul_two_zpow (Int.min_le_right q r),
    mul_left_inj' hlow, Int.cast_inj]

theorem same_iff_equal {a b : Quantity} : a.same b = true ↔ Equal a b := by
  constructor
  · intro h
    cases a with
    | finite m q =>
      cases b with
      | finite n r => exact .finite (same_finite_iff.mp h)
      | infinite _ => cases h
    | infinite s =>
      cases b with
      | finite _ _ => cases h
      | infinite t =>
        obtain rfl : s = t := by simpa [same] using h
        exact .infinite s
  · rintro (h | s)
    · exact same_finite_iff.mpr h
    · exact beq_self_eq_true s

end Quantity

namespace Value

/-- The keys of every mapping in the value are texts. -/
inductive TextKeyed : Value → Prop where
  | leaf {v : Value} : v.isLeaf = true → TextKeyed v
  | list {items : List Value} : (∀ x ∈ items, TextKeyed x) → TextKeyed (.list items)
  | tuple {items : List Value} : (∀ x ∈ items, TextKeyed x) → TextKeyed (.tuple items)
  | map {entries : List (Value × Value)} : (∀ e ∈ entries, ∃ name, e.1 = .str name) → (∀ e ∈ entries, TextKeyed e.2) →
      TextKeyed (.map entries)

/-- The value is a number; truth values are none. -/
def isNumber : Value → Bool
  | int _ | float _ => true
  | _ => false

/-- The items of a sequence. -/
def items? : Value → Option (List Value)
  | list items | tuple items => some items
  | _ => none

/-- The value is not a truth value, a number, a sequence or a mapping, and is compared as a whole. -/
def isWhole : Value → Bool
  | bool _ | int _ | float _ | list _ | tuple _ | map _ => false
  | _ => true

/-- The value on the left is what the one on the right asks for.

    A truth value accords with none but itself, a number with an equal number, and a sequence with one of either type, item
    by item. The entries of two mappings go together one to one: those on the right can be put in such an order that each
    has the key of its counterpart on the left, as it is written. All else has to be the same, and of one type. -/
inductive Accords : Value → Value → Prop where
  | truth (b : Bool) : Accords (.bool b) (.bool b)
  | number {c d : Value} {m n : Quantity} : c.isNumber = true → d.isNumber = true → c.quantity? = some m →
      d.quantity? = some n → m.Equal n → Accords c d
  | sequence {c d : Value} {items others : List Value} : c.items? = some items → d.items? = some others →
      List.Forall₂ Accords items others → Accords c d
  | mapping {entries desired matched : List (Value × Value)} : matched.Perm desired →
      List.Forall₂ (fun e d => d.1 = .str (keyText e.1)) entries matched →
      List.Forall₂ (fun e d => Accords e.2 d.2) entries matched → Accords (.map entries) (.map desired)
  | whole {c d : Value} : d.isWhole = true → c.type = d.type → same c d = true → Accords c d

/-! ## Entries found by their names -/

theorem exists_of_forall₂ {α β : Type} {R : α → β → Prop} {xs : List α} {ys : List β} (h : List.Forall₂ R xs ys)
    {y : β} (hy : y ∈ ys) : ∃ x ∈ xs, R x y := by
  induction h with
  | nil => cases hy
  | cons hfirst _ ih =>
    rcases List.mem_cons.mp hy with rfl | hy
    · exact ⟨_, List.mem_cons_self, hfirst⟩
    · obtain ⟨x, hx, hrelated⟩ := ih hy
      exact ⟨x, List.mem_cons_of_mem _ hx, hrelated⟩

theorem forall₂_iff_of_mem {α β : Type} {R S : α → β → Prop} {xs : List α} {ys : List β}
    (h : ∀ y ∈ ys, ∀ x, R x y ↔ S x y) : List.Forall₂ R xs ys ↔ List.Forall₂ S xs ys := by
  rw [List.forall₂_iff_zip, List.forall₂_iff_zip]
  exact and_congr_right fun _ =>
    ⟨fun hR _ _ hp => (h _ (List.of_mem_zip hp).2 _).mp (hR hp), fun hS _ _ hp => (h _ (List.of_mem_zip hp).2 _).mpr (hS hp)⟩

section Paired

variable {R : Value → Value → Prop} {entries desired : List (Value × Value)}

/-- The entries of two mappings go together one to one, by keys as written, and their values are related. -/
def Paired (R : Value → Value → Prop) (entries desired : List (Value × Value)) : Prop :=
  ∃ matched : List (Value × Value), matched.Perm desired ∧
    List.Forall₂ (fun e d => d.1 = .str (keyText e.1) ∧ R e.2 d.2) entries matched

theorem Paired.perm_keys (h : Paired R entries desired) :
    (entries.map fun e => Value.str (keyText e.1)).Perm (desired.map (·.1)) := by
  obtain ⟨matched, hperm, hpairs⟩ := h
  have hkeys : List.Forall₂ (· = ·) (entries.map fun e => Value.str (keyText e.1)) (matched.map (·.1)) := by
    rw [List.forall₂_map_left_iff, List.forall₂_map_right_iff]
    exact hpairs.imp fun _ _ h => h.1.symm
  rw [List.forall₂_eq_eq_eq] at hkeys
  exact hkeys ▸ hperm.map (·.1)

/-- As many entries as names, and each name finds one: then the keys are the names, in some order. -/
theorem perm_keys_of_found (hkeys : ∀ d ∈ desired, ∃ name, d.1 = .str name) (hnodup : (desired.map (·.1)).Nodup)
    (hlength : entries.length = desired.length) (hfound : ∀ d ∈ desired, ∃ found, valueUnder? entries d.1 = some found) :
    (entries.map fun e => Value.str (keyText e.1)).Perm (desired.map (·.1)) := by
  have hsubset : desired.map (·.1) ⊆ entries.map fun e => Value.str (keyText e.1) := by
    intro key hkey
    obtain ⟨d, hd, rfl⟩ := List.mem_map.mp hkey
    obtain ⟨name, hname⟩ := hkeys d hd
    obtain ⟨found, hfound⟩ := hfound d hd
    obtain ⟨e, he, hcalled, -⟩ := mem_of_valueUnder? hfound
    rw [hname, isCalled_str_iff] at hcalled
    exact List.mem_map.mpr ⟨e, he, by rw [hcalled, hname]⟩
  -- the names are all different, and there are no more entries than names
  have hsame := (hnodup.subperm hsubset).perm_of_length_le (by simp [hlength])
  exact hsame.symm

theorem nodup_keyTexts (hnodup : (desired.map (·.1)).Nodup)
    (h : (entries.map fun e => Value.str (keyText e.1)).Perm (desired.map (·.1))) :
    (entries.map fun e => keyText e.1).Nodup := by
  refine List.Nodup.of_map Value.str ?_
  rw [List.map_map]
  exact h.nodup_iff.mpr hnodup

/-- An entry is found under its key as written, if no other key is written so. -/
theorem valueUnder?_of_nodup (hnodup : (entries.map fun e => keyText e.1).Nodup) {e : Value × Value} (he : e ∈ entries) :
    valueUnder? entries (.str (keyText e.1)) = some e.2 := by
  have hcalled : isCalled e.1 (.str (keyText e.1)) = true := isCalled_str_iff.mpr rfl
  cases hv : valueUnder? entries (.str (keyText e.1)) with
  | none => exact absurd (valueUnder?_eq_none_iff.mp hv e he) (by simp [hcalled])
  | some found =>
    obtain ⟨other, hother, hname, rfl⟩ := mem_of_valueUnder? hv
    rw [List.inj_on_of_nodup_map hnodup hother he (isCalled_str_iff.mp hname)]

/-- To look every name up and to count the entries is enough. -/
theorem paired_iff (hkeys : ∀ d ∈ desired, ∃ name, d.1 = .str name) (hnodup : (desired.map (·.1)).Nodup) :
    Paired R entries desired ↔ entries.length = desired.length ∧
      ∀ d ∈ desired, ∃ found, valueUnder? entries d.1 = some found ∧ R found d.2 := by
  constructor
  · intro h
    have hapart := nodup_keyTexts hnodup h.perm_keys
    obtain ⟨matched, hperm, hpairs⟩ := h
    refine ⟨hpairs.length_eq.trans hperm.length_eq, fun d hd => ?_⟩
    obtain ⟨e, he, hkey, hvalue⟩ := exists_of_forall₂ hpairs (hperm.mem_iff.mpr hd)
    exact ⟨e.2, hkey ▸ valueUnder?_of_nodup hapart he, hvalue⟩
  · rintro ⟨hlength, hfound⟩
    have hperm := perm_keys_of_found hkeys hnodup hlength fun d hd => (hfound d hd).imp fun _ h => h.1
    have hapart := nodup_keyTexts hnodup hperm
    have hnames : List.Forall₂ (fun key d => d.1 = key) (desired.map (·.1)) desired :=
      List.forall₂_map_left_iff.mpr (List.forall₂_same.mpr fun _ _ => rfl)
    obtain ⟨matched, hmatched, hdesired⟩ := List.perm_comp_forall₂ hperm hnames
    rw [List.forall₂_map_left_iff] at hmatched
    refine ⟨matched, hdesired, List.forall₂_iff_zip.mpr ⟨hmatched.length_eq, fun {e d} hpair => ?_⟩⟩
    have hkey : d.1 = .str (keyText e.1) := List.forall₂_zip hmatched hpair
    obtain ⟨he, hd⟩ := List.of_mem_zip hpair
    obtain ⟨found, hvalue, hrelated⟩ := hfound d (hdesired.mem_iff.mp hd)
    rw [hkey, valueUnder?_of_nodup hapart he] at hvalue
    exact ⟨hkey, Option.some.inj hvalue ▸ hrelated⟩

end Paired

/-! ## Agreement, kind by kind -/

theorem isNumber_cases {v : Value} (h : v.isNumber = true) : (∃ n, v = .int n) ∨ ∃ x, v = .float x := by
  cases v with
  | int n => exact .inl ⟨n, rfl⟩
  | float x => exact .inr ⟨x, rfl⟩
  | _ => cases h

theorem items?_cases {v : Value} {items : List Value} (h : v.items? = some items) : v = .list items ∨ v = .tuple items := by
  cases v with
  | list own => exact .inl (congrArg _ (Option.some.inj h))
  | tuple own => exact .inr (congrArg _ (Option.some.inj h))
  | _ => cases h

theorem sameNumber_iff {c d : Value} :
    sameNumber c d = true ↔ ∃ m n, c.quantity? = some m ∧ d.quantity? = some n ∧ m.Equal n := by
  unfold sameNumber
  cases c.quantity? <;> cases d.quantity? <;> simp [Quantity.same_iff_equal]

theorem agrees_truth_iff {c : Value} {b : Bool} : agrees c (.bool b) = true ↔ Accords c (.bool b) := by
  constructor
  · intro h
    cases c with
    | bool a =>
      obtain rfl : a = b := by simpa [agrees] using h
      exact .truth a
    | _ => cases h
  · intro h
    cases h with
    | truth _ => simp [agrees]
    | number _ hnumber => cases hnumber
    | sequence _ hitems => cases hitems
    | whole hwhole => cases hwhole

theorem agrees_number_iff {c d : Value} (hd : d.isNumber = true) : agrees c d = true ↔ Accords c d := by
  have hagrees : agrees c d = true ↔ c.isNumber = true ∧ sameNumber c d = true := by
    rcases isNumber_cases hd with ⟨n, rfl⟩ | ⟨x, rfl⟩ <;> cases c <;> simp [agrees, same, isNumber]
  rw [hagrees, sameNumber_iff]
  constructor
  · rintro ⟨hc, m, n, hm, hn, hequal⟩
    exact .number hc hd hm hn hequal
  · intro h
    cases h with
    | number hc _ hm hn hequal => exact ⟨hc, _, _, hm, hn, hequal⟩
    | sequence _ hitems => rcases items?_cases hitems with rfl | rfl <;> cases hd
    | whole hwhole => rcases isNumber_cases hd with ⟨n, rfl⟩ | ⟨x, rfl⟩ <;> cases hwhole
    | _ => cases hd

/-- Sequences agree if and only if they accord, provided that their items do. -/
theorem agrees_sequence_iff {c d : Value} {others : List Value} (hd : d.items? = some others)
    (ih : ∀ x ∈ others, ∀ c, agrees c x = true ↔ Accords c x) : agrees c d = true ↔ Accords c d := by
  have hagrees : agrees c d = true ↔ ∃ items, c.items? = some items ∧
      List.Forall₂ (fun c d => agrees c d = true) items others := by
    rcases items?_cases hd with rfl | rfl <;> cases c <;> simp [agrees, items?, agreesItems_iff]
  simp only [hagrees, forall₂_iff_of_mem ih]
  constructor
  · rintro ⟨items, hc, hitems⟩
    exact .sequence hc hd hitems
  · intro h
    cases h with
    | sequence hc hown hitems =>
      obtain rfl := Option.some.inj (hd.symm.trans hown)
      exact ⟨_, hc, hitems⟩
    | number _ hnumber => rcases isNumber_cases hnumber with ⟨n, rfl⟩ | ⟨x, rfl⟩ <;> cases hd
    | whole hwhole => rcases items?_cases hd with rfl | rfl <;> cases hwhole
    | _ => cases hd

theorem accords_map_iff {c : Value} {desired : List (Value × Value)} :
    Accords c (.map desired) ↔ ∃ entries, c = .map entries ∧ Paired Accords entries desired := by
  constructor
  · intro h
    cases h with
    | mapping hperm hnames hvalues =>
      exact ⟨_, rfl, _, hperm, List.Forall₂.mp (fun _ _ hname hvalue => ⟨hname, hvalue⟩) hnames hvalues⟩
    | number _ hnumber => cases hnumber
    | sequence _ hitems => cases hitems
    | whole hwhole => cases hwhole
  · rintro ⟨entries, rfl, matched, hperm, hpairs⟩
    exact .mapping hperm (hpairs.imp fun _ _ h => h.1) (hpairs.imp fun _ _ h => h.2)

/-- Mappings agree if and only if they accord, provided that values under the desired keys do. -/
theorem agrees_mapping_iff {c : Value} {desired : List (Value × Value)} (hkeys : ∀ d ∈ desired, ∃ name, d.1 = .str name)
    (hnodup : (desired.map (·.1)).Nodup) (ih : ∀ d ∈ desired, ∀ c, agrees c d.2 = true ↔ Accords c d.2) :
    agrees c (.map desired) = true ↔ Accords c (.map desired) := by
  rw [accords_map_iff]
  cases c with
  | map entries =>
    have hvalues : ∀ d ∈ desired, (∃ found, valueUnder? entries d.1 = some found ∧ agrees found d.2 = true) ↔
        ∃ found, valueUnder? entries d.1 = some found ∧ Accords found d.2 := fun d hd =>
      exists_congr fun found => and_congr_right fun _ => ih d hd found
    rw [agrees, Bool.and_eq_true, beq_iff_eq, agreesEntries_iff, forall₂_congr hvalues, ← paired_iff hkeys hnodup]
    simp
  | _ => simp [agrees]

theorem agrees_whole_iff {c d : Value} (hd : d.isWhole = true) : agrees c d = true ↔ Accords c d := by
  have hagrees : agrees c d = true ↔ c.type = d.type ∧ same c d = true := by
    cases d with
    | bool _ | int _ | float _ | list _ | tuple _ | map _ => cases hd
    | _ => simp [agrees]
  rw [hagrees]
  constructor
  · rintro ⟨htype, hsame⟩
    exact .whole hd htype hsame
  · intro h
    cases h with
    | whole _ htype hsame => exact ⟨htype, hsame⟩
    | number _ hnumber => rcases isNumber_cases hnumber with ⟨n, rfl⟩ | ⟨x, rfl⟩ <;> cases hd
    | sequence _ hitems => rcases items?_cases hitems with rfl | rfl <;> cases hd
    | _ => cases hd

theorem TextKeyed.nodup_keys {entries : List (Value × Value)} (h : TextKeyed (.map entries))
    (hapart : KeysApart (.map entries)) : (entries.map (·.1)).Nodup := by
  cases h with
  | leaf hleaf => cases hleaf
  | map hkeys _ =>
    cases hapart with
    | leaf hleaf => cases hleaf
    | map hpairs _ =>
      refine keys_nodup (fun e he => ?_) hpairs
      obtain ⟨name, hname⟩ := hkeys e he
      rw [hname]
      rfl

/-- Below desired keys that are texts, agreement is accord at every depth. -/
theorem TextKeyed.agrees_iff {desired : Value} (h : TextKeyed desired) (hapart : KeysApart desired) (current : Value) :
    agrees current desired = true ↔ Accords current desired := by
  induction h generalizing current with
  | @leaf v hleaf =>
    cases v with
    | bool _ => exact agrees_truth_iff
    | int _ | float _ => exact agrees_number_iff rfl
    | list _ | tuple _ | map _ => cases hleaf
    | _ => exact agrees_whole_iff rfl
  | list _ ih =>
    cases hapart with
    | leaf hleaf => cases hleaf
    | list hitems => exact agrees_sequence_iff rfl fun x hx => ih x hx (hitems x hx)
  | tuple _ ih =>
    cases hapart with
    | leaf hleaf => cases hleaf
    | tuple hitems => exact agrees_sequence_iff rfl fun x hx => ih x hx (hitems x hx)
  | map hkeys hbelow ih =>
    have hnodup := (TextKeyed.map hkeys hbelow).nodup_keys hapart
    cases hapart with
    | leaf hleaf => cases hleaf
    | map _ hvalues => exact agrees_mapping_iff hkeys hnodup fun e he => ih e he (hvalues e he)

/-- A value agrees with a desired one, whose keys are texts, if and only if the two accord. In particular no key of a
    mapping that agrees is one that the desired mapping lacks, and no two of its keys are written alike. -/
theorem agrees_iff_accords {desired : Value} (hkeys : TextKeyed desired) (hapart : KeysApart desired) (current : Value) :
    (agrees current desired = true ↔ Accords current desired) ∧
    ∀ entries wanted, current = .map entries → desired = .map wanted → agrees current desired = true →
      (∀ e ∈ entries, ∃ d ∈ wanted, d.1 = .str (keyText e.1)) ∧ (entries.map fun e => keyText e.1).Nodup := by
  have hiff := hkeys.agrees_iff hapart current
  refine ⟨hiff, fun entries wanted hcurrent hdesired h => ?_⟩
  subst hcurrent hdesired
  obtain ⟨_, ⟨rfl⟩, hpaired⟩ := accords_map_iff.mp (hiff.mp h)
  refine ⟨fun e he => ?_, nodup_keyTexts (hkeys.nodup_keys hapart) hpaired.perm_keys⟩
  have hkey := hpaired.perm_keys.subset (List.mem_map_of_mem he)
  exact List.mem_map.mp hkey

/-- A port and a truth value as keys, in another order and with another type of sequence. -/
theorem agrees_iff_accords_ports :
    Accords (.map [(.int 8080, .list [.int 1]), (.bool true, .null)])
        (.map [(.str "true".toList, .null), (.str "8080".toList, .tuple [.int 1])]) ∧
      [keyText (.int 8080), keyText (.bool true)].Nodup := by
  have hone : ∀ x ∈ [Value.int 1], TextKeyed x ∧ KeysApart x := List.forall_mem_singleton.mpr ⟨.leaf rfl, .leaf rfl⟩
  have hkeys : TextKeyed (.map [(.str "true".toList, .null), (.str "8080".toList, .tuple [.int 1])]) :=
    .map (by simp) <| List.forall_mem_cons.mpr
      ⟨.leaf rfl, List.forall_mem_singleton.mpr (.tuple fun x hx => (hone x hx).1)⟩
  have hapart : KeysApart (.map [(.str "true".toList, .null), (.str "8080".toList, .tuple [.int 1])]) :=
    .map (by simp [same]) <| List.forall_mem_cons.mpr
      ⟨.leaf rfl, List.forall_mem_singleton.mpr (.tuple fun x hx => (hone x hx).2)⟩
  have hagrees : agrees (.map [(.int 8080, .list [.int 1]), (.bool true, .null)])
      (.map [(.str "true".toList, .null), (.str "8080".toList, .tuple [.int 1])]) = true := by
    decide +kernel
  obtain ⟨hiff, hapartWritten⟩ := agrees_iff_accords hkeys hapart (.map [(.int 8080, .list [.int 1]), (.bool true, .null)])
  exact ⟨hiff.mp hagrees, (hapartWritten _ _ rfl rfl hagrees).2⟩

end Value
end YamlSplice
