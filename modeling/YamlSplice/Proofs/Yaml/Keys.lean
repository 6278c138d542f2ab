/-
  YamlSplice.Proofs.Yaml.Keys — no mapping that is read has two keys that are the same.

  Whatever the graph, a mapping is filled by putting its entries one after the other, and putting keeps
  the keys apart. Every step that fills a cell yields such a cell and leaves the other cells alone
  (`Yields`), so all cells keep their keys apart (`allFrom_keysApart`), and so does the value that they
  are unfolded into.
  - `read_keysApart`: the value of a text keeps its keys apart.
-/

import YamlSplice.Proofs.Value.Steady
import YamlSplice.Proofs.Yaml.Unfold

namespace YamlSplice.Yaml

open Value (KeysApart)

/-! ## Leaves -/

theorem Scalar.orFault_eq_ok {α : Type} {fault : ScalarFault} {o : Option α} {a : α}
    (h : Scalar.orFault fault o = .ok a) : o = some a := by
  cases o with
  | none => cases h
  | some b => cases h; rfl

/-- The value of a scalar has no parts, and nothing is merged into it. -/
theorem Scalar.value_simple {tag : Tag} {text : Text} {value : Value} (h : Scalar.value tag text = .ok value) :
    value.isLeaf = true ∧ value.treatment ≠ .merge := by
  cases tag with
  | null | str => cases h; exact ⟨rfl, by simp [Value.treatment]⟩
  | bool =>
    obtain ⟨entry, -, rfl⟩ := Option.map_eq_some_iff.mp (Scalar.orFault_eq_ok h)
    exact ⟨rfl, by simp [Value.treatment]⟩
  | int =>
    simp only [Scalar.value, Scalar.int, bind, Except.bind, pure, Except.pure] at h
    split at h <;> cases h
    exact ⟨rfl, by simp [Value.treatment]⟩
  | float =>
    obtain ⟨x, rfl⟩ := Scalar.float_eq_ok h
    exact ⟨rfl, by simp [Value.treatment]⟩
  | timestamp =>
    simp only [Scalar.value, Scalar.moment, bind, Except.bind, pure, Except.pure] at h
    repeat' split at h
    all_goals cases h
    all_goals exact ⟨rfl, by simp [Value.treatment]⟩
  | binary =>
    simp only [Scalar.value, Scalar.binary] at h
    repeat' split at h
    all_goals cases h
    exact ⟨rfl, by simp [Value.treatment]⟩
  | _ => cases h

theorem Graph.leaf_isLeaf {g : Graph} {id : Nat} {leaf : Leaf} (h : g.leaf id = .ok leaf) : leaf.value.isLeaf = true := by
  simp only [Graph.leaf] at h
  split at h
  · cases h
  · split at h
    · cases h
    · cases hvalue : Scalar.value (g.tagOf id) _ with
      | error fault => rw [hvalue] at h; cases h
      | ok value => rw [hvalue] at h; cases h; exact (Scalar.value_simple hvalue).1

/-! ## Cells -/

/-- The part has no parts of its own, unless it is a collection with a cell. -/
def Part.IsLeaf : Part → Prop
  | .leaf scalar => scalar.value.isLeaf = true
  | .collection _ => True

/-- Entries no two of which have the same key. -/
def EntriesApart (entries : List (Leaf × Part)) : Prop :=
  entries.Pairwise (fun a b => a.1.value.same b.1.value = false) ∧ ∀ e ∈ entries, e.2.IsLeaf

/-- The cell of a collection that keeps its keys apart. -/
def Cell.KeysApart : Cell → Prop
  | .list items => ∀ part ∈ items, part.IsLeaf
  | .pairs entries => ∀ e ∈ entries, e.1.IsLeaf ∧ e.2.IsLeaf
  | .map entries => EntriesApart entries
  | .set _ => True

theorem EntriesApart.put {entries : List (Leaf × Part)} {e : Leaf × Part} (h : EntriesApart entries)
    (he : e.2.IsLeaf) : EntriesApart (Fill.put entries e) := by
  obtain ⟨hkeys, hparts⟩ := h
  refine ⟨List.pairwise_map.mp (keys_put_apart (List.pairwise_map.mpr hkeys)), ?_⟩
  intro other hother
  rw [Fill.put] at hother
  split at hother
  · obtain ⟨old, hold, rfl⟩ := List.mem_map.mp hother
    split
    · exact he
    · exact hparts old hold
  · rcases List.mem_append.mp hother with hold | hnew
    · exact hparts other hold
    · rwa [List.mem_singleton.mp hnew]

theorem entriesApart_foldl {pairs entries : List (Leaf × Part)} (h : EntriesApart entries)
    (hpairs : ∀ e ∈ pairs, e.2.IsLeaf) : EntriesApart (pairs.foldl Fill.put entries) := by
  induction pairs generalizing entries with
  | nil => exact h
  | cons e pairs ih =>
    obtain ⟨he, hpairs⟩ := List.forall_mem_cons.mp hpairs
    exact ih (h.put he) hpairs

/-! ## Filling -/

namespace Fill

/-- What the step yields has the property, and no cell has been filled by it. -/
def Yields {α : Type} (x : Fill α) (P : α → Prop) : Prop :=
  ∀ s a t, x.run s = .ok (a, t) → P a ∧ t.cells = s.cells

section

variable {α β : Type} {P : α → Prop} {Q : β → Prop}

theorem run_bind_eq_ok {σ ε : Type} {x : StateT σ (Except ε) α} {f : α → StateT σ (Except ε) β} {b : β} {s u : σ}
    (h : (x >>= f).run s = .ok (b, u)) : ∃ a t, x.run s = .ok (a, t) ∧ (f a).run t = .ok (b, u) := by
  cases hx : x.run s with
  | error e => rw [run_bind_error hx] at h; cases h
  | ok result => exact ⟨result.1, result.2, rfl, (run_bind_of hx).symm.trans h⟩

theorem Yields.pure {a : α} (h : P a) : Yields (pure a) P := by
  rintro s b t hrun
  cases hrun
  exact ⟨h, rfl⟩

theorem yields_throw {fault : Fault} : Yields (throw fault : Fill α) P := by
  intro s a t hrun
  cases hrun

theorem yields_get : Yields (get : Fill Filling) fun _ => True := by
  intro s a t hrun
  cases hrun
  exact ⟨trivial, rfl⟩

theorem Yields.bind {x : Fill α} {f : α → Fill β} (hx : Yields x P) (hf : ∀ a, P a → Yields (f a) Q) :
    Yields (x >>= f) Q := by
  intro s b u hrun
  obtain ⟨a, t, ha, hb⟩ := run_bind_eq_ok hrun
  obtain ⟨hP, hst⟩ := hx s a t ha
  obtain ⟨hQ, htu⟩ := hf a hP t b u hb
  exact ⟨hQ, htu.trans hst⟩

theorem Yields.mapM {f : α → Fill β} (hf : ∀ a, Yields (f a) Q) (xs : List α) :
    Yields (xs.mapM f) fun bs => ∀ b ∈ bs, Q b := by
  induction xs with
  | nil => exact .pure (by simp)
  | cons a xs ih =>
    rw [List.mapM_cons]
    exact (hf a).bind fun b hb => ih.bind fun bs hbs => .pure (List.forall_mem_cons.mpr ⟨hb, hbs⟩)

end

theorem yields_part (id : Nat) : Yields (Fill.part id) Part.IsLeaf := by
  intro s part t hrun
  by_cases htag : (s.graph.tagOf id).isCollection = true
  · by_cases hfound : id ∈ s.found
    · rw [part_known htag hfound] at hrun
      cases hrun
      exact ⟨trivial, rfl⟩
    · rw [part_new htag hfound] at hrun
      cases hrun
      exact ⟨trivial, rfl⟩
  · have htag : (s.graph.tagOf id).isCollection = false := by simpa using htag
    cases hleaf : s.graph.leaf id with
    | error fault => rw [part_fault htag hleaf] at hrun; cases hrun
    | ok leaf =>
      rw [part_leaf htag hleaf] at hrun
      cases hrun
      exact ⟨Graph.leaf_isLeaf hleaf, rfl⟩

theorem yields_key (id : Nat) : Yields (Fill.key id) fun _ => True := by
  refine (yields_part id).bind fun part _ => ?_
  cases part with
  | leaf leaf => exact .pure trivial
  | collection other => exact yields_throw

theorem yields_entry (e : Nat × Nat) : Yields (Fill.entry e) fun entry => entry.2.IsLeaf :=
  (yields_key e.1).bind fun _ _ => (yields_part e.2).bind fun _ hpart => .pure hpart

theorem yields_pair (id : Nat) : Yields (Fill.pair id) fun entry => entry.1.IsLeaf ∧ entry.2.IsLeaf := by
  refine yields_get.bind fun s _ => ?_
  split
  · exact (yields_part _).bind fun _ hfirst => (yields_part _).bind fun _ hsecond => .pure ⟨hfirst, hsecond⟩
  · exact yields_throw

theorem yields_items (id : Nat) : Yields (Fill.items id) fun _ => True := by
  refine yields_get.bind fun s _ => ?_
  split
  · exact .pure trivial
  · exact yields_throw

/-- Entries taken in change the graph, but no cell. -/
theorem yields_entries (id : Nat) : Yields (Fill.entries id) fun entries => ∀ e ∈ entries, e.2.IsLeaf := by
  intro s entries t hrun
  rw [Fill.entries, run_bind_of get_run] at hrun
  split at hrun
  · cases hflat : s.graph.flatten id with
    | error fault => simp only [hflat] at hrun; cases hrun
    | ok graph =>
      simp only [hflat] at hrun
      exact Yields.mapM yields_entry (graph.entriesOf id) { s with graph } entries t hrun
  · cases hrun

theorem yields_cell (id : Nat) : Yields (Fill.cell id) Cell.KeysApart := by
  have hempty : EntriesApart [] := ⟨.nil, by simp⟩
  refine yields_get.bind fun s _ => ?_
  split
  · exact (yields_items id).bind fun ids _ => (Yields.mapM yields_part ids).bind fun parts hparts => .pure hparts
  · exact (yields_items id).bind fun ids _ => (Yields.mapM yields_pair ids).bind fun pairs hpairs => .pure hpairs
  · exact (yields_items id).bind fun ids _ => (Yields.mapM yields_pair ids).bind fun pairs hpairs => .pure hpairs
  · exact (yields_entries id).bind fun entries _ => .pure trivial
  · exact (yields_entries id).bind fun entries hentries => .pure (entriesApart_foldl hempty hentries)

/-- All cells keep their keys apart, however many are filled. -/
theorem allFrom_keysApart {fuel i : Nat} {s t : Filling} (hs : ∀ c ∈ s.cells, c.KeysApart)
    (h : (Fill.allFrom fuel i).run s = .ok ((), t)) : ∀ c ∈ t.cells, c.KeysApart := by
  induction fuel generalizing i s with
  | zero => cases h
  | succ fuel ih =>
    rw [allFrom, run_bind_of get_run] at h
    split at h
    · cases h
      exact hs
    · next id _ =>
      obtain ⟨c, u, hc, h⟩ := run_bind_eq_ok h
      obtain ⟨hapart, hcells⟩ := yields_cell id s c u hc
      obtain ⟨_, w, hpush, h⟩ := run_bind_eq_ok h
      cases hpush
      refine ih (fun other hother => ?_) h
      rcases Array.mem_push.mp hother with hold | rfl
      · exact hs other (hcells ▸ hold)
      · exact hapart

theorem whole_keysApart {top : Nat} {g : Graph} {part : Part} {t : Filling}
    (h : (Fill.whole top).run { graph := g } = .ok (part, t)) : part.IsLeaf ∧ ∀ c ∈ t.cells, c.KeysApart := by
  obtain ⟨found, s, hpart, h⟩ := run_bind_eq_ok h
  obtain ⟨hleaf, hcells⟩ := yields_part top _ _ _ hpart
  rw [run_bind_of get_run] at h
  obtain ⟨_, u, hall, h⟩ := run_bind_eq_ok h
  cases h
  exact ⟨hleaf, allFrom_keysApart (by rw [hcells]; simp) hall⟩

end Fill

/-! ## Unfolding -/

theorem mem_cells_of_cell? {s : Filling} {id : Nat} {c : Cell} (h : s.cell? id = some c) : c ∈ s.cells := by
  obtain ⟨i, -, hi⟩ := Option.bind_eq_some_iff.mp h
  exact Array.mem_of_getElem? hi

section

variable {inside : Part → Reading}

theorem keysApart_items {items : List Part} (h : ∀ item ∈ items, KeysApart (inside item).value) :
    KeysApart (Reading.ofItems .list (items.map inside)).value := by
  refine .list fun x hx => ?_
  simp only [List.map_map, List.mem_map, Function.comp_apply] at hx
  obtain ⟨item, hitem, rfl⟩ := hx
  exact h item hitem

theorem keysApart_pairs {entries : List (Part × Part)}
    (h : ∀ e ∈ entries, KeysApart (inside e.1).value ∧ KeysApart (inside e.2).value) :
    KeysApart (Reading.ofItems .list (entries.map fun e => Reading.ofPair (inside e.1) (inside e.2))).value := by
  refine .list fun x hx => ?_
  simp only [List.map_map, List.mem_map, Function.comp_apply] at hx
  obtain ⟨entry, hentry, rfl⟩ := hx
  refine .tuple fun y hy => ?_
  simp only [List.map_cons, List.map_nil, List.mem_cons, List.not_mem_nil, or_false] at hy
  rcases hy with rfl | rfl
  · exact (h entry hentry).1
  · exact (h entry hentry).2

theorem keysApart_entries {entries : List (Leaf × Part)} (hapart : EntriesApart entries)
    (h : ∀ e ∈ entries, KeysApart (inside e.2).value) :
    KeysApart (Reading.ofEntries (entries.map fun e => (e.1, inside e.2))).value := by
  simp only [Reading.ofEntries, List.map_map]
  refine .map (List.pairwise_map.mpr hapart.1) fun e he => ?_
  obtain ⟨entry, hentry, rfl⟩ := List.mem_map.mp he
  exact h entry hentry

end

/-- The induction is on how deep the collections may still lie inside each other. -/
theorem valueOf_keysApart {s : Filling} (hs : ∀ c ∈ s.cells, c.KeysApart) (fuel : Nat) (path : List Nat) {part : Part}
    (hpart : part.IsLeaf) : KeysApart (valueOf s fuel path part) := by
  induction fuel generalizing path part with
  | zero => exact .leaf rfl
  | succ fuel ih =>
    unfold valueOf Reading.ofPart
    cases part with
    | leaf leaf => rw [ofLeaf_value]; exact .leaf hpart
    | collection id =>
      simp only
      cases hcell : s.cell? id with
      | none => exact .leaf rfl
      | some c =>
        have hc := hs c (mem_cells_of_cell? hcell)
        cases c with
        | list items =>
          simp only
          split
          · exact .leaf rfl
          · exact keysApart_items fun item hitem => ih _ (hc item hitem)
        | pairs entries =>
          simp only
          split
          · exact .leaf rfl
          · exact keysApart_pairs fun e he => ⟨ih _ (hc e he).1, ih _ (hc e he).2⟩
        | map entries =>
          simp only
          split
          · exact .leaf rfl
          · exact keysApart_entries hc fun e he => ih _ (hc.2 e he)
        | set members => exact .leaf rfl

/-- The value of a text keeps its keys apart. -/
theorem read_keysApart {text : Text} {value : Value} (h : read text = .ok value) : KeysApart value := by
  unfold read readShared at h
  cases hgraph : Graph.ofText text with
  | error fault => rw [hgraph] at h; cases h
  | ok result =>
    obtain ⟨graph, top⟩ := result
    rw [hgraph] at h
    cases top with
    | none => cases h; exact .leaf rfl
    | some top =>
      cases hwhole : (Fill.whole top).run { graph } with
      | error fault => simp only [bind, Except.bind, hwhole] at h; cases h
      | ok filled =>
        obtain ⟨part, s⟩ := filled
        simp only [bind, Except.bind, hwhole] at h
        cases h
        obtain ⟨hleaf, hcells⟩ := Fill.whole_keysApart hwhole
        exact valueOf_keysApart hcells (s.cells.size + 1) [] hleaf

end YamlSplice.Yaml
