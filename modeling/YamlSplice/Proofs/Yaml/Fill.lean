/-
  YamlSplice.Proofs.Yaml.Fill — the collections of a graph are filled.

  Collections are filled in the order in which they are found. The invariant of the loop is that what
  has been found is drawn, without repetition, and that the cells so far hold the parts of the first
  collections found (`Sound`, `Filled`). It ends with a cell for every collection (`allFrom_filled`).
-/

import Mathlib.Data.List.Perm.Subperm
import Mathlib.Data.List.TakeWhile
import YamlSplice.Proofs.Yaml.Build
import YamlSplice.Yaml.Graph.Value

namespace YamlSplice.Yaml

open Layout

/-! ## Leaves -/

/-- A scalar with a value has no tag of collections, and none that a mapping would treat in its own way. -/
theorem Scalar.Reads.tag {text : Text} {value : Value} (h : Scalar.Reads text value) :
    (Tag.ofPlain boolWords text).isCollection = false ∧ Tag.ofPlain boolWords text ≠ .merge ∧
      Tag.ofPlain boolWords text ≠ .default := by
  unfold Scalar.Reads at h
  cases htag : Tag.ofPlain boolWords text <;> simp_all [Scalar.value, Tag.isCollection]

theorem Scalar.float_eq_ok {text : Text} {value : Value} (h : Scalar.float text = .ok value) :
    ∃ x, value = .float x := by
  unfold Scalar.float at h
  simp only [bind, Except.bind, pure, Except.pure] at h
  repeat' split at h
  all_goals cases h
  all_goals exact ⟨_, rfl⟩

/-- An atom is no number with a fraction. -/
theorem Scalar.Reads.tag_atom {text : Text} {value : Value} (h : Scalar.Reads text value) (hatom : value.isAtom = true) :
    Tag.ofPlain boolWords text ≠ .float := fun htag => by
  rw [Scalar.Reads, htag] at h
  obtain ⟨x, rfl⟩ := Scalar.float_eq_ok h
  cases hatom

namespace Graph

variable {g : Graph} {id : Nat}

theorem tagOf_eq {node : Node} (h : g[id]? = some node) : g.tagOf id = node.tag := by simp [tagOf, h]

theorem contentOf_eq {node : Node} (h : g[id]? = some node) : g.contentOf id = node.content := by simp [contentOf, h]

/-- The value of a scalar. -/
theorem leaf_scalar {text : Text} {value : Value} (h : g[id]? = some ⟨Tag.ofPlain boolWords text, .scalar text⟩)
    (hreads : Scalar.Reads text value) : ∃ origin, g.leaf id = .ok ⟨origin, value⟩ ∧
      (Tag.ofPlain boolWords text ≠ .float → origin = some id) := by
  have hcontent := contentOf_eq h
  have htext : g.textOf? (g.size + 1) id = some text := by simp [textOf?, hcontent]
  have hscalar : g.isScalar id = true := by simp [isScalar, hcontent]
  refine ⟨if Tag.ofPlain boolWords text == .float && Scalar.isNotANumber text then none else some id, ?_,
    fun hfloat => ?_⟩
  · unfold Scalar.Reads at hreads
    simp [leaf, htext, hscalar, tagOf_eq h, hreads, Except.map]
  · simp [hfloat]

end Graph
/-! ## Items and entries -/

theorem Drawn.of_mem_items {g : Graph} {least : Nat} {ids : List Nat} {values : List Value}
    (h : Drawn g least (.items ids values)) : ∀ id ∈ ids, ∃ value, Drawn g least (.node id value) := by
  induction ids generalizing values with
  | nil => simp
  | cons id ids ih =>
    cases h with
    | item hnode hitems => exact List.forall_mem_cons.mpr ⟨⟨_, hnode⟩, ih hitems⟩

theorem Drawn.of_mem_rows {g : Graph} {least : Nat} {entries : List (Nat × Nat)} {rows : List (Value × Value)}
    (h : Drawn g least (.rows entries rows)) : ∀ e ∈ entries,
      (∃ name key, g[e.1]? = some ⟨Tag.ofPlain boolWords name, .scalar name⟩ ∧ Scalar.Reads name key) ∧
        ∃ less value, Drawn g less (.node e.2 value) := by
  induction entries generalizing least rows with
  | nil => simp
  | cons e entries ih =>
    cases h with
    | row _ hnode hreads _ hvalue hrows =>
      exact List.forall_mem_cons.mpr ⟨⟨⟨_, _, hnode, hreads⟩, _, _, hvalue⟩, ih hrows⟩

/-- A mapping without merge keys and default keys is flat. -/
theorem Graph.flatten_eq {g : Graph} {id : Nat} {entries : List (Nat × Nat)} (hid : g.entriesOf id = entries)
    (h : ∀ e ∈ entries, g.tagOf e.1 ≠ .merge ∧ g.tagOf e.1 ≠ .default) : g.flatten id = .ok g := by
  have hown : entries.takeWhile (!g.isMerge ·) = entries := by
    refine List.takeWhile_eq_self_iff.mpr fun e he => ?_
    simp [isMerge, (h e he).1]
  have hdefaults : ∀ es : List (Nat × Nat), (∀ e ∈ es, e ∈ entries) → g.readDefaults es = g := by
    intro es
    induction es with
    | nil => intro _; rfl
    | cons e es ih =>
      intro hes
      obtain ⟨he, hrest⟩ := List.forall_mem_cons.mp hes
      have hnot : (g.tagOf e.1 == .default) = false := by simpa using (h e he).2
      rw [readDefaults, List.foldl_cons, hnot]
      exact ih hrest
  rw [flatten, flattenFrom]
  simp only [hid, List.drop_zero, hown, hdefaults entries fun _ he => he, Nat.zero_add, List.drop_length]
  rfl

/-! ## Parts and cells -/

/-- The part that stands for a node. -/
def Graph.IsPart (g : Graph) (id : Nat) : Part → Prop
  | .leaf leaf => (g.tagOf id).isCollection = false ∧ g.leaf id = .ok leaf
  | .collection other => (g.tagOf id).isCollection = true ∧ other = id

namespace Filling

variable {g : Graph} {s t u : Filling}

/-- A part of a cell; a collection has been found. -/
def Listed (g : Graph) (s : Filling) (id : Nat) (part : Part) : Prop :=
  g.IsPart id part ∧ ((g.tagOf id).isCollection = true → id ∈ s.found)

/-- An entry of a cell. -/
def ListedEntry (g : Graph) (s : Filling) (e : Nat × Nat) (entry : Leaf × Part) : Prop :=
  g.leaf e.1 = .ok entry.1 ∧ Listed g s e.2 entry.2

/-- The cell of a collection. -/
def HasCell (g : Graph) (s : Filling) (id : Nat) (cell : Cell) : Prop :=
  match g.contentOf id with
  | .scalar _ => False
  | .sequence ids => ∃ parts, cell = .list parts ∧ List.Forall₂ (Listed g s) ids parts
  | .mapping entries => ∃ pairs : List (Leaf × Part), cell = .map (pairs.foldl Fill.put []) ∧
      List.Forall₂ (ListedEntry g s) entries pairs

/-- What has been found is drawn, and nothing has been found twice. -/
structure Sound (g : Graph) (s : Filling) : Prop where
  graph : s.graph = g
  nodup : s.found.toList.Nodup
  drawn : ∀ id ∈ s.found, (g.tagOf id).isCollection = true ∧ ∃ least value, Drawn g least (.node id value)

/-- More may have been found, but no cell has been filled. -/
structure Grows (s t : Filling) : Prop where
  cells : t.cells = s.cells
  found : Extends s.found t.found

theorem Grows.refl (s : Filling) : Grows s s := ⟨rfl, .refl _⟩

theorem Grows.trans (h : Grows s t) (h' : Grows t u) : Grows s u :=
  ⟨h'.cells.trans h.cells, h.found.trans h'.found⟩

theorem Listed.mono {id : Nat} {part : Part} (h : Listed g s id part) (hst : Extends s.found t.found) :
    Listed g t id part :=
  ⟨h.1, fun hid => hst.mem (h.2 hid)⟩

theorem ListedEntry.mono {e : Nat × Nat} {entry : Leaf × Part} (h : ListedEntry g s e entry)
    (hst : Extends s.found t.found) : ListedEntry g t e entry :=
  ⟨h.1, h.2.mono hst⟩

theorem HasCell.mono {id : Nat} {cell : Cell} (h : HasCell g s id cell) (hst : Extends s.found t.found) :
    HasCell g t id cell := by
  unfold HasCell at h ⊢
  split at h
  · exact h
  · obtain ⟨parts, hcell, hparts⟩ := h
    exact ⟨parts, hcell, hparts.imp fun _ _ hlisted => hlisted.mono hst⟩
  · obtain ⟨pairs, hcell, hpairs⟩ := h
    exact ⟨pairs, hcell, hpairs.imp fun _ _ hlisted => hlisted.mono hst⟩

/-- There are no more collections than nodes. -/
theorem Sound.size_le (h : Sound g s) : s.found.size ≤ g.size := by
  have hsubset : s.found.toList ⊆ List.range g.size := fun id hid => by
    obtain ⟨-, least, value, hdrawn⟩ := h.drawn id (by simpa using hid)
    rw [List.mem_range]
    cases hdrawn with
    | scalar _ hnode | sequence _ hnode | mapping _ hnode => exact lt_size_of_eq_some hnode
  have := (List.subperm_of_subset h.nodup hsubset).length_le
  simpa using this

end Filling

/-! ## One collection -/

namespace Fill

open Filling

variable {g : Graph} {s : Filling}

theorem get_run : (get : Fill Filling).run s = .ok (s, s) := rfl

theorem part_known {id : Nat} (htag : (s.graph.tagOf id).isCollection = true) (hid : id ∈ s.found) :
    (Fill.part id).run s = .ok (.collection id, s) := by
  rw [Fill.part, run_bind_of get_run]
  simp only [htag, if_true, Array.contains_iff_mem.mpr hid, Bool.not_true, Bool.false_eq_true, if_false]
  rfl

theorem part_new {id : Nat} (htag : (s.graph.tagOf id).isCollection = true) (hid : id ∉ s.found) :
    (Fill.part id).run s = .ok (.collection id, { s with found := s.found.push id }) := by
  have hnew : s.found.contains id = false := by simpa using hid
  rw [Fill.part, run_bind_of get_run]
  simp only [htag, if_true, hnew, Bool.not_false]
  rfl

theorem part_leaf {id : Nat} {leaf : Leaf} (htag : (s.graph.tagOf id).isCollection = false)
    (hleaf : s.graph.leaf id = .ok leaf) : (Fill.part id).run s = .ok (.leaf leaf, s) := by
  rw [Fill.part, run_bind_of get_run]
  simp only [htag, Bool.false_eq_true, if_false, hleaf]
  rfl

theorem part_fault {id : Nat} {fault : Fault} (htag : (s.graph.tagOf id).isCollection = false)
    (hleaf : s.graph.leaf id = .error fault) : (Fill.part id).run s = .error fault := by
  rw [Fill.part, run_bind_of get_run]
  simp only [htag, Bool.false_eq_true, if_false, hleaf]
  rfl

theorem part_run {id least : Nat} {value : Value} (hs : Sound g s) (h : Drawn g least (.node id value)) :
    ∃ part t, (Fill.part id).run s = .ok (part, t) ∧ Sound g t ∧ Grows s t ∧ Listed g t id part := by
  obtain ⟨rfl, hnodup, hdrawn⟩ := hs
  have hcollection : (s.graph.tagOf id).isCollection = true →
      ∃ part t, (Fill.part id).run s = .ok (part, t) ∧ Sound s.graph t ∧ Grows s t ∧ Listed s.graph t id part := by
    intro htag
    by_cases hfound : id ∈ s.found
    · exact ⟨.collection id, s, part_known htag hfound, ⟨rfl, hnodup, hdrawn⟩, .refl s, ⟨htag, rfl⟩, fun _ => hfound⟩
    · refine ⟨.collection id, _, part_new htag hfound, ⟨rfl, ?_, fun other hother => ?_⟩, ⟨rfl, extends_push _ _⟩,
        ⟨htag, rfl⟩, fun _ => by simp⟩
      · rw [Array.toList_push]
        exact List.nodup_append.mpr ⟨hnodup, by simp, fun a ha b hb hab => hfound (by
          rw [List.mem_singleton] at hb
          simpa [← hb, ← hab] using ha)⟩
      · rcases Array.mem_push.mp hother with hold | rfl
        · exact hdrawn other hold
        · exact ⟨htag, least, value, h⟩
  cases h with
  | scalar _ hnode hreads =>
    obtain ⟨origin, hleaf, -⟩ := Graph.leaf_scalar hnode hreads
    have htag : (s.graph.tagOf id).isCollection = false := by rw [Graph.tagOf_eq hnode]; exact hreads.tag.1
    exact ⟨.leaf ⟨origin, value⟩, s, part_leaf htag hleaf, ⟨rfl, hnodup, hdrawn⟩, .refl s, ⟨htag, hleaf⟩,
      fun h => by simp [htag] at h⟩
  | sequence _ hnode => exact hcollection (by rw [Graph.tagOf_eq hnode]; rfl)
  | mapping _ hnode => exact hcollection (by rw [Graph.tagOf_eq hnode]; rfl)

/-- A key and its value. -/
theorem entry_run {key id least : Nat} {leaf : Leaf} {value : Value} (hs : Sound g s)
    (hkey : (g.tagOf key).isCollection = false) (hleaf : g.leaf key = .ok leaf) (h : Drawn g least (.node id value)) :
    ∃ entry t, (Fill.entry (key, id)).run s = .ok (entry, t) ∧ Sound g t ∧ Grows s t ∧
      ListedEntry g t (key, id) entry := by
  obtain ⟨part, t, hpart, ht, hgrows, hlisted⟩ := part_run hs h
  have hkeyrun : (Fill.key key).run s = .ok (leaf, s) := by
    rw [Fill.key, run_bind_of (part_leaf (by rw [hs.graph]; exact hkey) (by rw [hs.graph]; exact hleaf))]
    rfl
  refine ⟨(leaf, part), t, ?_, ht, hgrows, hleaf, hlisted⟩
  rw [Fill.entry, run_bind_of hkeyrun, run_bind_of hpart]
  rfl

/-- What each step of a loop finds stays found until the end of the loop. -/
theorem mapM_run {α β : Type} {f : α → Fill β} {R : Filling → α → β → Prop} {xs : List α}
    (hmono : ∀ s t a b, R s a b → Extends s.found t.found → R t a b)
    (hstep : ∀ a ∈ xs, ∀ s, Sound g s → ∃ b t, (f a).run s = .ok (b, t) ∧ Sound g t ∧ Grows s t ∧ R t a b)
    (hs : Sound g s) :
    ∃ bs t, (xs.mapM f).run s = .ok (bs, t) ∧ Sound g t ∧ Grows s t ∧ List.Forall₂ (R t) xs bs := by
  induction xs generalizing s with
  | nil => exact ⟨[], s, rfl, hs, .refl s, .nil⟩
  | cons a xs ih =>
    obtain ⟨ha, hxs⟩ := List.forall_mem_cons.mp hstep
    obtain ⟨b, t, hb, ht, hst, hR⟩ := ha s hs
    obtain ⟨bs, u, hbs, hu, htu, hRs⟩ := ih hxs ht
    refine ⟨b :: bs, u, ?_, hu, hst.trans htu, .cons (hmono t u a b hR htu.found) hRs⟩
    rw [List.mapM_cons, run_bind_of hb, run_bind_of hbs]
    rfl

theorem items_run {id : Nat} {ids : List Nat} (h : s.graph.contentOf id = .sequence ids) :
    (Fill.items id).run s = .ok (ids, s) := by
  rw [Fill.items, run_bind_of get_run]
  simp only [h]
  rfl

/-- The entries of a flat mapping are gone through in order. -/
theorem entries_run_eq {id : Nat} {entries : List (Nat × Nat)} (hid : s.graph.contentOf id = .mapping entries)
    (hflat : s.graph.flatten id = .ok s.graph) : (Fill.entries id).run s = (entries.mapM entry).run s := by
  have hentries : s.graph.entriesOf id = entries := by simp [Graph.entriesOf, hid]
  rw [Fill.entries, run_bind_of get_run]
  simp only [hid, hflat]
  rw [← hentries]
  rfl

theorem entries_run {id : Nat} {entries : List (Nat × Nat)} {pairs : List (Leaf × Part)} {t : Filling}
    (hid : s.graph.contentOf id = .mapping entries) (hflat : s.graph.flatten id = .ok s.graph)
    (h : (entries.mapM entry).run s = .ok (pairs, t)) : (Fill.entries id).run s = .ok (pairs, t) :=
  (entries_run_eq hid hflat).trans h

theorem cell_run {id : Nat} (hs : Sound g s) (hid : id ∈ s.found) :
    ∃ c t, (Fill.cell id).run s = .ok (c, t) ∧ Sound g t ∧ Grows s t ∧ HasCell g t id c := by
  obtain ⟨htag, least, value, hdrawn⟩ := hs.drawn id hid
  obtain rfl := hs.graph
  cases hdrawn with
  | scalar _ hnode hreads =>
    rw [Graph.tagOf_eq hnode, hreads.tag.1] at htag
    cases htag
  | @sequence _ _ ids values _ hnode hitems =>
    have hcontent := Graph.contentOf_eq hnode
    obtain ⟨parts, t, hparts, ht, hst, hlisted⟩ := mapM_run (f := Fill.part) (R := Listed s.graph)
      (fun _ _ _ _ hlisted hst => hlisted.mono hst) (fun a ha u hu => by
        obtain ⟨v, hv⟩ := hitems.of_mem_items a ha
        exact part_run hu hv) hs
    refine ⟨.list parts, t, ?_, ht, hst, ?_⟩
    · rw [Fill.cell, run_bind_of get_run]
      simp only [Graph.tagOf_eq hnode]
      rw [run_bind_of (items_run hcontent), run_bind_of hparts]
      rfl
    · rw [HasCell, hcontent]
      exact ⟨parts, rfl, hlisted⟩
  | @mapping _ _ entries rows _ hnode hrows =>
    have hcontent := Graph.contentOf_eq hnode
    have hflat : s.graph.flatten id = .ok s.graph := by
      have hentries : s.graph.entriesOf id = entries := by simp [Graph.entriesOf, hcontent]
      refine Graph.flatten_eq hentries fun e he => ?_
      obtain ⟨⟨name, key, hkey, hreads⟩, -⟩ := hrows.of_mem_rows e he
      rw [Graph.tagOf_eq hkey]
      exact hreads.tag.2
    obtain ⟨pairs, t, hpairs, ht, hst, hlisted⟩ := mapM_run (f := Fill.entry) (R := ListedEntry s.graph)
      (fun _ _ _ _ hlisted hst => hlisted.mono hst) (fun e he u hu => by
        obtain ⟨⟨name, key, hkey, hreads⟩, less, v, hv⟩ := hrows.of_mem_rows e he
        obtain ⟨origin, hleaf, -⟩ := Graph.leaf_scalar hkey hreads
        exact entry_run hu (by rw [Graph.tagOf_eq hkey]; exact hreads.tag.1) hleaf hv) hs
    refine ⟨.map (pairs.foldl put []), t, ?_, ht, hst, ?_⟩
    · rw [Fill.cell, run_bind_of get_run]
      simp only [Graph.tagOf_eq hnode]
      rw [run_bind_of (entries_run hcontent hflat hpairs)]
      rfl
    · rw [HasCell, hcontent]
      exact ⟨pairs, rfl, hlisted⟩

/-! ## All collections -/

/-- The cells are those of the first collections found. -/
def Filled (g : Graph) (s : Filling) : Prop :=
  s.cells.size ≤ s.found.size ∧
    ∀ (i id : Nat) (c : Cell), s.found[i]? = some id → s.cells[i]? = some c → HasCell g s id c

theorem Filled.push {t : Filling} {id : Nat} {c : Cell} (hfilled : Filled g s) (hst : Grows s t)
    (hid : s.found[s.cells.size]? = some id) (hcell : HasCell g t id c) :
    Filled g { t with cells := t.cells.push c } := by
  refine ⟨?_, fun i other d hother hd => ?_⟩
  · have := lt_size_of_eq_some (hst.found _ _ hid)
    simp only [Array.size_push, hst.cells]
    omega
  · simp only at hother hd
    rw [hst.cells, Array.getElem?_push] at hd
    split at hd
    · next hlast =>
      cases hd
      rw [hlast, hst.found _ _ hid] at hother
      cases hother
      exact hcell
    · have hlt := Nat.lt_of_lt_of_le (lt_size_of_eq_some hd) hfilled.1
      have hold : s.found[i]? = some other := by
        rw [← hother, Array.getElem?_eq_getElem hlt, hst.found _ _ (Array.getElem?_eq_getElem hlt)]
      exact (hfilled.2 i other d hold hd).mono hst.found

/-- The loop ends with a cell for every collection. It can go on for no longer than there are nodes,
    since nothing is found twice. -/
theorem allFrom_filled {fuel : Nat} (hs : Sound g s) (hfilled : Filled g s) (hfuel : g.size < fuel + s.cells.size) :
    ∃ t, (Fill.allFrom fuel s.cells.size).run s = .ok ((), t) ∧ Sound g t ∧ Filled g t ∧
      Extends s.found t.found ∧ t.cells.size = t.found.size := by
  induction fuel generalizing s with
  | zero =>
    have hle := hfilled.1
    have hsize := hs.size_le
    omega
  | succ fuel ih =>
    cases hnext : s.found[s.cells.size]? with
    | none =>
      refine ⟨s, ?_, hs, hfilled, .refl _, Nat.le_antisymm hfilled.1 (Array.getElem?_eq_none_iff.mp hnext)⟩
      rw [allFrom, run_bind_of get_run]
      simp only [hnext]
      rfl
    | some id =>
      obtain ⟨c, t, hc, ht, hst, hcell⟩ := cell_run hs (Array.mem_of_getElem? hnext)
      let t' : Filling := { t with cells := t.cells.push c }
      have hsize : t'.cells.size = s.cells.size + 1 := by simp [t', hst.cells]
      obtain ⟨u, hu, hsound, hfill, hextends, hall⟩ :=
        ih (s := t') ⟨ht.graph, ht.nodup, ht.drawn⟩ (hfilled.push hst hnext hcell) (by omega)
      refine ⟨u, ?_, hsound, hfill, hst.found.trans hextends, hall⟩
      rw [hsize] at hu
      rw [allFrom, run_bind_of get_run]
      simp only [hnext]
      rw [run_bind_of hc, ← hu]
      rfl

/-- All collections of a document are filled. -/
theorem whole_run {top least : Nat} {value : Value} (h : Drawn g least (.node top value)) :
    ∃ part t, (Fill.whole top).run { graph := g } = .ok (part, t) ∧ Sound g t ∧ Filled g t ∧
      t.cells.size = t.found.size ∧ Listed g t top part := by
  have hstart : Sound g { graph := g } := ⟨rfl, by simp, by simp⟩
  obtain ⟨part, t, hpart, ht, hst, hlisted⟩ := part_run hstart h
  have hnone : t.cells.size = 0 := by rw [hst.cells]; rfl
  have hfuel : g.size < g.size + 1 + t.cells.size := by omega
  obtain ⟨u, hu, hsound, hfill, hextends, hall⟩ := allFrom_filled ht
    ⟨by omega, fun i _ _ _ hcell => absurd (lt_size_of_eq_some hcell) (by omega)⟩ hfuel
  refine ⟨part, u, ?_, hsound, hfill, hall, hlisted.mono hextends⟩
  rw [hnone] at hu
  have hgraph : (get : Fill Filling).run t = .ok (t, t) := rfl
  rw [Fill.whole, run_bind_of hpart, run_bind_of hgraph, ht.graph, run_bind_of hu]
  rfl

end Fill
end YamlSplice.Yaml
