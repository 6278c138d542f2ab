/-
  YamlSplice.Proofs.Yaml.Unfold — the values of filled collections.

  A cell lists keys and parts as they were written down, so a mapping of values is made of them as the
  cell was (`map_foldl_put`). A collection that is drawn is unfolded into what it stands for
  (`Drawn.unfolded`): the collections around a node come before it, so no node is inside itself, and
  there are no more of them than cells. Hence a text that is a block is read as its parts
  (`Block.read`).
-/

import YamlSplice.Operations
import YamlSplice.Proofs.Yaml.Fill

namespace YamlSplice.Yaml

open Layout Filling

/-! ## Mappings -/

section

variable {val : Part → Value}

/-- An entry of values. -/
def entryValue (val : Part → Value) (e : Leaf × Part) : Value × Value := (e.1.value, val e.2)

theorem map_put_of_none {entries : List (Leaf × Part)} {e : Leaf × Part}
    (h : ∀ old ∈ entries, old.1.value.same e.1.value = false) :
    Value.put (entries.map (entryValue val)) e.1.value (val e.2) = entries.map (entryValue val) ++ [entryValue val e] := by
  induction entries with
  | nil => rfl
  | cons old rest ih =>
    obtain ⟨hold, hrest⟩ := List.forall_mem_cons.mp h
    simp only [List.map_cons, List.cons_append, Value.put, entryValue, hold, Bool.false_eq_true, if_false] at ih ⊢
    rw [ih hrest]

/-- An entry is put among leaves and parts as it is among values, if at most one key is the same. -/
theorem map_put {entries : List (Leaf × Part)} {e : Leaf × Part}
    (hsame : ∀ old ∈ entries, old.1.same e.1 = old.1.value.same e.1.value)
    (hone : entries.Pairwise fun a b => ¬ (a.1.value.same e.1.value = true ∧ b.1.value.same e.1.value = true)) :
    (Fill.put entries e).map (entryValue val) = Value.put (entries.map (entryValue val)) e.1.value (val e.2) := by
  by_cases hany : entries.any (·.1.same e.1) = true
  · rw [Fill.put, if_pos hany]
    induction entries with
    | nil => cases hany
    | cons old rest ih =>
      obtain ⟨hold, hrest⟩ := List.forall_mem_cons.mp hsame
      obtain ⟨hfirst, hlater⟩ := List.pairwise_cons.mp hone
      by_cases hkey : old.1.value.same e.1.value = true
      · have hothers : rest.map (fun other => if other.1.same e.1 then (other.1, e.2) else other) = rest := by
          refine (List.map_congr_left fun other hother => ?_).trans (List.map_id rest)
          have hnot : ¬ other.1.value.same e.1.value = true := fun h => hfirst other hother ⟨hkey, h⟩
          rw [hrest other hother, if_neg hnot]
          rfl
        simp only [List.map_cons, hothers, hold, hkey, if_true, Value.put, entryValue]
      · have hany' : rest.any (·.1.same e.1) = true := by simpa [hold, hkey] using hany
        simp only [List.map_cons, hold, hkey, if_false, Value.put, entryValue, Bool.false_eq_true] at ih ⊢
        rw [ih hrest hlater hany']
  · have hnone : ∀ old ∈ entries, old.1.value.same e.1.value = false := fun old hold => by
      rw [← hsame old hold]
      simpa using fun h : old.1.same e.1 = true => hany (List.any_eq_true.mpr ⟨old, hold, h⟩)
    rw [Fill.put, if_neg hany, List.map_append, map_put_of_none hnone]
    rfl

theorem keys_put (entries : List (Leaf × Part)) (e : Leaf × Part) :
    (Fill.put entries e).map (·.1) =
      if entries.any (·.1.same e.1) then entries.map (·.1) else entries.map (·.1) ++ [e.1] := by
  rw [Fill.put]
  split
  · rw [List.map_map]
    refine List.map_congr_left fun old _ => ?_
    simp only [Function.comp_apply]
    split <;> rfl
  · simp

/-- Keys stay apart when an entry is put. -/
theorem keys_put_apart {entries : List (Leaf × Part)} {e : Leaf × Part}
    (h : (entries.map (·.1)).Pairwise fun a b => a.value.same b.value = false) :
    ((Fill.put entries e).map (·.1)).Pairwise fun a b => a.value.same b.value = false := by
  rw [keys_put]
  split
  · exact h
  · next hany =>
    refine List.pairwise_append.mpr ⟨h, by simp, fun a ha b hb => ?_⟩
    obtain ⟨old, hold, rfl⟩ := List.mem_map.mp ha
    obtain rfl := List.mem_singleton.mp hb
    have hnot : ¬ old.1.same e.1 = true := fun hsame => hany (List.any_eq_true.mpr ⟨old, hold, hsame⟩)
    simp only [Leaf.same, Bool.or_eq_true, not_or] at hnot
    simpa using hnot.2

/-- Atoms no two of which are the same. -/
structure Apart (leaves : List Leaf) : Prop where
  atoms : ∀ leaf ∈ leaves, leaf.value.isAtom = true
  apart : leaves.Pairwise fun a b => a.value.same b.value = false

theorem Apart.put {entries : List (Leaf × Part)} {e : Leaf × Part} (h : Apart (entries.map (·.1)))
    (he : e.1.value.isAtom = true) : Apart ((Fill.put entries e).map (·.1)) where
  atoms := by
    rw [keys_put]
    split
    · exact h.atoms
    · exact List.forall_mem_append.mpr ⟨h.atoms, by simpa using he⟩
  apart := keys_put_apart h.apart

/-- Keys of different nodes are the same if their values are. -/
theorem map_foldl_put {pairs entries : List (Leaf × Part)} (hentries : Apart (entries.map (·.1)))
    (hatoms : ∀ e ∈ pairs, e.1.value.isAtom = true)
    (horigins : ∀ leaf ∈ entries.map (·.1), ∀ e ∈ pairs, (leaf.origin == e.1.origin) = false)
    (hpairs : pairs.Pairwise fun a b => (a.1.origin == b.1.origin) = false) :
    (pairs.foldl Fill.put entries).map (entryValue val) =
      (pairs.map (entryValue val)).foldl (fun values e => Value.put values e.1 e.2) (entries.map (entryValue val)) := by
  induction pairs generalizing entries with
  | nil => rfl
  | cons e pairs ih =>
    obtain ⟨he, hatoms⟩ := List.forall_mem_cons.mp hatoms
    obtain ⟨hfirst, hlater⟩ := List.pairwise_cons.mp hpairs
    have hput : (Fill.put entries e).map (entryValue val) =
        Value.put (entries.map (entryValue val)) e.1.value (val e.2) := by
      refine map_put (fun old hold => ?_) ?_
      · have := horigins old.1 (List.mem_map_of_mem hold) e List.mem_cons_self
        simp [Leaf.same, this]
      · refine (List.pairwise_map.mp hentries.apart).imp_of_mem fun {a b} ha hb hne hboth => ?_
        have haAtom := hentries.atoms _ (List.mem_map_of_mem ha)
        have hbAtom := hentries.atoms _ (List.mem_map_of_mem hb)
        have hsame := ((Value.same_atom_iff haAtom he).mp hboth.1).trans ((Value.same_atom_iff hbAtom he).mp hboth.2).symm
        rw [(Value.same_atom_iff haAtom hbAtom).mpr hsame] at hne
        cases hne
    rw [List.foldl_cons, List.map_cons, List.foldl_cons, ih (hentries.put he) hatoms ?_ hlater, hput]
    · rfl
    · intro leaf hleaf other hother
      rw [keys_put] at hleaf
      split at hleaf
      · exact horigins leaf hleaf other (List.mem_cons_of_mem _ hother)
      · rcases List.mem_append.mp hleaf with hold | hnew
        · exact horigins leaf hold other (List.mem_cons_of_mem _ hother)
        · rw [List.mem_singleton.mp hnew]
          exact hfirst other hother

end

/-! ## Values -/

section

variable {g : Graph} {s : Filling}

/-- The collections around a node: they have been found, and come before it. -/
structure Around (s : Filling) (least : Nat) (path : List Nat) : Prop where
  nodup : path.Nodup
  found : ∀ id ∈ path, id ∈ s.found
  before : ∀ id ∈ path, id < least

theorem Around.length_le {least : Nat} {path : List Nat} (h : Around s least path) : path.length ≤ s.found.size := by
  have hsubset : path ⊆ s.found.toList := fun id hid => by simpa using h.found id hid
  simpa using (List.subperm_of_subset h.nodup hsubset).length_le

theorem Around.cons {least id : Nat} {path : List Nat} (h : Around s least path) (hid : id ∈ s.found)
    (hle : least ≤ id) : Around s (id + 1) (id :: path) := by
  refine ⟨List.nodup_cons.mpr ⟨fun hmem => ?_, h.nodup⟩, List.forall_mem_cons.mpr ⟨hid, h.found⟩,
    List.forall_mem_cons.mpr ⟨Nat.lt_succ_self _, fun other hother => ?_⟩⟩
  · exact absurd (h.before id hmem) (by omega)
  · exact Nat.lt_succ_of_lt (Nat.lt_of_lt_of_le (h.before other hother) hle)

theorem Around.not_contains {least id : Nat} {path : List Nat} (h : Around s least path) (hle : least ≤ id) :
    path.contains id = false := by
  refine Bool.eq_false_iff.mpr fun hmem => ?_
  have := h.before id (by simpa using hmem)
  omega

/-- The cell of a collection that has been found. -/
theorem cell?_of_found {id : Nat} (hid : id ∈ s.found) (hfilled : Fill.Filled g s)
    (hall : s.cells.size = s.found.size) : ∃ c, s.cell? id = some c ∧ HasCell g s id c := by
  obtain ⟨i, hi⟩ : ∃ i, s.found.finIdxOf? id = some i := by
    rw [← Option.ne_none_iff_exists']
    simpa using hid
  have hfound : s.found[i.val]? = some id := by
    rw [Array.getElem?_eq_getElem i.isLt, ← (Array.finIdxOf?_eq_some_iff.mp hi).1]
    rfl
  have hin : i.val < s.cells.size := by rw [hall]; exact i.isLt
  refine ⟨s.cells[i.val], ?_, hfilled.2 i.val id _ hfound (Array.getElem?_eq_getElem hin)⟩
  rw [cell?, hi]
  exact Array.getElem?_eq_getElem hin

theorem ofLeaf_value (leaf : Leaf) : (Reading.ofLeaf leaf).value = leaf.value := by
  unfold Reading.ofLeaf
  split <;> rfl

/-- A part as a value. -/
def valueOf (s : Filling) (fuel : Nat) (path : List Nat) (part : Part) : Value := (Reading.ofPart s fuel path part).value

/-- What a drawing stands for is what its parts are unfolded into. -/
def Unfolds (g : Graph) (s : Filling) (least : Nat) : Drawing → Prop
  | .node id value => ∀ (fuel : Nat) (path : List Nat) (part : Part), Listed g s id part → Around s least path →
      fuel + path.length = s.cells.size + 1 → valueOf s fuel path part = value
  | .items ids values => ∀ (fuel : Nat) (path : List Nat) (parts : List Part), List.Forall₂ (Listed g s) ids parts →
      Around s least path → fuel + path.length = s.cells.size + 1 → parts.map (valueOf s fuel path) = values
  | .rows entries rows => ∀ (fuel : Nat) (path : List Nat) (pairs : List (Leaf × Part)),
      List.Forall₂ (ListedEntry g s) entries pairs → Around s least path → fuel + path.length = s.cells.size + 1 →
      pairs.map (entryValue (valueOf s fuel path)) = rows ∧ (∀ e ∈ pairs, e.1.value.isAtom = true) ∧
        (∀ e ∈ pairs, ∃ id, e.1.origin = some id ∧ least ≤ id) ∧
        pairs.Pairwise fun a b => (a.1.origin == b.1.origin) = false

theorem Around.mono {least more : Nat} {path : List Nat} (h : Around s least path) (hle : least ≤ more) :
    Around s more path :=
  ⟨h.nodup, h.found, fun id hid => Nat.lt_of_lt_of_le (h.before id hid) hle⟩

/-- There are no more collections around a node than fuel. -/
theorem Around.exists_fuel {least fuel : Nat} {path : List Nat} (h : Around s least path)
    (hall : s.cells.size = s.found.size) (hfuel : fuel + path.length = s.cells.size + 1) : ∃ n, fuel = n + 1 := by
  have hlength := h.length_le
  exact ⟨fuel - 1, by omega⟩

/-- A collection is listed as itself, and its cell is filled. -/
theorem Listed.collection {id : Nat} {part : Part} (h : Listed g s id part)
    (htag : (g.tagOf id).isCollection = true) (hfilled : Fill.Filled g s) (hall : s.cells.size = s.found.size) :
    part = .collection id ∧ id ∈ s.found ∧ ∃ c, s.cell? id = some c ∧ HasCell g s id c := by
  cases part with
  | leaf leaf =>
    have hnot := h.1.1
    rw [htag] at hnot
    cases hnot
  | collection other =>
    obtain rfl := h.1.2
    exact ⟨rfl, h.2 htag, cell?_of_found (h.2 htag) hfilled hall⟩

theorem unfolds_scalar {least id : Nat} {text : Text} {value : Value}
    (hnode : g[id]? = some ⟨Tag.ofPlain boolWords text, .scalar text⟩) (hreads : Scalar.Reads text value)
    (hall : s.cells.size = s.found.size) : Unfolds g s least (.node id value) := by
  intro fuel path part hlisted haround hfuel
  obtain ⟨fuel, rfl⟩ := haround.exists_fuel hall hfuel
  obtain ⟨origin, hleaf, -⟩ := Graph.leaf_scalar hnode hreads
  cases part with
  | leaf leaf =>
    obtain rfl := Except.ok.inj (hleaf.symm.trans hlisted.1.2)
    exact ofLeaf_value _
  | collection other =>
    have htag := hlisted.1.1
    rw [Graph.tagOf_eq hnode, hreads.tag.1] at htag
    cases htag

theorem unfolds_sequence {least id : Nat} {ids : List Nat} {values : List Value} (hle : least ≤ id)
    (hnode : g[id]? = some ⟨.seq, .sequence ids⟩) (hitems : Unfolds g s (id + 1) (.items ids values))
    (hfilled : Fill.Filled g s) (hall : s.cells.size = s.found.size) :
    Unfolds g s least (.node id (.list values)) := by
  intro fuel path part hlisted haround hfuel
  obtain ⟨fuel, rfl⟩ := haround.exists_fuel hall hfuel
  obtain ⟨rfl, hid, c, hc, hcell⟩ := Listed.collection hlisted (by rw [Graph.tagOf_eq hnode]; rfl) hfilled hall
  rw [HasCell, Graph.contentOf_eq hnode] at hcell
  obtain ⟨parts, rfl, hparts⟩ := hcell
  have hvalues := hitems fuel (id :: path) parts hparts (haround.cons hid hle) (by simp only [List.length_cons]; omega)
  rw [valueOf, Reading.ofPart]
  simp only [hc, haround.not_contains hle, Bool.false_eq_true, if_false, Reading.ofItems, List.map_map]
  exact congrArg Value.list hvalues

theorem unfolds_mapping {least id : Nat} {entries : List (Nat × Nat)} {rows : List (Value × Value)} (hle : least ≤ id)
    (hnode : g[id]? = some ⟨.map, .mapping entries⟩) (hentries : Unfolds g s (id + 1) (.rows entries rows))
    (hfilled : Fill.Filled g s) (hall : s.cells.size = s.found.size) :
    Unfolds g s least (.node id (.map (Value.ofPairs rows))) := by
  intro fuel path part hlisted haround hfuel
  obtain ⟨fuel, rfl⟩ := haround.exists_fuel hall hfuel
  obtain ⟨rfl, hid, c, hc, hcell⟩ := Listed.collection hlisted (by rw [Graph.tagOf_eq hnode]; rfl) hfilled hall
  rw [HasCell, Graph.contentOf_eq hnode] at hcell
  obtain ⟨pairs, rfl, hpairs⟩ := hcell
  obtain ⟨hrows, hatoms, -, horigins⟩ :=
    hentries fuel (id :: path) pairs hpairs (haround.cons hid hle) (by simp only [List.length_cons]; omega)
  have hput := @map_foldl_put (valueOf s fuel (id :: path)) pairs [] ⟨by simp, by simp⟩ hatoms (by simp) horigins
  rw [valueOf, Reading.ofPart]
  simp only [hc, haround.not_contains hle, Bool.false_eq_true, if_false, Reading.ofEntries, List.map_map]
  rw [hrows] at hput
  exact congrArg Value.map hput

/-- The keys of the other rows come behind the key of this one, so they are other nodes. -/
theorem unfolds_row {least key id : Nat} {name : Text} {k value : Value} {entries : List (Nat × Nat)}
    {rows : List (Value × Value)} (hle : least ≤ key)
    (hnode : g[key]? = some ⟨Tag.ofPlain boolWords name, .scalar name⟩) (hreads : Scalar.Reads name k)
    (hatom : k.isAtom = true) (hid : Unfolds g s (key + 1) (.node id value))
    (hentries : Unfolds g s (key + 1) (.rows entries rows)) :
    Unfolds g s least (.rows ((key, id) :: entries) ((k, value) :: rows)) := by
  intro fuel path pairs hpairs haround hfuel
  cases hpairs with
  | @cons _ e _ pairs hfirst hrest =>
    have hinside := haround.mono (Nat.le_succ_of_le hle)
    obtain ⟨hrows, hatoms, horigins, hpairwise⟩ := hentries fuel path pairs hrest hinside hfuel
    obtain ⟨origin, hleaf, horigin⟩ := Graph.leaf_scalar hnode hreads
    have he := Except.ok.inj (hleaf.symm.trans hfirst.1)
    have hsome : e.1.origin = some key := by rw [← he]; exact horigin (hreads.tag_atom hatom)
    have hvalue := hid fuel path e.2 hfirst.2 hinside hfuel
    refine ⟨?_, List.forall_mem_cons.mpr ⟨by rw [← he]; exact hatom, hatoms⟩,
      List.forall_mem_cons.mpr ⟨⟨key, hsome, hle⟩, fun other hother => ?_⟩,
      List.pairwise_cons.mpr ⟨fun other hother => ?_, hpairwise⟩⟩
    · rw [List.map_cons, hrows, entryValue, hvalue, ← he]
    · obtain ⟨id, hid, hkey⟩ := horigins other hother
      exact ⟨id, hid, by omega⟩
    · obtain ⟨id, hid, hkey⟩ := horigins other hother
      rw [hsome, hid]
      simpa using Nat.ne_of_lt hkey

/-- The induction is on the drawing. -/
theorem Drawn.unfolded {least : Nat} {drawing : Drawing} (h : Drawn g least drawing) (hfilled : Fill.Filled g s)
    (hall : s.cells.size = s.found.size) : Unfolds g s least drawing := by
  induction h with
  | scalar _ hnode hreads => exact unfolds_scalar hnode hreads hall
  | sequence hle hnode _ ih => exact unfolds_sequence hle hnode ih hfilled hall
  | mapping hle hnode _ ih => exact unfolds_mapping hle hnode ih hfilled hall
  | noItems =>
    intro fuel path parts hparts _ _
    cases hparts
    rfl
  | item _ _ ihnode ih =>
    intro fuel path parts hparts haround hfuel
    cases hparts with
    | cons hfirst hrest =>
      rw [List.map_cons, ihnode fuel path _ hfirst haround hfuel, ih fuel path _ hrest haround hfuel]
  | noRows =>
    intro fuel path pairs hpairs _ _
    cases hpairs
    simp
  | row hle hnode hreads hatom _ _ ihnode ih => exact unfolds_row hle hnode hreads hatom ihnode ih

end

end YamlSplice.Yaml

namespace YamlSplice.Layout

open Yaml

theorem read_of_graph {text : Text} {g : Graph} {top : Nat} {value : Value}
    (hgraph : Graph.ofText text = .ok (g, some top)) (hdrawn : Drawn g 0 (.node top value)) : Yaml.read text = .ok value := by
  obtain ⟨part, s, hwhole, -, hfilled, hall, hlisted⟩ := Fill.whole_run hdrawn
  have hvalue := hdrawn.unfolded hfilled hall (s.cells.size + 1) [] part hlisted ⟨by simp, by simp, by simp⟩ rfl
  rw [Yaml.read, readShared, hgraph]
  simp only [bind, Except.bind, hwhole, pure, Except.pure, Except.map]
  exact congrArg Except.ok hvalue

/-- A text that is a block is read as its parts. A text without rows has no value. -/
theorem Block.read {ls : List Line} {parts : Parts} (h : Block Leaves.simple 0 ls parts) :
    Yaml.read (render ls) = .ok (if parts.isEmpty then .null else parts.value) := by
  have hgraph := h.graph
  split
  · next hempty =>
    rw [if_pos hempty] at hgraph
    rw [Yaml.read, readShared, hgraph]
    rfl
  · next hempty =>
    rw [if_neg hempty] at hgraph
    obtain ⟨g, top, hgraph, hdrawn⟩ := hgraph
    exact read_of_graph hgraph hdrawn

/-! ## A scalar on its own -/

variable {text : Text}

theorem tokens_phrase (h : IsPhrase text) (hmark : atDocumentMark (text ++ ['\n']) = false) :
    Tokens.ofText (text ++ ['\n']) = ⟨[.scalar text true, .streamEnd], none⟩ := by
  obtain ⟨x, rest, hx, hplain⟩ := h.words.exists_cons
  let c : Cursor := { rest := text ++ ['\n'] }
  let next : Cursor := ⟨[], text.length + 1, 1, 0⟩
  have hhead : c.rest = x :: (rest ++ ['\n']) := by simp [c, hx]
  have hcontent : Lexer.content c = (c, false) := Lexer.content_of_char hhead (isPlainChar_ne hplain (by decide))
    (isPlainChar_ne hplain (by decide)) (isBreak_of_isInline (isInline_of_isPlainChar hplain))
  have hunmarked : c.rest.head? ≠ some '\uFEFF' := by
    rw [hhead]
    simpa using isPlainChar_ne hplain (by decide)
  have hstop : Plain.Stops (-1 + 1) ⟨['\n'], c.index + text.length, c.line, c.column + text.length⟩ next true := by
    simpa [c, next] using @Plain.stops_end ⟨['\n'], c.index + text.length, c.line, c.column + text.length⟩ (-1 + 1) rfl
  have hbefore : next.Before [] := .of_at rfl (by simp [next])
  have hfinish : Lexer.Ends (Lexer.ready next [.scalar text true] (-1) []) [.scalar text true, .streamEnd] :=
    .finish hbefore
  have hless : (Lexer.content next).1.rest.length < c.rest.length := by
    have hnext := Lexer.length_content_le next
    simp only [c, next, List.length_append, List.length_nil, List.length_singleton] at hnext ⊢
    omega
  have hends : Lexer.Ends (Lexer.ready c [] (-1) []) [.scalar text true, .streamEnd] :=
    Lexer.Ends.scalar_of_scan (congrArg Prod.fst hcontent) hunmarked (opensPlain_append h.start _) (by simp [c])
      (fun _ => hmark) (Plain.scan_stopped h.words rfl (by simp [c]) hstop) (by simp [c, next]) hless hfinish
  have hallowed : (text ++ ['\n']).all Yaml.isAllowed = true :=
    List.all_eq_true.mpr (List.forall_mem_append.mpr
      ⟨isAllowed_words h.words, List.forall_mem_singleton.mpr (by decide)⟩)
  rw [Tokens.ofText, if_pos hallowed]
  exact Lexer.run_more hends (Nat.add_le_add_right (Lexer.length_content_le c) 2)

/-- A plain scalar is read as it stands, if it is not the mark of a document. -/
theorem read_phrase {value : Value} (h : IsPhrase text) (hmark : atDocumentMark (text ++ ['\n']) = false)
    (hreads : Scalar.Reads text value) : Yaml.read (text ++ ['\n']) = .ok value := by
  have hgraph : Graph.ofText (text ++ ['\n']) = .ok (#[⟨Tag.ofPlain boolWords text, .scalar text⟩], some 0) := by
    rw [Graph.ofText, tokens_phrase h hmark]
    rfl
  exact read_of_graph hgraph (.scalar (Nat.zero_le _) rfl hreads)

end YamlSplice.Layout
