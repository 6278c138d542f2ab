/-
  YamlSplice.Proofs.Yaml.Build — the nodes of block collections.

  `Drawn` says that a node of a graph stands for a value; the nodes inside it come behind it. Tokens
  that spell a value are built into a node for it (`Spelled.built`): the nodes that were there before
  stay, and the new ones come behind them.
-/

import YamlSplice.Proofs.Yaml.Spelling
import YamlSplice.Yaml.Graph.Build

namespace YamlSplice.Yaml

open Layout

/-! ## Graphs of values -/

/-- What nodes of a graph are to stand for. -/
inductive Drawing where
  | node (id : Nat) (value : Value)
  | items (ids : List Nat) (values : List Value)
  | rows (entries : List (Nat × Nat)) (rows : List (Value × Value))

/-- Nodes of a graph from `least` on stand for values. -/
inductive Drawn (g : Graph) : (least : Nat) → Drawing → Prop where
  | scalar {least id : Nat} {text : Text} {value : Value} :
      least ≤ id → g[id]? = some ⟨Tag.ofPlain boolWords text, .scalar text⟩ → Scalar.Reads text value →
      Drawn g least (.node id value)
  | sequence {least id : Nat} {ids : List Nat} {values : List Value} :
      least ≤ id → g[id]? = some ⟨.seq, .sequence ids⟩ → Drawn g (id + 1) (.items ids values) →
      Drawn g least (.node id (.list values))
  | mapping {least id : Nat} {entries : List (Nat × Nat)} {rows : List (Value × Value)} :
      least ≤ id → g[id]? = some ⟨.map, .mapping entries⟩ → Drawn g (id + 1) (.rows entries rows) →
      Drawn g least (.node id (.map (Value.ofPairs rows)))
  | noItems (least : Nat) : Drawn g least (.items [] [])
  | item {least id : Nat} {value : Value} {ids : List Nat} {values : List Value} :
      Drawn g least (.node id value) → Drawn g least (.items ids values) →
      Drawn g least (.items (id :: ids) (value :: values))
  | noRows (least : Nat) : Drawn g least (.rows [] [])
  | row {least key id : Nat} {name : Text} {k value : Value} {entries : List (Nat × Nat)} {rows : List (Value × Value)} :
      least ≤ key → g[key]? = some ⟨Tag.ofPlain boolWords name, .scalar name⟩ → Scalar.Reads name k →
      k.isAtom = true → Drawn g (key + 1) (.node id value) → Drawn g (key + 1) (.rows entries rows) →
      Drawn g least (.rows ((key, id) :: entries) ((k, value) :: rows))

/-- What is drawn stays drawn if the nodes that it is made of stay. -/
theorem Drawn.congr {g g' : Graph} {least : Nat} {drawing : Drawing} (h : Drawn g least drawing)
    (hsame : ∀ id node, least ≤ id → g[id]? = some node → g'[id]? = some node) : Drawn g' least drawing := by
  induction h with
  | scalar hle hnode hreads => exact .scalar hle (hsame _ _ hle hnode) hreads
  | sequence hle hnode _ ih =>
    exact .sequence hle (hsame _ _ hle hnode) (ih fun id node hid => hsame id node (by omega))
  | mapping hle hnode _ ih =>
    exact .mapping hle (hsame _ _ hle hnode) (ih fun id node hid => hsame id node (by omega))
  | noItems => exact .noItems _
  | item _ _ ihnode ih => exact .item (ihnode hsame) (ih hsame)
  | noRows => exact .noRows _
  | row hle hnode hreads hatom _ _ ihnode ih =>
    exact .row hle (hsame _ _ hle hnode) hreads hatom (ihnode fun id node hid => hsame id node (by omega))
      (ih fun id node hid => hsame id node (by omega))

theorem Drawn.mono {g : Graph} {least less : Nat} {drawing : Drawing} (h : Drawn g least drawing)
    (hle : less ≤ least) : Drawn g less drawing := by
  induction h generalizing less with
  | scalar hleast hnode hreads => exact .scalar (Nat.le_trans hle hleast) hnode hreads
  | sequence hleast hnode hitems => exact .sequence (Nat.le_trans hle hleast) hnode hitems
  | mapping hleast hnode hrows => exact .mapping (Nat.le_trans hle hleast) hnode hrows
  | noItems => exact .noItems _
  | item _ _ ihnode ih => exact .item (ihnode hle) (ih hle)
  | noRows => exact .noRows _
  | row hleast hnode hreads hatom hvalue hrows => exact .row (Nat.le_trans hle hleast) hnode hreads hatom hvalue hrows

/-- All elements of the one array are in the other, at the same places. -/
def Extends {α : Type} (xs ys : Array α) : Prop := ∀ (i : Nat) (x : α), xs[i]? = some x → ys[i]? = some x

section

variable {α : Type} {xs ys zs : Array α}

theorem lt_size_of_eq_some {i : Nat} {x : α} (h : xs[i]? = some x) : i < xs.size := by
  obtain ⟨hin, -⟩ := Array.getElem?_eq_some_iff.mp h
  exact hin

theorem Extends.refl (xs : Array α) : Extends xs xs := fun _ _ h => h

theorem Extends.trans (h : Extends xs ys) (h' : Extends ys zs) : Extends xs zs :=
  fun i x hx => h' i x (h i x hx)

theorem Extends.size_le (h : Extends xs ys) : xs.size ≤ ys.size := by
  refine Nat.le_of_not_lt fun hlt => ?_
  have hin := lt_size_of_eq_some (h ys.size xs[ys.size] (Array.getElem?_eq_getElem hlt))
  exact Nat.lt_irrefl _ hin

theorem Extends.mem (h : Extends xs ys) {x : α} (hx : x ∈ xs) : x ∈ ys := by
  obtain ⟨i, hi⟩ := Array.getElem?_of_mem hx
  exact Array.mem_of_getElem? (h i x hi)

theorem extends_push (xs : Array α) (x : α) : Extends xs (xs.push x) := fun i old h => by
  rw [Array.getElem?_push_lt (lt_size_of_eq_some h), ← h, Array.getElem?_eq_getElem (lt_size_of_eq_some h)]

end

namespace Graph

theorem getElem?_setContent (g : Graph) (id other : Nat) (content : Content) :
    (g.setContent id content)[other]? =
      if id = other then g[other]?.map fun node => { node with content } else g[other]? := by
  rw [setContent, Array.getElem?_modify]

end Graph

/-- The nodes before a collection stay when it is filled. -/
theorem Extends.setContent {g g' : Graph} {node : Node} (h : Extends (g.push node) g') (content : Content) :
    Extends g (g'.setContent g.size content) := fun id old hold => by
  have hlt := lt_size_of_eq_some hold
  rw [Graph.getElem?_setContent, if_neg (by omega)]
  exact h id old (extends_push g node id old hold)

/-- A collection that has been filled, and the nodes behind it. -/
theorem Extends.getElem?_filled {g g' : Graph} {node : Node} (h : Extends (g.push node) g') (content : Content) :
    (g'.setContent g.size content)[g.size]? = some { node with content } := by
  have hnode : g'[g.size]? = some node := h g.size node (by simp)
  rw [Graph.getElem?_setContent, if_pos rfl, hnode]
  rfl

theorem Drawn.setContent {g : Graph} {id : Nat} {drawing : Drawing} (h : Drawn g (id + 1) drawing) (content : Content) :
    Drawn (g.setContent id content) (id + 1) drawing :=
  h.congr fun other node hle hnode => by
    rw [Graph.getElem?_setContent, if_neg (by omega)]
    exact hnode

theorem Drawn.extends {g g' : Graph} {least : Nat} {drawing : Drawing} (h : Drawn g least drawing)
    (hextends : Extends g g') : Drawn g' least drawing :=
  h.congr fun id node _ hnode => hextends id node hnode

/-! ## Steps of the grammar -/

/-- A step that is done leaves the rest of the steps to be run. -/
theorem run_bind_of {σ ε α β : Type} {x : StateT σ (Except ε) α} {f : α → StateT σ (Except ε) β} {a : α} {s t : σ}
    (h : x.run s = .ok (a, t)) : (x >>= f).run s = (f a).run t := by
  rw [StateT.run_bind, h]
  rfl

/-- A step that fails ends the steps. -/
theorem run_bind_error {σ ε α β : Type} {x : StateT σ (Except ε) α} {f : α → StateT σ (Except ε) β} {e : ε} {s : σ}
    (h : x.run s = .error e) : (x >>= f).run s = .error e := by
  rw [StateT.run_bind, h]
  rfl

/-- A draft with these tokens left, and this graph. -/
def Draft.at (d : Draft) (tokens : List Token) (graph : Graph) : Draft := { d with tokens, graph }

namespace Build

variable {d : Draft} {g g' g'' : Graph} {t : Token} {ts ts' ts'' : List Token} {fuel : Nat}

theorem peek_at : peek.run (d.at (t :: ts) g) = .ok (t, d.at (t :: ts) g) := rfl

theorem accept_at : (accept t).run (d.at (t :: ts) g) = .ok (true, d.at ts g) := by
  rw [accept, run_bind_of peek_at]
  simp only [if_true]
  rfl

theorem accept_other {u : Token} (h : u ≠ t) : (accept t).run (d.at (u :: ts) g) = .ok (false, d.at (u :: ts) g) := by
  rw [accept, run_bind_of peek_at]
  simp only [h, if_false]
  rfl

theorem expect_at : (expect t).run (d.at (t :: ts) g) = .ok ((), d.at ts g) := by
  rw [expect, run_bind_of accept_at]
  rfl

/-- Neither an anchor nor a tag. -/
def noProperties : Properties := ⟨none, none⟩

/-- The token starts a node, and is no reference and no property. -/
def isPlainNode : Token → Bool
  | .scalar _ _ | .blockSequenceStart | .blockMappingStart | .blockEntry | .flowSequenceStart | .flowMappingStart => true
  | _ => false

theorem properties_at (h : isPlainNode t = true) :
    properties.run (d.at (t :: ts) g) = .ok (noProperties, d.at (t :: ts) g) := by
  rw [properties, run_bind_of peek_at]
  cases t <;> first | rfl | cases h

theorem addNamed_at (tag : Tag) (content : Content) :
    (addNamed noProperties tag content).run (d.at ts g) = .ok (g.size, d.at ts (g.push ⟨tag, content⟩)) := rfl

theorem sequence_at {items : Build (List Nat)} {ids : List Nat}
    (h : items.run (d.at ts (g.push ⟨.seq, .sequence []⟩)) = .ok (ids, d.at ts' g')) :
    (node.sequence noProperties items).run (d.at ts g) =
      .ok (g.size, d.at ts' (g'.setContent g.size (.sequence ids))) := by
  have hinside : items.run (d.at ts (g.push ⟨noProperties.collectionTag .seq, .sequence []⟩)) = _ := h
  rw [node.sequence, run_bind_of (addNamed_at _ _), run_bind_of hinside]
  rfl

theorem mapping_at {items : Build (List (Nat × Nat))} {entries : List (Nat × Nat)}
    (h : items.run (d.at ts (g.push ⟨.map, .mapping []⟩)) = .ok (entries, d.at ts' g')) :
    (node.mapping noProperties items).run (d.at ts g) =
      .ok (g.size, d.at ts' (g'.setContent g.size (.mapping entries))) := by
  have hinside : items.run (d.at ts (g.push ⟨noProperties.collectionTag .map, .mapping []⟩)) = _ := h
  rw [node.mapping, run_bind_of (addNamed_at _ _), run_bind_of hinside]
  rfl

variable {block indentless : Bool}

theorem node_scalar {text : Text} :
    (node block indentless (fuel + 1)).run (d.at (.scalar text true :: ts) g) =
      .ok (g.size, d.at ts (g.push ⟨Tag.ofPlain boolWords text, .scalar text⟩)) := by
  rw [node, run_bind_of peek_at]
  simp only
  rw [run_bind_of (properties_at rfl), run_bind_of peek_at]
  rfl

theorem node_sequence {ids : List Nat}
    (h : (blockItems false fuel).run (d.at ts (g.push ⟨.seq, .sequence []⟩)) = .ok (ids, d.at ts' g')) :
    (node true indentless (fuel + 1)).run (d.at (.blockSequenceStart :: ts) g) =
      .ok (g.size, d.at ts' (g'.setContent g.size (.sequence ids))) := by
  rw [node, run_bind_of peek_at]
  simp only
  rw [run_bind_of (properties_at rfl), run_bind_of peek_at]
  exact sequence_at h

theorem node_flush {ids : List Nat}
    (h : (blockItems true fuel).run (d.at (.blockEntry :: ts) (g.push ⟨.seq, .sequence []⟩)) = .ok (ids, d.at ts' g')) :
    (node block true (fuel + 1)).run (d.at (.blockEntry :: ts) g) =
      .ok (g.size, d.at ts' (g'.setContent g.size (.sequence ids))) := by
  rw [node, run_bind_of peek_at]
  simp only
  rw [run_bind_of (properties_at rfl), run_bind_of peek_at]
  exact sequence_at h

theorem node_mapping {entries : List (Nat × Nat)}
    (h : (blockEntries fuel).run (d.at ts (g.push ⟨.map, .mapping []⟩)) = .ok (entries, d.at ts' g')) :
    (node true indentless (fuel + 1)).run (d.at (.blockMappingStart :: ts) g) =
      .ok (g.size, d.at ts' (g'.setContent g.size (.mapping entries))) := by
  rw [node, run_bind_of peek_at]
  simp only
  rw [run_bind_of (properties_at rfl), run_bind_of peek_at]
  exact mapping_at h

theorem node_brackets_items :
    (node block indentless (fuel + 2)).run (d.at (.flowSequenceStart :: .flowSequenceEnd :: ts) g) =
      .ok (g.size, d.at ts (Graph.setContent (g.push ⟨.seq, .sequence []⟩) g.size (.sequence []))) := by
  have hitems : (flowItems true (fuel + 1)).run (d.at (.flowSequenceEnd :: ts) (g.push ⟨.seq, .sequence []⟩)) =
      .ok ([], d.at ts (g.push ⟨.seq, .sequence []⟩)) := by
    rw [flowItems, run_bind_of accept_at]
    rfl
  rw [node, run_bind_of peek_at]
  simp only
  rw [run_bind_of (properties_at rfl), run_bind_of peek_at]
  exact sequence_at hitems

theorem node_brackets_rows :
    (node block indentless (fuel + 2)).run (d.at (.flowMappingStart :: .flowMappingEnd :: ts) g) =
      .ok (g.size, d.at ts (Graph.setContent (g.push ⟨.map, .mapping []⟩) g.size (.mapping []))) := by
  have hentries : (flowEntries true (fuel + 1)).run (d.at (.flowMappingEnd :: ts) (g.push ⟨.map, .mapping []⟩)) =
      .ok ([], d.at ts (g.push ⟨.map, .mapping []⟩)) := by
    rw [flowEntries, run_bind_of accept_at]
    rfl
  rw [node, run_bind_of peek_at]
  simp only
  rw [run_bind_of (properties_at rfl), run_bind_of peek_at]
  exact mapping_at hentries

theorem nodeBefore_at {e : List Token} (h : e.contains t = false) :
    (nodeBefore e block indentless (fuel + 1)).run (d.at (t :: ts) g) =
      (node block indentless fuel).run (d.at (t :: ts) g) := by
  rw [nodeBefore, run_bind_of peek_at]
  simp only [h]
  rfl

theorem blockItems_cons {id : Nat} {ids : List Nat} (ht : isPlainNode t = true) (hentry : t ≠ .blockEntry)
    (hitem : (node true false fuel).run (d.at (t :: ts) g) = .ok (id, d.at ts' g'))
    (hitems : (blockItems indentless (fuel + 1)).run (d.at ts' g') = .ok (ids, d.at ts'' g'')) :
    (blockItems indentless (fuel + 2)).run (d.at (.blockEntry :: t :: ts) g) = .ok (id :: ids, d.at ts'' g'') := by
  rw [blockItems, run_bind_of accept_at]
  cases indentless with
  | true =>
    have hitem' := (nodeBefore_at (e := [.blockEntry, .key, .value, .blockEnd]) (by
      cases t <;> first | rfl | exact absurd rfl hentry | cases ht)).trans hitem
    simp only [if_true]
    rw [run_bind_of hitem', run_bind_of hitems]
    rfl
  | false =>
    have hitem' := (nodeBefore_at (e := [.blockEntry, .blockEnd]) (by
      cases t <;> first | rfl | exact absurd rfl hentry | cases ht)).trans hitem
    simp only [if_true, Bool.false_eq_true, if_false]
    rw [run_bind_of hitem', run_bind_of hitems]
    rfl

theorem blockItems_end : (blockItems false (fuel + 1)).run (d.at (.blockEnd :: ts) g) = .ok ([], d.at ts g) := by
  rw [blockItems, run_bind_of (accept_other (by simp))]
  simp only [Bool.false_eq_true, if_false, Bool.not_false, if_true]
  rw [run_bind_of expect_at]
  rfl

theorem blockItems_other (h : t ≠ .blockEntry) :
    (blockItems true (fuel + 1)).run (d.at (t :: ts) g) = .ok ([], d.at (t :: ts) g) := by
  rw [blockItems, run_bind_of (accept_other h)]
  rfl

theorem blockEntries_cons {name : Text} {id : Nat} {entries : List (Nat × Nat)} (ht : isPlainNode t = true)
    (hvalue : (node true true (fuel + 1)).run (d.at (t :: ts) (g.push ⟨Tag.ofPlain boolWords name, .scalar name⟩)) =
      .ok (id, d.at ts' g'))
    (hentries : (blockEntries (fuel + 2)).run (d.at ts' g') = .ok (entries, d.at ts'' g'')) :
    (blockEntries (fuel + 3)).run (d.at (.key :: .scalar name true :: .value :: t :: ts) g) =
      .ok ((g.size, id) :: entries, d.at ts'' g'') := by
  have hkey : (nodeBefore [.key, .value, .blockEnd] true true (fuel + 2)).run
      (d.at (.scalar name true :: .value :: t :: ts) g) = _ := (nodeBefore_at rfl).trans node_scalar
  have hnode := (nodeBefore_at (e := [.key, .value, .blockEnd]) (by
    cases t <;> first | rfl | cases ht)).trans hvalue
  rw [blockEntries, run_bind_of accept_at]
  simp only [if_true]
  rw [run_bind_of hkey, run_bind_of accept_at]
  simp only [if_true]
  rw [run_bind_of hnode, run_bind_of hentries]
  rfl

theorem blockEntries_end : (blockEntries (fuel + 1)).run (d.at (.blockEnd :: ts) g) = .ok ([], d.at ts g) := by
  rw [blockEntries, run_bind_of (accept_other (by simp))]
  simp only [Bool.false_eq_true, if_false]
  rw [run_bind_of expect_at]
  rfl

end Build
/-! ## Spelled tokens are built -/

theorem Drawn.filled_sequence {g g' : Graph} {ids : List Nat} {values : List Value}
    (hextends : Extends (g.push ⟨.seq, .sequence []⟩) g') (h : Drawn g' (g.size + 1) (.items ids values)) :
    Drawn (g'.setContent g.size (.sequence ids)) g.size (.node g.size (.list values)) :=
  .sequence (Nat.le_refl _) (hextends.getElem?_filled _) (h.setContent _)

theorem Drawn.filled_mapping {g g' : Graph} {entries : List (Nat × Nat)} {rows : List (Value × Value)}
    (hextends : Extends (g.push ⟨.map, .mapping []⟩) g') (h : Drawn g' (g.size + 1) (.rows entries rows)) :
    Drawn (g'.setContent g.size (.mapping entries)) g.size (.node g.size (.map (Value.ofPairs rows))) :=
  .mapping (Nat.le_refl _) (hextends.getElem?_filled _) (h.setContent _)

/-- A row, from its key and value and the rows below it. -/
theorem Drawn.of_row {g g' g'' : Graph} {name : Text} {id : Nat} {key value : Value} {entries : List (Nat × Nat)}
    {rows : List (Value × Value)} (hreads : Scalar.Reads name key) (hatom : key.isAtom = true)
    (hg' : Extends (g.push ⟨Tag.ofPlain boolWords name, .scalar name⟩) g') (hg'' : Extends g' g'')
    (hvalue : Drawn g' (g.size + 1) (.node id value)) (hrows : Drawn g'' g'.size (.rows entries rows)) :
    Drawn g'' g.size (.rows ((g.size, id) :: entries) ((key, value) :: rows)) := by
  have hsize := hg'.size_le
  rw [Array.size_push] at hsize
  exact .row (Nat.le_refl _) (hg'' _ _ (hg' _ _ (by simp))) hreads hatom (hvalue.extends hg'') (hrows.mono hsize)

end YamlSplice.Yaml

namespace YamlSplice.Layout

open Yaml Yaml.Build

/-- How tokens are built: a node for a value, or what a collection is filled with. Behind the items of a
    sequence at the column of its key no token is taken. -/
def Built (ts : List Token) : Piece → Prop
  | .node value => ∀ (d : Draft) (rest : List Token) (g : Graph) (indentless : Bool) (fuel : Nat), 2 * ts.length ≤ fuel →
      ∃ id g', (Build.node true indentless fuel).run (d.at (ts ++ rest) g) = .ok (id, d.at rest g') ∧
        Extends g g' ∧ Drawn g' g.size (.node id value)
  | .parts (.rows rows) => ∀ (d : Draft) (rest : List Token) (g : Graph) (fuel : Nat), 2 * ts.length + 1 ≤ fuel →
      ∃ entries g', (Build.blockEntries fuel).run (d.at (ts ++ .blockEnd :: rest) g) = .ok (entries, d.at rest g') ∧
        Extends g g' ∧ Drawn g' g.size (.rows entries rows)
  | .parts (.items values) => ∀ (d : Draft) (t : Token) (rest left : List Token) (g : Graph) (indentless : Bool)
      (fuel : Nat), 2 * ts.length + 1 ≤ fuel →
      (indentless = false ∧ t = .blockEnd ∧ left = rest ∨ indentless = true ∧ t ≠ .blockEntry ∧ left = t :: rest) →
      ∃ ids g', (Build.blockItems indentless fuel).run (d.at (ts ++ t :: rest) g) = .ok (ids, d.at left g') ∧
        Extends g g' ∧ Drawn g' g.size (.items ids values)

theorem Spelled.node_head {ts : List Token} {value : Value} (h : Spelled ts (.node value)) :
    ∃ t more, ts = t :: more ∧ Build.isPlainNode t = true ∧ t ≠ .blockEntry := by
  cases h with
  | scalar => exact ⟨_, _, rfl, rfl, by simp⟩
  | @brackets parts => cases parts <;> exact ⟨_, _, rfl, rfl, by simp [Parts.flowStart]⟩
  | @inner ts parts => cases parts <;> exact ⟨_, _, rfl, rfl, by simp [Parts.opening]⟩

theorem Spelled.items_head {ts : List Token} {values : List Value} (h : Spelled ts (.parts (.items values)))
    (hne : values ≠ []) : ∃ more, ts = .blockEntry :: more := by
  cases h with
  | noItems => exact absurd rfl hne
  | item => exact ⟨_, rfl⟩

theorem Spelled.rows_head {ts rest : List Token} {rows : List (Value × Value)} (h : Spelled ts (.parts (.rows rows))) :
    ∃ t more, ts ++ .blockEnd :: rest = t :: more ∧ t ≠ .blockEntry := by
  cases h with
  | noRows => exact ⟨_, _, rfl, by simp⟩
  | row | flushRow => exact ⟨_, _, rfl, by simp⟩

theorem Built.inner {ts : List Token} {parts : Parts} (h : Built ts (.parts parts)) :
    Built (parts.opening :: (ts ++ [.blockEnd])) (.node parts.value) := by
  intro d rest g indentless fuel hfuel
  obtain ⟨fuel, rfl⟩ : ∃ n, fuel = n + 1 := ⟨fuel - 1, by simp at hfuel; omega⟩
  simp only [List.length_cons, List.length_append, List.length_nil] at hfuel
  rw [List.cons_append, List.append_assoc]
  cases parts with
  | rows rows =>
    obtain ⟨entries, g', hrun, hextends, hdrawn⟩ := h d rest (g.push ⟨.map, .mapping []⟩) fuel (by omega)
    rw [Array.size_push] at hdrawn
    exact ⟨_, _, node_mapping hrun, hextends.setContent _, hdrawn.filled_mapping hextends⟩
  | items values =>
    obtain ⟨ids, g', hrun, hextends, hdrawn⟩ :=
      h d .blockEnd rest rest (g.push ⟨.seq, .sequence []⟩) false fuel (by omega) (Or.inl ⟨rfl, rfl, rfl⟩)
    rw [Array.size_push] at hdrawn
    exact ⟨_, _, node_sequence hrun, hextends.setContent _, hdrawn.filled_sequence hextends⟩

theorem Built.brackets {parts : Parts} (hempty : parts.isEmpty = true) :
    Built [parts.flowStart, parts.flowEnd] (.node parts.value) := by
  intro d rest g indentless fuel hfuel
  obtain ⟨fuel, rfl⟩ : ∃ n, fuel = n + 2 := ⟨fuel - 2, by simp at hfuel; omega⟩
  cases parts with
  | rows rows =>
    obtain rfl := List.isEmpty_iff.mp hempty
    exact ⟨_, _, node_brackets_rows, (Extends.refl _).setContent _, .filled_mapping (.refl _) (.noRows _)⟩
  | items values =>
    obtain rfl := List.isEmpty_iff.mp hempty
    exact ⟨_, _, node_brackets_items, (Extends.refl _).setContent _, .filled_sequence (.refl _) (.noItems _)⟩

/-- How the tokens of the value of a row are built: a token that is no item ends a sequence at the column of the key. -/
def BuiltBelow (ts : List Token) (value : Value) : Prop :=
  ∀ (d : Draft) (t : Token) (rest : List Token) (g : Graph) (fuel : Nat), 2 * ts.length + 2 ≤ fuel → t ≠ .blockEntry →
    ∃ id g', (Build.node true true fuel).run (d.at (ts ++ t :: rest) g) = .ok (id, d.at (t :: rest) g') ∧
      Extends g g' ∧ Drawn g' g.size (.node id value)

theorem Built.below {ts : List Token} {value : Value} (h : Built ts (.node value)) : BuiltBelow ts value :=
  fun d t rest g fuel hfuel _ => h d (t :: rest) g true fuel (by omega)

theorem Built.flush {ts : List Token} {values : List Value} (h : Built (.blockEntry :: ts) (.parts (.items values))) :
    BuiltBelow (.blockEntry :: ts) (.list values) := by
  intro d t rest g fuel hfuel ht
  obtain ⟨fuel, rfl⟩ : ∃ n, fuel = n + 1 := ⟨fuel - 1, by omega⟩
  obtain ⟨ids, g', hrun, hextends, hdrawn⟩ :=
    h d t rest (t :: rest) (g.push ⟨.seq, .sequence []⟩) true fuel (by omega) (Or.inr ⟨rfl, ht, rfl⟩)
  rw [Array.size_push] at hdrawn
  exact ⟨_, _, node_flush hrun, hextends.setContent _, hdrawn.filled_sequence hextends⟩

theorem Built.row {t : Token} {name : Text} {key value : Value} {more ts : List Token} {rows : List (Value × Value)}
    (hreads : Scalar.Reads name key) (hatom : key.isAtom = true) (ht : Build.isPlainNode t = true)
    (hvalue : BuiltBelow (t :: more) value) (hrows : Spelled ts (.parts (.rows rows)))
    (h : Built ts (.parts (.rows rows))) :
    Built (.key :: .scalar name true :: .value :: (t :: more ++ ts)) (.parts (.rows ((key, value) :: rows))) := by
  intro d rest g fuel hfuel
  simp only [List.length_cons, List.length_append] at hfuel
  obtain ⟨fuel, rfl⟩ : ∃ n, fuel = n + 3 := ⟨fuel - 3, by omega⟩
  obtain ⟨u, left, hleft, hu⟩ := hrows.rows_head
  obtain ⟨id, g', hrun, hextends, hdrawn⟩ := hvalue d u left
    (g.push ⟨Tag.ofPlain boolWords name, .scalar name⟩) (fuel + 1) (by simp only [List.length_cons]; omega) hu
  obtain ⟨entries, g'', hrun', hextends', hdrawn'⟩ := h d rest g' (fuel + 2) (by omega)
  rw [Array.size_push] at hdrawn
  rw [← hleft] at hrun
  refine ⟨_, g'', ?_, ((extends_push g _).trans hextends).trans hextends',
    .of_row hreads hatom hextends hextends' hdrawn hdrawn'⟩
  simpa using blockEntries_cons ht hrun hrun'

theorem Built.item {t : Token} {value : Value} {more ts : List Token} {values : List Value}
    (ht : Build.isPlainNode t = true) (hentry : t ≠ .blockEntry) (hvalue : Built (t :: more) (.node value))
    (h : Built ts (.parts (.items values))) :
    Built (.blockEntry :: (t :: more ++ ts)) (.parts (.items (value :: values))) := by
  intro d u rest left g indentless fuel hfuel hlast
  simp only [List.length_cons, List.length_append] at hfuel
  obtain ⟨fuel, rfl⟩ : ∃ n, fuel = n + 2 := ⟨fuel - 2, by omega⟩
  obtain ⟨id, g', hrun, hextends, hdrawn⟩ :=
    hvalue d (ts ++ u :: rest) g false fuel (by simp only [List.length_cons]; omega)
  obtain ⟨ids, g'', hrun', hextends', hdrawn'⟩ := h d u rest left g' indentless (fuel + 1) (by omega) hlast
  refine ⟨_, g'', ?_, hextends.trans hextends', .item (hdrawn.extends hextends') (hdrawn'.mono hextends.size_le)⟩
  simpa using blockItems_cons ht hentry hrun hrun'

/-- The induction is on the spelling. A collection is a node before anything inside it, so what is built
    for its parts comes behind it. -/
theorem Spelled.built {ts : List Token} {piece : Piece} (h : Spelled ts piece) : Built ts piece := by
  induction h with
  | scalar hreads =>
    intro d rest g indentless fuel hfuel
    obtain ⟨fuel, rfl⟩ : ∃ n, fuel = n + 1 := ⟨fuel - 1, by simp at hfuel; omega⟩
    exact ⟨_, _, node_scalar, extends_push g _, .scalar (Nat.le_refl _) (by simp) hreads⟩
  | brackets hempty => exact .brackets hempty
  | inner _ _ ih => exact ih.inner
  | noRows =>
    intro d rest g fuel hfuel
    obtain ⟨fuel, rfl⟩ : ∃ n, fuel = n + 1 := ⟨fuel - 1, by omega⟩
    exact ⟨_, _, blockEntries_end, .refl g, .noRows _⟩
  | row hreads hatom hnode hrows ihnode ih =>
    obtain ⟨t, more, rfl, ht, -⟩ := hnode.node_head
    exact .row hreads hatom ht ihnode.below hrows ih
  | flushRow hreads hatom hvalues hnode hrows ihnode ih =>
    obtain ⟨more, rfl⟩ := hnode.items_head hvalues
    exact .row hreads hatom rfl ihnode.flush hrows ih
  | noItems =>
    intro d t rest left g indentless fuel hfuel hlast
    obtain ⟨fuel, rfl⟩ : ∃ n, fuel = n + 1 := ⟨fuel - 1, by omega⟩
    rcases hlast with ⟨rfl, rfl, rfl⟩ | ⟨rfl, ht, rfl⟩
    · exact ⟨_, _, blockItems_end, .refl g, .noItems _⟩
    · exact ⟨_, _, blockItems_other ht, .refl g, .noItems _⟩
  | item hnode _ ihnode ih =>
    obtain ⟨t, more, rfl, ht, hentry⟩ := hnode.node_head
    exact .item ht hentry ihnode ih

/-! ## Documents -/

/-- A document without marks is the node of its tokens. -/
theorem document_of_node {fuel id : Nat} {t : Token} {ts : List Token} {g g' : Graph} {d e : Draft}
    (ht : isPlainNode t = true) (he : e = { d with handles := usualHandles })
    (hnode : (node true false fuel).run (e.at (t :: ts) g) = .ok (id, e.at [.streamEnd] g')) :
    ∃ last, (document fuel).run (d.at (t :: ts) g) = .ok (some id, last) ∧ last.graph = g' := by
  have hroot : (root fuel).run (d.at (t :: ts) g) = .ok (some id, e.at [.streamEnd] g') := by
    have hrest : ∀ f : Build Unit, f.run (d.at (t :: ts) g) = .ok ((), e.at (t :: ts) g) →
        (do f; return some (← node true false fuel) : Build (Option Nat)).run (d.at (t :: ts) g) =
          .ok (some id, e.at [.streamEnd] g') := fun f hf => by
      rw [run_bind_of hf, run_bind_of hnode]
      rfl
    subst he
    rw [root, run_bind_of peek_at]
    cases t <;> first | exact hrest _ rfl | cases ht
  refine ⟨e.at [.streamEnd] g', ?_, rfl⟩
  rw [document, run_bind_of hroot]
  rfl

/-- The graph of a text that is a block. -/
theorem Block.graph {ls : List Line} {parts : Parts} (h : Block Leaves.simple 0 ls parts) :
    if parts.isEmpty then Graph.ofText (render ls) = .ok (#[], none)
    else ∃ g top, Graph.ofText (render ls) = .ok (g, some top) ∧ Drawn g 0 (.node top parts.value) := by
  obtain ⟨ts, hspelled, htokens⟩ := h.tokens
  cases hempty : parts.isEmpty with
  | true =>
    simp only [hempty, if_true] at htokens ⊢
    rw [Graph.ofText, htokens]
    rfl
  | false =>
    simp only [hempty, Bool.false_eq_true, if_false] at htokens ⊢
    have hnode := Spelled.inner hempty hspelled
    obtain ⟨top, g, hrun, -, hdrawn⟩ := hnode.built ⟨[], none, #[], [], usualHandles⟩ [.streamEnd] #[] false
      (4 * (Tokens.ofText (render ls)).list.length + 8) (by rw [htokens]; simp; omega)
    rw [List.cons_append] at hrun
    obtain ⟨last, hdocument, rfl⟩ := document_of_node (d := ⟨[], none, #[], [], []⟩)
      (by cases parts <;> rfl) rfl hrun
    refine ⟨last.graph, top, ?_, hdrawn⟩
    have hall : Draft.at ⟨[], none, #[], [], []⟩ (parts.opening :: (ts ++ [.blockEnd] ++ [.streamEnd])) #[] =
        ⟨(Tokens.ofText (render ls)).list, (Tokens.ofText (render ls)).fault, #[], [], []⟩ := by
      rw [htokens]
      simp [Draft.at]
    rw [hall] at hdocument
    rw [Graph.ofText]
    simp only [hdocument, bind, Except.bind, pure, Except.pure]

end YamlSplice.Layout
