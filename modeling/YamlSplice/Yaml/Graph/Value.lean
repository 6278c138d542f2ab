/-
  YamlSplice.Yaml.Graph.Value — the value of a document.

  Collections are filled in the order in which they are met, level by level, so the first fault in
  that order is the one that is found. Only scalars can be keys. Of two entries with the same key
  the first key and the last value stay. Two keys are the same if their values are or if they are
  one node; the words for the number that is no number all stand for one.

  Then the collections are unfolded into a value. A collection inside itself becomes a reference
  back. Dates, moments and sets are remembered by their nodes, so that it can be told which places
  share one.
-/

import YamlSplice.Yaml.Graph.Build
import YamlSplice.Yaml.Graph.Merge
import YamlSplice.Yaml.Scalar
import YamlSplice.Value.Equality

namespace YamlSplice.Yaml

/-- The value of a scalar and the node that it comes from; the number that is no number comes from
    none. -/
structure Leaf where
  origin : Option Nat
  value : Value

/-- A part of a collection. -/
inductive Part where
  | leaf (leaf : Leaf)
  /-- A collection by its node. -/
  | collection (id : Nat)

/-- What a collection is filled with. -/
inductive Cell where
  | list (items : List Part)
  | pairs (entries : List (Part × Part))
  | map (entries : List (Leaf × Part))
  | set (members : List Leaf)

/-- A value and, for every date, moment and set in it, the node that it comes from. -/
structure Reading where
  value : Value
  origins : List Nat

/-- The two keys are the same. -/
def Leaf.same (a b : Leaf) : Bool := a.origin == b.origin || a.value.same b.value

/-! ## Scalars -/

namespace Graph

variable (g : Graph)

/-- The text of a scalar; a mapping stands for the scalar under its default key. -/
def textOf? : Nat → Nat → Option Text
  | 0, _ => none
  | fuel + 1, id =>
    match g.contentOf id with
    | .scalar text => some text
    | .sequence _ => none
    | .mapping entries =>
      match entries.find? fun entry => g.tagOf entry.1 == .default with
      | some (_, value) => textOf? fuel value
      | none => none

/-- The node is a scalar itself. -/
def isScalar (id : Nat) : Bool :=
  match g.contentOf id with
  | .scalar _ => true
  | _ => false

/-- The value of a node that has the tag of a scalar. A mapping cannot stand for a moment. -/
def leaf (id : Nat) : Except Fault Leaf :=
  let tag := g.tagOf id
  match g.textOf? (g.size + 1) id with
  | none => .error .malformed
  | some text =>
    if tag == .timestamp && !g.isScalar id then .error (.scalar .momentByMapping)
    else (Scalar.value tag text).map fun value =>
      ⟨if tag == .float && Scalar.isNotANumber text then none else some id, value⟩

end Graph

/-- The tags of collections. -/
def Tag.isCollection : Tag → Bool
  | .seq | .map | .set | .omap | .pairs => true
  | _ => false

/-! ## Filling collections -/

/-- Collections on their way to be filled: the first of those found so far have their cells. -/
structure Filling where
  graph : Graph
  found : Array Nat := #[]
  cells : Array Cell := #[]

abbrev Fill := StateT Filling (Except Fault)

namespace Fill

/-- A part by its node; a collection is filled later. -/
def part (id : Nat) : Fill Part := do
  let s ← get
  if (s.graph.tagOf id).isCollection then
    if !s.found.contains id then set { s with found := s.found.push id }
    return .collection id
  else return .leaf (← liftM (s.graph.leaf id))

/-- A key by its node. -/
def key (id : Nat) : Fill Leaf := do
  match ← part id with
  | .leaf leaf => return leaf
  | .collection _ => throw .malformed

/-- Key and value of an entry. -/
def entry (e : Nat × Nat) : Fill (Leaf × Part) := do
  let k ← key e.1
  let v ← part e.2
  return (k, v)

/-- A pair, given as a mapping of one entry. -/
def pair (id : Nat) : Fill (Part × Part) := do
  match (← get).graph.contentOf id with
  | .mapping [(k, v)] =>
    let first ← part k
    let second ← part v
    return (first, second)
  | _ => throw .malformed

/-- The entries of a mapping with those that it takes in. -/
def entries (id : Nat) : Fill (List (Leaf × Part)) := do
  let s ← get
  match s.graph.contentOf id with
  | .mapping _ =>
    let graph ← liftM (s.graph.flatten id)
    set { s with graph }
    (graph.entriesOf id).mapM entry
  | _ => throw .malformed

/-- The items of a sequence. -/
def items (id : Nat) : Fill (List Nat) := do
  match (← get).graph.contentOf id with
  | .sequence items => return items
  | _ => throw .malformed

/-- Writes an entry: the first key of its kind stays, the value is replaced. -/
def put (entries : List (Leaf × Part)) (e : Leaf × Part) : List (Leaf × Part) :=
  if entries.any (·.1.same e.1) then
    entries.map fun old => if old.1.same e.1 then (old.1, e.2) else old
  else entries ++ [e]

/-- The cell of a collection. -/
def cell (id : Nat) : Fill Cell := do
  match (← get).graph.tagOf id with
  | .seq => return .list (← (← items id).mapM part)
  | .omap | .pairs => return .pairs (← (← items id).mapM pair)
  | .set => return .set (((← entries id).foldl put []).map (·.1))
  | _ => return .map ((← entries id).foldl put [])

/-- Fills the collections found from index `i` on. -/
def allFrom : Nat → Nat → Fill Unit
  | 0, _ => throw .malformed
  | fuel + 1, i => do
    match (← get).found[i]? with
    | none => return
    | some id =>
      let c ← cell id
      modify fun s => { s with cells := s.cells.push c }
      allFrom fuel (i + 1)

/-- A part and all collections inside it. -/
def whole (id : Nat) : Fill Part := do
  let top ← part id
  allFrom ((← get).graph.size + 1) 0
  return top

end Fill

/-! ## Unfolding -/

namespace Filling

variable (s : Filling)

/-- The cell of a collection. -/
def cell? (id : Nat) : Option Cell := (s.found.finIdxOf? id).bind fun i => s.cells[i.val]?

end Filling

namespace Reading

/-- A value and its origins in a sequence. -/
def ofItems (shape : List Value → Value) (items : List Reading) : Reading :=
  ⟨shape (items.map (·.value)), items.flatMap (·.origins)⟩

/-- A leaf; only dates and moments are remembered by their nodes. -/
def ofLeaf (leaf : Leaf) : Reading :=
  match leaf.value with
  | .date _ | .moment _ => ⟨leaf.value, [leaf.origin.getD 0]⟩
  | value => ⟨value, []⟩

/-- A tuple of two. -/
def ofPair (first second : Reading) : Reading := ofItems .tuple [first, second]

/-- A mapping, its entries in order. -/
def ofEntries (entries : List (Leaf × Reading)) : Reading :=
  ⟨.map (entries.map fun e => (e.1.value, e.2.value)),
    entries.flatMap fun e => (ofLeaf e.1).origins ++ e.2.origins⟩

/-- A part as a value; `path` holds the collections around it. -/
def ofPart (s : Filling) : Nat → List Nat → Part → Reading
  | 0, _, _ => ⟨.null, []⟩
  | fuel + 1, path, part =>
    match part with
    | .leaf leaf => ofLeaf leaf
    | .collection id =>
      let inside := ofPart s fuel (id :: path)
      let enclosing := path.contains id
      match s.cell? id with
      | none => ⟨.null, []⟩
      | some (.list items) =>
        if enclosing then ⟨.back .sequence, []⟩ else ofItems .list (items.map inside)
      | some (.pairs entries) =>
        if enclosing then ⟨.back .sequence, []⟩
        else ofItems .list (entries.map fun e => ofPair (inside e.1) (inside e.2))
      | some (.map entries) =>
        if enclosing then ⟨.back .mapping, []⟩
        else ofEntries (entries.map fun e => (e.1, inside e.2))
      | some (.set members) =>
        ⟨.set (members.map (·.value)), id :: members.flatMap fun m => (ofLeaf m).origins⟩

end Reading

/-- The value of a text with the origins of its dates, moments and sets. -/
def readShared (text : Text) : Except Fault Reading := do
  match ← Graph.ofText text with
  | (_, none) => return ⟨.null, []⟩
  | (graph, some top) =>
    let (part, s) ← (Fill.whole top).run { graph }
    return .ofPart s (s.cells.size + 1) [] part

/-- The value of a text. -/
def read (text : Text) : Except Fault Value := (readShared text).map (·.value)

end YamlSplice.Yaml
