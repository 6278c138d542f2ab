/-
  YamlSplice.Yaml.Graph.Merge — mappings that take in the entries of others.

  The value of a merge key is a mapping or a sequence of mappings. Their entries are put in front
  of the mapping's own, those of an earlier mapping of a sequence behind those of a later one, so
  that a later entry for a key wins. The sources are flattened first. A default key of a flattened
  mapping is read as text.
-/

import YamlSplice.Yaml.Graph.Basic
import YamlSplice.Yaml.Fault

namespace YamlSplice.Yaml.Graph

/-- The key of an entry is a merge key. -/
def isMerge (g : Graph) (entry : Nat × Nat) : Bool := g.tagOf entry.1 == .merge

/-- The number of merge entries. -/
def mergeCount (g : Graph) : Nat :=
  (g.toList.flatMap fun node =>
    match node.content with
    | .mapping entries => entries.filter (isMerge g)
    | _ => []).length

/-- Default keys among the keys of entries become text. -/
def readDefaults (g : Graph) (entries : List (Nat × Nat)) : Graph :=
  entries.foldl (fun g entry => if g.tagOf entry.1 == .default then g.setTag entry.1 .str else g) g

/-- The mappings that the value of a merge key names. -/
def sources (g : Graph) (id : Nat) : Except Fault (List Nat) :=
  let isMapping (id : Nat) : Bool :=
    match g.contentOf id with
    | .mapping _ => true
    | _ => false
  match g.contentOf id with
  | .mapping _ => .ok [id]
  | .sequence items => if items.all isMapping then .ok items else .error .malformed
  | .scalar _ => .error .malformed

/-- Flattens a mapping from its entry `start` on; `taken` are the entries taken in so far. Every step
    takes a merge entry out of the graph. -/
def flattenFrom : Nat → Nat → Nat → List (Nat × Nat) → Graph → Except Fault Graph
  | 0, _, _, _, _ => .error .malformed
  | fuel + 1, id, start, taken, g => do
    let entries := g.entriesOf id
    let own := (entries.drop start).takeWhile (!isMerge g ·)
    let place := start + own.length
    let g := readDefaults g own
    match entries.drop place with
    | [] => return if taken.isEmpty then g else g.setContent id (.mapping (taken ++ entries))
    | (_, value) :: _ =>
      let g := g.setContent id (.mapping (entries.eraseIdx place))
      let mappings ← sources g value
      let (g, found) ← mappings.foldlM (fun (state : Graph × List (Nat × Nat)) source => do
        let g ← flattenFrom fuel source 0 [] state.1
        return (g, g.entriesOf source ++ state.2)) (g, [])
      flattenFrom fuel id place (taken ++ found) g

/-- Flattens a mapping. -/
def flatten (g : Graph) (id : Nat) : Except Fault Graph := flattenFrom (g.mergeCount + 1) id 0 [] g

end YamlSplice.Yaml.Graph
