/-
  YamlSplice.Yaml.Graph.Basic — a document as nodes that refer to each other.

  A node is known by its number. An alias stands for the number of the node with its anchor, so a
  node may be part of several others, and even of itself.
-/

import YamlSplice.Yaml.Tag

namespace YamlSplice.Yaml

/-- What a node is made of. -/
inductive Content where
  | scalar (text : Text)
  | sequence (items : List Nat)
  | mapping (entries : List (Nat × Nat))
  deriving DecidableEq, Repr

structure Node where
  tag : Tag
  content : Content
  deriving DecidableEq, Repr

/-- The nodes of a document in the order in which they begin. -/
abbrev Graph := Array Node

namespace Graph

variable (g : Graph)

/-- The tag of a node. -/
def tagOf (id : Nat) : Tag := ((g[id]?).map (·.tag)).getD .null

/-- The content of a node. -/
def contentOf (id : Nat) : Content := ((g[id]?).map (·.content)).getD (.scalar [])

/-- The entries of a mapping; none for other nodes. -/
def entriesOf (id : Nat) : List (Nat × Nat) :=
  match g.contentOf id with
  | .mapping entries => entries
  | _ => []

/-- The graph with another content for a node. -/
def setContent (id : Nat) (content : Content) : Graph := g.modify id fun node => { node with content }

/-- The graph with another tag for a node. -/
def setTag (id : Nat) (tag : Tag) : Graph := g.modify id fun node => { node with tag }

end Graph
end YamlSplice.Yaml
