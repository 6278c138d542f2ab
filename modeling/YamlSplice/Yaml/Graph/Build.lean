/-
  YamlSplice.Yaml.Graph.Build — tokens as the nodes of one document.

  A node may have an anchor and a tag in front, in either order. An alias has to follow the node
  that it names; a collection is named from its start on, so that it may hold an alias to itself.
  Where a node is missing an empty scalar takes its place, if the grammar lets it. A text holds one
  document at most. Tokens are looked at one at a time, so that the first fault of the text is the
  one that is found.
-/

import YamlSplice.Yaml.Graph.Basic
import YamlSplice.Yaml.Token.Lexer

namespace YamlSplice.Yaml

/-- A document on its way from tokens to nodes. -/
structure Draft where
  tokens : List Token
  /-- Why the tokens end too early. -/
  fault : Option Fault
  graph : Graph := #[]
  anchors : List (Text × Nat) := []
  /-- The handles of tags, and what they stand for. -/
  handles : List (Text × Text) := []

/-- A step on that way. -/
abbrev Build := StateT Draft (Except Fault)

/-- What stands in front of a node. -/
structure Properties where
  anchor : Option Text
  /-- The full name of the tag; an exclamation mark alone asks for the type by the content. -/
  tag : Option Text
  deriving DecidableEq, Repr

namespace Properties

/-- Neither an anchor nor a tag. -/
def isEmpty (p : Properties) : Bool := p.anchor.isNone && p.tag.isNone

/-- The tag of a scalar. -/
def scalarTag (p : Properties) (text : Text) (plain : Bool) : Tag :=
  match p.tag with
  | none => if plain then Tag.ofPlain boolWords text else .str
  | some name => if name = ['!'] then Tag.ofPlain boolWords text else Tag.ofName name

/-- The tag of a collection that is of type `usual` without one. -/
def collectionTag (p : Properties) (usual : Tag) : Tag :=
  match p.tag with
  | none => usual
  | some name => if name = ['!'] then usual else Tag.ofName name

end Properties

namespace Build

/-! ## Tokens -/

/-- The next token. -/
def peek : Build Token := do
  let c ← get
  match c.tokens with
  | t :: _ => return t
  | [] => throw (c.fault.getD .malformed)

/-- Passes over the next token. -/
def advance : Build Unit := modify fun c => { c with tokens := c.tokens.tail }

/-- The next token is `t`; then it is passed over. -/
def accept (t : Token) : Build Bool := do
  if (← peek) = t then
    advance
    return true
  else return false

/-- Passes over a token that has to be next. -/
def expect (t : Token) : Build Unit := do
  if ← accept t then return else throw .malformed

/-! ## Nodes -/

/-- A new node. -/
def add (tag : Tag) (content : Content) : Build Nat := do
  let id := (← get).graph.size
  modify fun c => { c with graph := c.graph.push ⟨tag, content⟩ }
  return id

/-- An empty scalar. -/
def empty : Build Nat := add .null (.scalar [])

/-- A new node with its properties; an anchor names one node only. -/
def addNamed (p : Properties) (tag : Tag) (content : Content) : Build Nat := do
  let id ← add tag content
  match p.anchor with
  | none => return id
  | some name =>
    if (← get).anchors.any (·.1 == name) then throw .malformed
    modify fun c => { c with anchors := (name, id) :: c.anchors }
    return id

/-- The node that an alias stands for. -/
def resolve (name : Text) : Build Nat := do
  match (← get).anchors.find? (·.1 == name) with
  | some (_, id) => return id
  | none => throw .malformed

/-- The full name of a tag. -/
def fullName (handle : Option Text) (suffix : Text) : Build Text := do
  match handle with
  | none => return suffix
  | some name =>
    match (← get).handles.find? (·.1 == name) with
    | some (_, meaning) => return meaning ++ suffix
    | none => throw .malformed

/-- Anchor and tag in front of a node. -/
def properties : Build Properties := do
  match ← peek with
  | .anchor name =>
    advance
    match ← peek with
    | .tag handle suffix =>
      advance
      return ⟨some name, some (← fullName handle suffix)⟩
    | _ => return ⟨some name, none⟩
  | .tag handle suffix =>
    advance
    match ← peek with
    | .anchor name =>
      advance
      return ⟨some name, some (← fullName handle suffix)⟩
    | _ => return ⟨none, some (← fullName handle suffix)⟩
  | _ => return ⟨none, none⟩

/-! ## Grammar -/

mutual

/-- A node. Block collections may start only if `block` is set, and a sequence without indentation
    only if `indentless` is. -/
def node (block indentless : Bool) : Nat → Build Nat
  | 0 => throw .malformed
  | fuel + 1 => do
    match ← peek with
    | .alias name =>
      advance
      resolve name
    | _ =>
      let p ← properties
      match ← peek with
      | .scalar text plain =>
        advance
        addNamed p (p.scalarTag text plain) (.scalar text)
      | .flowSequenceStart => sequence p (advance *> flowItems true fuel)
      | .flowMappingStart => mapping p (advance *> flowEntries true fuel)
      | .blockEntry =>
        if indentless then sequence p (blockItems true fuel) else missing p
      | .blockSequenceStart =>
        if block then sequence p (advance *> blockItems false fuel) else missing p
      | .blockMappingStart =>
        if block then mapping p (advance *> blockEntries fuel) else missing p
      | _ => missing p
where
  /-- An empty scalar, where properties stand for it. -/
  missing (p : Properties) : Build Nat := do
    if p.isEmpty then throw .malformed
    addNamed p (p.scalarTag [] true) (.scalar [])
  sequence (p : Properties) (items : Build (List Nat)) : Build Nat := do
    let id ← addNamed p (p.collectionTag .seq) (.sequence [])
    let items ← items
    modify fun c => { c with graph := c.graph.setContent id (.sequence items) }
    return id
  mapping (p : Properties) (entries : Build (List (Nat × Nat))) : Build Nat := do
    let id ← addNamed p (p.collectionTag .map) (.mapping [])
    let entries ← entries
    modify fun c => { c with graph := c.graph.setContent id (.mapping entries) }
    return id

/-- A node, or an empty scalar in front of one of the tokens `ends`. -/
def nodeBefore (ends : List Token) (block indentless : Bool) : Nat → Build Nat
  | 0 => throw .malformed
  | fuel + 1 => do
    if ends.contains (← peek) then empty else node block indentless fuel

/-- The items of a block sequence. -/
def blockItems (indentless : Bool) : Nat → Build (List Nat)
  | 0 => throw .malformed
  | fuel + 1 => do
    if ← accept .blockEntry then
      let item ←
        if indentless then nodeBefore [.blockEntry, .key, .value, .blockEnd] true false fuel
        else nodeBefore [.blockEntry, .blockEnd] true false fuel
      return item :: (← blockItems indentless fuel)
    else
      if !indentless then expect .blockEnd
      return []

/-- The entries of a block mapping. -/
def blockEntries : Nat → Build (List (Nat × Nat))
  | 0 => throw .malformed
  | fuel + 1 => do
    if ← accept .key then
      let ends := [Token.key, .value, .blockEnd]
      let key ← nodeBefore ends true true fuel
      let value ← if ← accept .value then nodeBefore ends true true fuel else empty
      return (key, value) :: (← blockEntries fuel)
    else
      expect .blockEnd
      return []

/-- The items of a flow sequence; an entry of a mapping may stand for a mapping of one entry. -/
def flowItems (first : Bool) : Nat → Build (List Nat)
  | 0 => throw .malformed
  | fuel + 1 => do
    if ← accept .flowSequenceEnd then return []
    if !first then expect .flowEntry
    match ← peek with
    | .key =>
      let id ← add .map (.mapping [])
      advance
      let key ← nodeBefore [.value, .flowEntry, .flowSequenceEnd] false false fuel
      let value ← if ← accept .value then nodeBefore [.flowEntry, .flowSequenceEnd] false false fuel else empty
      modify fun c => { c with graph := c.graph.setContent id (.mapping [(key, value)]) }
      return id :: (← flowItems false fuel)
    | .flowSequenceEnd =>
      advance
      return []
    | _ =>
      let item ← node false false fuel
      return item :: (← flowItems false fuel)

/-- The entries of a flow mapping. -/
def flowEntries (first : Bool) : Nat → Build (List (Nat × Nat))
  | 0 => throw .malformed
  | fuel + 1 => do
    if ← accept .flowMappingEnd then return []
    if !first then expect .flowEntry
    match ← peek with
    | .key =>
      advance
      let key ← nodeBefore [.value, .flowEntry, .flowMappingEnd] false false fuel
      let value ← if ← accept .value then nodeBefore [.flowEntry, .flowMappingEnd] false false fuel else empty
      return (key, value) :: (← flowEntries false fuel)
    | .flowMappingEnd =>
      advance
      return []
    | _ =>
      let key ← node false false fuel
      let value ← empty
      return (key, value) :: (← flowEntries false fuel)

end

/-! ## Documents -/

/-- The handles that every document knows. -/
def usualHandles : List (Text × Text) := [(['!'], ['!']), (['!', '!'], Tag.core)]

/-- The handles of directives: each is declared once, and so is the version, which has to be 1. -/
def handlesOf (versioned : Bool) (handles : List (Text × Text)) :
    List Directive → Except Fault (List (Text × Text))
  | [] => .ok (handles ++ usualHandles)
  | .version major :: rest =>
    if versioned || major != 1 then .error .malformed else handlesOf true handles rest
  | .handle name meaning :: rest =>
    if handles.any (·.1 == name) then .error .malformed
    else handlesOf versioned (handles ++ [(name, meaning)]) rest
  | .other :: rest => handlesOf versioned handles rest

/-- The directive that a token is. -/
def directive? : Token → Option Directive
  | .directive d => some d
  | _ => none

/-- Directives in front of a document. -/
def directives : Build Unit := do
  let tokens := (← get).tokens
  let found := tokens.takeWhile fun t => (directive? t).isSome
  let handles ← liftM (handlesOf false [] (found.filterMap directive?))
  modify fun c => { c with tokens := tokens.drop found.length, handles }

/-- The root of a document that starts with its mark or a directive; an ended text has none. -/
def markedRoot (fuel : Nat) : Build (Option Nat) := do
  if (← peek) = .streamEnd then return none
  directives
  expect .documentStart
  match ← peek with
  | .directive _ | .documentStart | .documentEnd | .streamEnd => return some (← empty)
  | _ => return some (← node true false fuel)

/-- The root of a document. -/
def root (fuel : Nat) : Build (Option Nat) := do
  match ← peek with
  | .directive _ | .documentStart | .streamEnd => markedRoot fuel
  | _ =>
    modify fun c => { c with handles := usualHandles }
    return some (← node true false fuel)

/-- Nothing but marks of the end may follow. -/
def finish : Build Unit := do
  modify fun c => { c with tokens := c.tokens.dropWhile (· == .documentEnd) }
  if (← peek) = .streamEnd then return
  directives
  let _ ← peek
  throw .malformed

/-- The document of a text. -/
def document (fuel : Nat) : Build (Option Nat) := do
  let top ← root fuel
  if top.isSome then finish
  return top

end Build

/-- The nodes of a text, and its root if it holds a document. -/
def Graph.ofText (text : Text) : Except Fault (Graph × Option Nat) := do
  let tokens := Tokens.ofText text
  let (top, c) ← (Build.document (4 * tokens.list.length + 8)).run ⟨tokens.list, tokens.fault, #[], [], []⟩
  return (c.graph, top)

end YamlSplice.Yaml
