/-
  YamlSplice.Yaml.Write — values as YAML text.

  Collections are written in block form, two columns deeper on each level; empty ones in flow form.
  A key stands on the line of its colon if it is a scalar of one line, an empty collection or a
  reference, and short; otherwise it is marked by a question mark. A document that is a plain scalar
  ends with a mark, since its end does not show.

  A node that is met again is written as a reference to the first, which gets an anchor. Anchors
  are numbered in the order in which nodes turn out to be shared.
-/

import YamlSplice.Yaml.Outline
import YamlSplice.Yaml.Page.Scalar

namespace YamlSplice.Yaml

namespace Write

/-- A page, with the labels of the nodes written on it. -/
structure Sheet where
  page : Page := {}
  met : List Nat := []

/-- How a labelled node is written. -/
inductive Mention where
  /-- It is not shared. -/
  | plain
  /-- It is the first of its label. -/
  | first (anchor : Text)
  | again (anchor : Text)
  deriving DecidableEq, Repr

/-- The name of the anchor of the `n`-th shared node. -/
def anchorName (n : Nat) : Text := 'i' :: 'd' :: Text.padded 3 n

variable (shared : List Nat)

/-- How a node of a label is written. -/
def mention (s : Sheet) (label : Option Nat) : Mention :=
  match label with
  | none => .plain
  | some label =>
    match shared.findIdx? (· == label) with
    | none => .plain
    | some i =>
      if s.met.contains label then .again (anchorName (i + 1)) else .first (anchorName (i + 1))

/-- The label of a node. -/
def labelOf : Outline → Option Nat
  | .scalar _ _ _ label => label
  | .sequence _ => none
  | .mapping _ _ label => label

/-- The tag of a node. -/
def tagOf : Outline → Tag
  | .scalar tag _ _ _ => tag
  | .sequence _ => .seq
  | .mapping isSet _ _ => if isSet then .set else .map

/-- A tag behind the short handle. -/
def tagText (tag : Tag) : Text := '!' :: '!' :: tag.shortName

/-- The node can stand on the line of its colon. The limit counts its tag, written or not, the name
    of its anchor and its text. -/
def isSimpleKey (s : Sheet) (key : Outline) : Bool :=
  let tag := tagText (tagOf key)
  let (again, anchor) : Bool × Text :=
    match mention shared s (labelOf key) with
    | .plain => (false, [])
    | .first anchor => (false, anchor)
    | .again anchor => (true, anchor)
  if again then anchor.length < 128
  else
    match key with
    | .scalar _ text _ _ =>
      let t := Style.traits text
      anchor.length + tag.length + text.length < 128 && !t.empty && !t.multiline
    | .sequence items => anchor.length + tag.length < 128 && items.isEmpty
    | .mapping _ entries _ => anchor.length + tag.length < 128 && entries.isEmpty

/-- The indentation of a block collection inside another, or at the root. -/
def inner : Option Nat → Nat
  | none => 0
  | some n => n + 2

/-- Where a node stands: the indentation around it, and whether it is a simple key. -/
structure Place where
  indent : Option Nat
  key : Bool

/-- A scalar with its tag, if it needs one. -/
def scalar (place : Place) (p : Page) (tag : Tag) (text : Text) (literal : Bool) : Page :=
  let typed := tag == Tag.ofPlain broadBoolWords text
  let style := Style.choose (Style.traits text) typed place.key literal
  let p := if style == .plain then p else if tag == .str then p else p.sign (tagText tag)
  let p := p.scalar style place.key ((place.indent.map (· + 2)).getD 2) text
  { p with openEnded := p.openEnded || (style == .plain && place.indent.isNone) }

/-- A reference, or what stands in front of a node: its anchor. The node itself is written only if it
    is not a reference. -/
def mentioned (s : Sheet) (label : Option Nat) (node : Sheet → Sheet) : Sheet :=
  match mention shared s label with
  | .again anchor => { s with page := s.page.sign ('*' :: anchor) }
  | .first anchor =>
    node { page := s.page.sign ('&' :: anchor), met := label.toList ++ s.met }
  | .plain => node s

mutual

/-- A node. -/
def node (place : Place) (o : Outline) (s : Sheet) : Sheet :=
  match o with
  | .scalar tag text literal label =>
    mentioned shared s label fun s => { s with page := scalar place s.page tag text literal }
  | .sequence items =>
    if items.isEmpty then { s with page := (Page.sign s.page ['[']).close [']'] }
    else sequence (inner place.indent) items s
  | .mapping isSet entries label =>
    mentioned shared s label fun s =>
      let s := if isSet then { s with page := s.page.sign (tagText .set) } else s
      if entries.isEmpty then { s with page := (s.page.sign ['\x7b']).close ['\x7d'] }
      else mapping (inner place.indent) entries s

/-- The items of a block sequence. -/
def sequence (indent : Nat) : List Outline → Sheet → Sheet
  | [], s => s
  | item :: rest, s =>
    let s := { s with page := (s.page.indentTo indent).mark ['-'] }
    sequence indent rest (node ⟨some indent, false⟩ item s)

/-- The entries of a block mapping. -/
def mapping (indent : Nat) : List (Outline × Outline) → Sheet → Sheet
  | [], s => s
  | (key, value) :: rest, s =>
    let s := { s with page := s.page.indentTo indent }
    let s :=
      if isSimpleKey shared s key then
        let s := node ⟨some indent, true⟩ key s
        { s with page := s.page.close [':'] }
      else
        let s := node ⟨some indent, false⟩ key { s with page := s.page.mark ['?'] }
        { s with page := (s.page.indentTo indent).mark [':'] }
    mapping indent rest (node ⟨some indent, false⟩ value s)

end

/-- The page of a document, its last line ended. -/
def document (o : Outline) : Page :=
  let p := (node o.sharedLabels ⟨none, false⟩ o {}).page.indentTo 0
  if p.openEnded then (p.sign "...".toList).indentTo 0 else p

end Write

/-- The text of a value, the places of which have the given origins. -/
def writeShared (value : Value) (origins : List Nat) : Except Value Text := do
  let (outline, _) ← (Outline.ofValue value).run origins
  return (Write.document outline).text

/-- The text of a value; the error is the part that cannot be written. -/
def write (value : Value) : Except Value Text := writeShared value []

end YamlSplice.Yaml
