import SwaggerForge.Yaml.Token

/-!
# Nodes

A YAML document is a tree of scalars, sequences and mappings, in which a node
may stand for another one by its number. A node that is left out is an empty
plain scalar.

Collections come in blocks and in brackets. In a block mapping a sequence may
stand at the column of its key, and then only its dashes show that it is
there.
-/

namespace SwaggerForge.Yaml

/-- **A node.** -/
inductive Node where
  | scalar (style : ScalarStyle) (tag : Option String) (text : String)
  | sequence (items : List Node)
  | mapping (entries : List (Node × Node))
  /-- The node with the given number. -/
  | alias (number : Nat)
  /-- A node that has a number. -/
  | numbered (number : Nat) (node : Node)
deriving Inhabited

namespace Node

/-- **A node that is left out.** -/
def empty : Node := scalar .plain none ""

mutual

/-- The numbered nodes of a tree, in the order in which they start. -/
def numberedNodes : Node → List (Nat × Node)
  | .scalar .. | .alias _ => []
  | .sequence items => numberedItems items
  | .mapping entries => numberedEntries entries
  | .numbered number node => (number, node) :: node.numberedNodes

def numberedItems : List Node → List (Nat × Node)
  | [] => []
  | x :: rest => x.numberedNodes ++ numberedItems rest

def numberedEntries : List (Node × Node) → List (Nat × Node)
  | [] => []
  | (k, x) :: rest => k.numberedNodes ++ x.numberedNodes ++ numberedEntries rest

end

/-! ## Properties -/

/-- What may stand in front of a node: a number and a tag. -/
structure Properties where
  number : Option Nat := none
  tag : Option String := none

/-- The properties at the head of a list of tokens, in either order. -/
def Properties.take : List Token → Properties × List Token
  | .anchor n :: .tag t :: rest => (⟨n, t⟩, rest)
  | .anchor n :: rest => (⟨n, none⟩, rest)
  | .tag t :: .anchor n :: rest => (⟨n, t⟩, rest)
  | .tag t :: rest => (⟨none, t⟩, rest)
  | rest => ({}, rest)

/-- Whether there are any. -/
def Properties.any (p : Properties) : Bool := p.number.isSome || p.tag.isSome

/-- A node with its number. -/
def Properties.apply (p : Properties) (node : Node) : Node :=
  match p.number with
  | some n => .numbered n node
  | none => node

/-- The tag of a scalar; the mark alone says no more than no tag. -/
def Properties.scalarTag (p : Properties) : Option String := p.tag.filter (· ≠ "!")

/-! ## From tokens to a tree -/

/-- **Where a node stands**, which decides about the forms it may take. -/
inductive Place where
  /-- In a flow collection: no blocks. -/
  | flow
  /-- At the top or in a block sequence: any form. -/
  | block
  /-- In a block mapping: any form, and a sequence at its column. -/
  | mapping
deriving DecidableEq

/-- A reading that takes tokens from a list. -/
abbrev Reading := StateT (List Token) Option

/-- The token that comes next. -/
def peek : Reading (Option Token) := do return (← get).head?

/-- Whether one of the given tokens comes next. -/
def ahead (ts : List Token) : Reading Bool := do return (← peek).any ts.contains

/-- Goes on behind the next token. -/
def skip : Reading Unit := modify (·.drop 1)

/-- Takes a token if it comes next. -/
def accept (t : Token) : Reading Bool := do
  if ← ahead [t] then
    skip
    return true
  else return false

/-- Takes a token that has to come next. -/
def expect (t : Token) : Reading Unit := do
  unless ← accept t do failure

mutual

/-- **Reads a node.** All readings of nodes are bounded by `room`, of which a
token never needs more than two. -/
def read : (room : Nat) → Place → Reading Node
  | 0, _ => failure
  | room + 1, place => do
    let properties ← modifyGet Properties.take
    match ← peek with
    | some (.alias number) =>
      if properties.any then return properties.apply (.scalar .plain properties.tag "")
      skip
      return .alias number
    | some (.scalar style text) =>
      skip
      return properties.apply (.scalar style properties.scalarTag text)
    | some .openSequence =>
      skip
      return properties.apply (.sequence (← readItems room true []))
    | some .openMapping =>
      skip
      return properties.apply (.mapping (← readEntries room true []))
    | some .openBlockSequence =>
      if place ≠ .flow then
        skip
        let items ← readBlockItems room [.item, .closeBlock] []
        expect .closeBlock
        return properties.apply (.sequence items)
    | some .openBlockMapping =>
      if place ≠ .flow then
        skip
        return properties.apply (.mapping (← readBlockEntries room []))
    | some .item =>
      if place = .mapping then
        let items ← readBlockItems room [.item, .key, .value, .closeBlock] []
        return properties.apply (.sequence items)
    | _ => pure ()
    if properties.any then return properties.apply (.scalar .plain properties.tag "")
    else failure

/-- Reads a node that is left out if one of the given tokens comes next. -/
def readUnless : (room : Nat) → Place → List Token → Reading Node
  | 0, _, _ => failure
  | room + 1, place, ends => do
    if ← ahead ends then return empty else read room place

/-- Reads the items of a block sequence. -/
def readBlockItems : (room : Nat) → (ends : List Token) → (done : List Node) →
    Reading (List Node)
  | 0, _, _ => failure
  | room + 1, ends, done => do
    if ← accept .item then
      let x ← readUnless room .block ends
      readBlockItems room ends (x :: done)
    else return done.reverse

/-- Reads the entries of a block mapping and its end. -/
def readBlockEntries : (room : Nat) → (done : List (Node × Node)) →
    Reading (List (Node × Node))
  | 0, _ => failure
  | room + 1, done => do
    if ← accept .closeBlock then return done.reverse
    expect .key
    let ends := [.key, .value, .closeBlock]
    let k ← readUnless room .mapping ends
    let x ← if ← accept .value then readUnless room .mapping ends else pure empty
    readBlockEntries room ((k, x) :: done)

/-- Reads the items of a flow sequence and its end. An item may be a single
entry of a mapping. -/
def readItems : (room : Nat) → (first : Bool) → (done : List Node) → Reading (List Node)
  | 0, _, _ => failure
  | room + 1, first, done => do
    if ← accept .closeSequence then return done.reverse
    unless first do expect .separator
    if ← accept .closeSequence then return done.reverse
    let x ← if ← accept .key then do
        let entry ← readPair room
        pure (.mapping [entry])
      else read room .flow
    readItems room false (x :: done)

/-- Reads a single entry of a mapping in a flow sequence. In the place of a key
that is left out one token is passed over. -/
def readPair : (room : Nat) → Reading (Node × Node)
  | 0 => failure
  | room + 1 => do
    let k ← if ← ahead [.value, .separator, .closeSequence] then do
        skip
        pure empty
      else read room .flow
    let x ← if ← accept .value then readUnless room .flow [.separator, .closeSequence]
      else pure empty
    return (k, x)

/-- Reads the entries of a flow mapping and its end. -/
def readEntries : (room : Nat) → (first : Bool) → (done : List (Node × Node)) →
    Reading (List (Node × Node))
  | 0, _, _ => failure
  | room + 1, first, done => do
    if ← accept .closeMapping then return done.reverse
    unless first do expect .separator
    if ← accept .closeMapping then return done.reverse
    let entry ← if ← accept .key then do
        let k ← readUnless room .flow [.value, .separator, .closeMapping]
        let x ← if ← accept .value then readUnless room .flow [.separator, .closeMapping]
          else pure empty
        pure (k, x)
      else do
        let k ← read room .flow
        pure (k, empty)
    readEntries room false (entry :: done)

end

/-- Reads the content of a document, which may be left out behind a mark. -/
def readDocument (room : Nat) : Reading Node := do
  let explicit := (← peek).any fun t => t = .directive || t = .documentStart
  if explicit then
    modify (·.dropWhile (· = .directive))
    expect .documentStart
    if (← get).isEmpty then return empty
    readUnless room .block [.directive, .documentStart, .documentEnd]
  else read room .block

/-- **The tree of a list of tokens**, if they make one document and no
more. -/
def ofTokens? (ts : List Token) : Option Node := do
  let (node, rest) ← (readDocument (2 * ts.length + 2)).run ts
  if rest.all (· = .documentEnd) then some node else none

end Node

end SwaggerForge.Yaml
