import SwaggerForge.Yaml.Scalar
import SwaggerForge.Yaml.Tag

/-!
# Tokens

A YAML text is a list of tokens once its layout is understood: the start and
the end of block collections, which are written by indentation, become tokens
of their own (`Lexer.openBlock`, `Lexer.closeBlocks`).

That a node is a key may show only at the colon behind it. So the lexer
remembers where a node starts that may be a key, an `ImplicitKey`, and puts the
key token there when the colon comes. A key has to stand on one line and to
be shorter than 1024 characters; one that starts at the column of the enclosing
block cannot be anything but a key.
-/

namespace SwaggerForge.Yaml

/-- **A token.** -/
inductive Token where
  | directive
  | documentStart
  | documentEnd
  | openBlockSequence
  | openBlockMapping
  | closeBlock
  | openSequence
  | closeSequence
  | openMapping
  | closeMapping
  /-- The dash in front of an item of a block sequence. -/
  | item
  /-- The comma between the entries of a flow collection. -/
  | separator
  | key
  | value
  /-- A node that is written elsewhere, by its number. -/
  | alias (number : Nat)
  /-- The number by which a node is referred to. -/
  | anchor (number : Nat)
  | tag (name : String)
  | scalar (style : ScalarStyle) (text : String)
deriving DecidableEq, Repr

/-- **A node that may turn out to be a key.** -/
structure ImplicitKey where
  /-- How many tokens stand before it. -/
  position : Nat
  /-- Its first glyph. -/
  start : Glyph
  /-- Whether it cannot be anything else. -/
  required : Bool

/-- Whether a node that goes on at the given glyph is no key any more. -/
def ImplicitKey.isExpired (k : ImplicitKey) (g : Glyph) : Bool :=
  k.start.line < g.line || k.start.index + 1024 < g.index

/-- **A text that is being read.** -/
structure Lexer where
  rest : List Glyph
  tokens : Array Token := #[]
  /-- The least columns of content in the open block collections, innermost
  first. -/
  floors : List Nat := []
  /-- The node of the innermost collection that may be a key. -/
  candidate : Option ImplicitKey := none
  /-- The same for what encloses the open flow collections, innermost
  first. -/
  outerCandidates : List (Option ImplicitKey) := []
  /-- Whether a key may start here. -/
  keyAllowed : Bool := true
  /-- The numbers that the names of anchors stand for. -/
  anchors : Table Nat := ∅
  directives : Directives := {}

namespace Lexer

/-- Whether a flow collection is open. -/
def inFlow (l : Lexer) : Bool := !l.outerCandidates.isEmpty

/-- The least column of content in the innermost block collection. -/
def floor (l : Lexer) : Nat := l.floors.headD 0

/-- Adds a token at the end. -/
def emit (t : Token) (l : Lexer) : Lexer := { l with tokens := l.tokens.push t }

/-- Adds a token behind a number of others. -/
def emitAt (position : Nat) (t : Token) (l : Lexer) : Lexer :=
  { l with tokens := l.tokens.insertIdxIfInBounds position t }

/-! ## Blocks -/

/-- **Opens a block collection** at a column, if that is deeper than the
innermost one. -/
def openBlock (column position : Nat) (t : Token) (l : Lexer) : Lexer :=
  if l.inFlow ∨ column < l.floor then l
  else { l.emitAt position t with floors := (column + 1) :: l.floors }

/-- **Closes the block collections** whose contents lie behind a column. -/
def closeBlocks (least : Nat) (l : Lexer) : Lexer :=
  if l.inFlow then l
  else
    let closed := (l.floors.takeWhile (least < ·)).length
    { l with
      tokens := l.tokens ++ Array.replicate closed .closeBlock
      floors := l.floors.drop closed }

/-! ## Keys -/

/-- Gives up the candidate, unless it has to be a key. -/
def dropCandidate (l : Lexer) : Option Lexer :=
  if l.candidate.any (·.required) then none else some { l with candidate := none }

/-- Takes the node that starts at a glyph for a candidate, where keys are
allowed. -/
def noteCandidate (g : Glyph) (l : Lexer) : Option Lexer :=
  if l.keyAllowed then
    l.dropCandidate.map fun l =>
      { l with candidate := some ⟨l.tokens.size, g, !l.inFlow && l.floor = g.column + 1⟩ }
  else some l

/-- Gives up the candidates that expire at a glyph. -/
def dropExpired (g : Glyph) (l : Lexer) : Option Lexer :=
  let expired (c : Option ImplicitKey) : Bool := c.any (·.isExpired g)
  if (l.candidate :: l.outerCandidates).any fun c => expired c && c.any (·.required) then none
  else
    let renew (c : Option ImplicitKey) : Option ImplicitKey := if expired c then none else c
    some { l with
      candidate := renew l.candidate
      outerCandidates := l.outerCandidates.map renew }

/-! ## Single tokens -/

/-- A mark between documents. -/
def documentMark (t : Token) (rest : List Glyph) (l : Lexer) : Option Lexer :=
  (l.closeBlocks 0).dropCandidate.map fun l =>
    { l.emit t with rest := rest.drop 2, keyAllowed := false }

/-- A directive. -/
def directive (rest : List Glyph) (l : Lexer) : Option Lexer := do
  let l ← (l.closeBlocks 0).dropCandidate
  let (directives, rest) ← l.directives.scan rest
  return { l.emit .directive with rest, directives, keyAllowed := false }

/-- The opening bracket of a flow collection. -/
def openFlow (t : Token) (g : Glyph) (rest : List Glyph) (l : Lexer) : Option Lexer :=
  (l.noteCandidate g).map fun l =>
    { l.emit t with
      rest
      keyAllowed := true
      candidate := none
      outerCandidates := l.candidate :: l.outerCandidates }

/-- The closing bracket of a flow collection. -/
def closeFlow (t : Token) (rest : List Glyph) (l : Lexer) : Option Lexer :=
  l.dropCandidate.map fun l =>
    { l.emit t with
      rest
      keyAllowed := false
      candidate := l.outerCandidates.headD none
      outerCandidates := l.outerCandidates.drop 1 }

/-- A comma. -/
def separator (rest : List Glyph) (l : Lexer) : Option Lexer :=
  l.dropCandidate.map fun l => { l.emit .separator with rest, keyAllowed := true }

/-- The dash of an item. -/
def item (g : Glyph) (rest : List Glyph) (l : Lexer) : Option Lexer :=
  if !l.inFlow && !l.keyAllowed then none
  else
    (l.openBlock g.column l.tokens.size .openBlockSequence).dropCandidate.map fun l =>
      { l.emit .item with rest, keyAllowed := true }

/-- The question mark of a key. -/
def explicitKey (g : Glyph) (rest : List Glyph) (l : Lexer) : Option Lexer :=
  if !l.inFlow && !l.keyAllowed then none
  else
    (l.openBlock g.column l.tokens.size .openBlockMapping).dropCandidate.map fun l =>
      { l.emit .key with rest, keyAllowed := !l.inFlow }

/-- **The colon in front of a value.** The candidate becomes a key. -/
def value (g : Glyph) (rest : List Glyph) (l : Lexer) : Option Lexer :=
  match l.candidate with
  | some k =>
    let l := (l.emitAt k.position .key).openBlock k.start.column k.position .openBlockMapping
    some { l.emit .value with rest, keyAllowed := false, candidate := none }
  | none =>
    if !l.inFlow && !l.keyAllowed then none
    else
      let l := l.openBlock g.column l.tokens.size .openBlockMapping
      some { l.emit .value with rest, keyAllowed := !l.inFlow }

/-- An anchor. Its number is that of the names bound before it. -/
def anchor (g : Glyph) (rest : List Glyph) (l : Lexer) : Option Lexer := do
  let l ← l.noteCandidate g
  let (name, rest) ← scanName rest
  let number := l.anchors.size
  return { l.emit (.anchor number) with
    rest, keyAllowed := false, anchors := l.anchors.insert name number }
where
  /-- Scans a name and what may stand behind it. -/
  scanName (gs : List Glyph) : Option (String × List Glyph) :=
    let (name, rest) := spanChars isNameChar gs
    if name.isEmpty ∨ !(wordEnds rest || nextIn ['?', ':', ',', ']', '}', '%', '@', backquote] rest) then
      none
    else some (String.ofList name, rest)

/-- A reference to a node whose anchor has come before. -/
def reference (g : Glyph) (rest : List Glyph) (l : Lexer) : Option Lexer := do
  let l ← l.noteCandidate g
  let (name, rest) ← anchor.scanName rest
  let number ← l.anchors.get? name
  return { l.emit (.alias number) with rest, keyAllowed := false }

/-- A tag. -/
def tag (g : Glyph) (rest : List Glyph) (l : Lexer) : Option Lexer := do
  let l ← l.noteCandidate g
  let (name, rest) ← scanTag l.directives.handles rest
  if wordEnds rest ∨ (l.inFlow ∧ nextIn [','] rest) then
    return { l.emit (.tag name) with rest, keyAllowed := false }
  else none

/-- A block of lines. -/
def block (style : ScalarStyle) (rest : List Glyph) (l : Lexer) : Option Lexer := do
  let l ← l.dropCandidate
  let (text, rest) ← scanBlock (style = .literal) l.floor rest
  return { l.emit (.scalar style text) with rest, keyAllowed := true }

/-- A quoted text. -/
def quoted (style : ScalarStyle) (scanned : Option (String × List Glyph)) (g : Glyph) (l : Lexer) :
    Option Lexer := do
  let l ← l.noteCandidate g
  let (text, rest) ← scanned
  return { l.emit (.scalar style text) with rest, keyAllowed := false }

/-- A plain text. A key may start behind it if its line has ended. -/
def plain (g : Glyph) (rest : List Glyph) (l : Lexer) : Option Lexer := do
  let l ← l.noteCandidate g
  let scanned ← scanPlain l.inFlow l.floor [g.char] .none rest
  return { l.emit (.scalar .plain scanned.text) with
    rest := scanned.rest, keyAllowed := scanned.lineEnded }

/-! ## Reading on -/

/-- Skips white space and comments. A line break in a block allows a key, and
where one is allowed tabs are no white space. -/
def skipGaps (inFlow keyAllowed inComment : Bool) : List Glyph → Bool × List Glyph
  | [] => (keyAllowed, [])
  | g :: rest =>
    if isBreak g.char then skipGaps inFlow (keyAllowed || !inFlow) false rest
    else if inComment || g.char = ' ' || (g.char = '\t' && (inFlow || !keyAllowed))
        || (g.index = 0 && g.char.toNat = 0xFEFF) then
      skipGaps inFlow keyAllowed inComment rest
    else if g.char = '#' then skipGaps inFlow keyAllowed true rest
    else (keyAllowed, g :: rest)

/-- Goes on to the next token. -/
def toToken (l : Lexer) : Lexer :=
  let (keyAllowed, rest) := skipGaps l.inFlow l.keyAllowed false l.rest
  { l with keyAllowed, rest }

/-- **Reads the token** that starts with a glyph. -/
def token (g : Glyph) (rest : List Glyph) (l : Lexer) : Option Lexer :=
  if g.column = 0 ∧ g.char = '%' then l.directive rest
  else if tripleAt '-' (g :: rest) then l.documentMark .documentStart rest
  else if tripleAt '.' (g :: rest) then l.documentMark .documentEnd rest
  else match g.char with
    | '[' => l.openFlow .openSequence g rest
    | '{' => l.openFlow .openMapping g rest
    | ']' => l.closeFlow .closeSequence rest
    | '}' => l.closeFlow .closeMapping rest
    | ',' => l.separator rest
    | '-' => if wordEnds rest then l.item g rest else l.plain g rest
    | '?' => if l.inFlow || wordEnds rest then l.explicitKey g rest else l.plain g rest
    | ':' => if l.inFlow || wordEnds rest then l.value g rest else l.plain g rest
    | '*' => l.reference g rest
    | '&' => l.anchor g rest
    | '!' => l.tag g rest
    | '|' => if l.inFlow then none else l.block .literal rest
    | '>' => if l.inFlow then none else l.block .folded rest
    | '"' => l.quoted .doubleQuoted (scanDoubleQuoted [] .none rest) g
    | c =>
      if c = singleQuote then l.quoted .singleQuoted (scanSingleQuoted [] .none rest) g
      else if isGap c || ['#', '%', '@', backquote].contains c then none else l.plain g rest

/-- **Reads all tokens.** Each takes at least its first glyph, which `room` – the
number of glyphs still to read – keeps account of. -/
def run : (room : Nat) → Lexer → Option (List Token)
  | room, l =>
    let l := l.toToken
    match l.rest, room with
    | [], _ => (l.closeBlocks 0).dropCandidate.map (·.tokens.toList)
    | _ :: _, 0 => none
    | g :: rest, room + 1 =>
      match (l.dropExpired g).bind fun l => (l.closeBlocks (g.column + 1)).token g rest with
      | some l => run room l
      | none => none

end Lexer

/-- **The tokens of a text.** -/
def tokens? (text : String) : Option (List Token) :=
  (glyphs? text).bind fun gs => Lexer.run gs.length { rest := gs }

end SwaggerForge.Yaml
