import SwaggerForge.Json.Reader
import SwaggerForge.Yaml.Glyph

/-!
# Scalars

The texts of a YAML document, in five styles: plain, in single or double
quotes, and as blocks of lines, literal or folded.

A plain or quoted text may run over lines. White space inside it is then a
`Gap`: spacing around line breaks is dropped, a single break becomes a space,
and of several the first is dropped (`Gap.text`). A folded block follows the
same rule between lines that are not indented further.
-/

namespace SwaggerForge.Yaml

/-- **The style of a scalar.** -/
inductive ScalarStyle where
  | plain
  | singleQuoted
  | doubleQuoted
  | literal
  | folded
deriving DecidableEq, Repr

/-! ## White space inside a text -/

/-- **The white space between two words.** -/
inductive Gap where
  /-- Spacing on one line. -/
  | spacing (cs : List Char)
  /-- Line breaks: the first one, unless it was escaped, and the others. -/
  | breaks (first : Option Char) (others : List Char)

namespace Gap

/-- No white space. -/
def none : Gap := spacing []

/-- Whether there is no white space. -/
def isNone : Gap → Bool
  | spacing cs => cs.isEmpty
  | breaks .. => false

/-- Whether a line ends. -/
def endsLine : Gap → Bool
  | spacing _ => false
  | breaks .. => true

/-- White space that goes on with one more character. -/
def push (c : Char) : Gap → Gap
  | spacing cs => if isBreak c then breaks (some c) [] else spacing (cs ++ [c])
  | breaks first others => if isBreak c then breaks first (others ++ [c]) else breaks first others

/-- **What the white space contributes** to the text. -/
def text : Gap → List Char
  | spacing cs => cs
  | breaks (some '\n') [] => [' ']
  | breaks (some '\n') others => others
  | breaks first others => first.toList ++ others

end Gap

/-- The text read so far, latest first, behind a gap. -/
def joinGap (done : List Char) (gap : Gap) : List Char := gap.text.reverse ++ done

/-! ## Plain texts -/

/-- A plain text and what is behind it. -/
structure PlainText where
  text : String
  /-- Whether a line ended behind it. -/
  lineEnded : Bool
  rest : List Glyph

/-- **Scans a plain text.** It ends before a comment, a colon that ends a word,
a mark between documents, or a line that does not reach the least column of
content; inside brackets also before a bracket or a comma. -/
def scanPlain (inFlow : Bool) (floor : Nat) (done : List Char) (gap : Gap) :
    List Glyph → Option PlainText
  | [] => some ⟨String.ofList done.reverse, gap.endsLine, []⟩
  | g :: rest =>
    if isGap g.char then
      if gap.endsLine && g.char = '\t' && g.column < floor then none
      else scanPlain inFlow floor done (gap.push g.char) rest
    else if inFlow && g.char = ':' && nextIn [',', '?', '[', ']', '{', '}'] rest then none
    else if (g.char = '#' && !gap.isNone) || markAhead (g :: rest)
        || (gap.endsLine && !inFlow && g.column < floor)
        || (g.char = ':' && wordEnds rest)
        || (inFlow && [',', '[', ']', '{', '}'].contains g.char) then
      some ⟨String.ofList done.reverse, gap.endsLine, g :: rest⟩
    else scanPlain inFlow floor (g.char :: joinGap done gap) .none rest

/-! ## Quoted texts -/

/-- Scans a text in single quotes behind the opening one; two quotes stand for
one. -/
def scanSingleQuoted (done : List Char) (gap : Gap) :
    List Glyph → Option (String × List Glyph)
  | [] => none
  | g :: rest =>
    if markAhead (g :: rest) then none
    else if isGap g.char then scanSingleQuoted done (gap.push g.char) rest
    else if g.char ≠ singleQuote then scanSingleQuoted (g.char :: joinGap done gap) .none rest
    else match rest with
      | h :: rest =>
        if h.char = singleQuote then
          scanSingleQuoted (h.char :: joinGap done gap) .none rest
        else some (String.ofList (joinGap done gap).reverse, h :: rest)
      | [] => some (String.ofList (joinGap done gap).reverse, [])

/-- The value of the first hexadecimal digits of a text, of which there have to
be as many as given. -/
def hexValue? : (count : Nat) → (value : Nat) → List Glyph → Option Nat
  | 0, value, _ => some value
  | _ + 1, _, [] => none
  | count + 1, value, g :: rest =>
    match Json.hexValue? g.char with
    | some d => hexValue? count (value * 16 + d) rest
    | none => none

/-- How many hexadecimal digits follow the letter of an escape. -/
def escapeDigits? (c : Char) : Option Nat :=
  match c with
  | 'x' => some 2
  | 'u' => some 4
  | 'U' => some 8
  | _ => none

/-- The code point a one-letter escape stands for. -/
def simpleEscape? (c : Char) : Option Nat :=
  match c with
  | '0' => some 0x00
  | 'a' => some 0x07
  | 'b' => some 0x08
  | 't' | '\t' => some 0x09
  | 'n' => some 0x0A
  | 'v' => some 0x0B
  | 'f' => some 0x0C
  | 'r' => some 0x0D
  | 'e' => some 0x1B
  | ' ' => some 0x20
  | '"' => some 0x22
  | '/' => some 0x2F
  | '\\' => some 0x5C
  | 'N' => some 0x85
  | '_' => some 0xA0
  | 'L' => some 0x2028
  | 'P' => some 0x2029
  | _ => none

/-- The character of an escape given behind its letter by digits, and how many
these are. -/
def escape? (letter : Char) (rest : List Glyph) : Option (Char × Nat) :=
  match escapeDigits? letter with
  | none => (simpleEscape? letter).map fun n => (Char.ofNat n, 0)
  | some count =>
    match hexValue? count 0 rest with
    | none => none
    | some n => if n.isValidChar then some (Char.ofNat n, count) else none

/-- Scans a text in double quotes behind the opening one. An escaped line break
leaves nothing of itself and of the spacing behind it. -/
def scanDoubleQuoted (done : List Char) (gap : Gap) :
    List Glyph → Option (String × List Glyph)
  | [] => none
  | g :: rest =>
    if markAhead (g :: rest) then none
    else if isGap g.char then scanDoubleQuoted done (gap.push g.char) rest
    else if g.char = '"' then some (String.ofList (joinGap done gap).reverse, rest)
    else if g.char = '\\' then
      match rest with
      | [] => none
      | e :: rest =>
        if isBreak e.char then scanDoubleQuoted (joinGap done gap) (.breaks none []) rest
        else match escape? e.char rest with
          | some (c, digits) => scanDoubleQuoted (c :: joinGap done gap) .none (rest.drop digits)
          | none => none
    else scanDoubleQuoted (g.char :: joinGap done gap) .none rest
termination_by gs => gs.length
decreasing_by all_goals simp only [List.length_cons, List.length_drop]; omega

/-! ## Blocks of lines -/

/-- What becomes of the line breaks at the end of a block. -/
inductive Chomping where
  /-- All are dropped. -/
  | strip
  /-- One is kept. -/
  | clip
  /-- All are kept. -/
  | keep
deriving DecidableEq, Repr

/-- The chomping that a character asks for. -/
def Chomping.ofChar? (c : Char) : Option Chomping :=
  match c with
  | '+' => some .keep
  | '-' => some .strip
  | _ => none

/-- The indentation that a character asks for. -/
def increment? (c : Char) : Option Nat :=
  if c.isDigit ∧ c ≠ '0' then some (c.toNat - '0'.toNat) else none

/-- **Scans the header of a block**: a chomping and an indentation, in any
order, and nothing else on the line. -/
def scanHeader (gs : List Glyph) : Option (Chomping × Option Nat × List Glyph) :=
  let finish (chomping : Option Chomping) (increment : Option Nat) (gs : List Glyph) :=
    (endLine? gs).map fun rest => (chomping.getD .clip, increment, rest)
  match gs with
  | [] => finish none none []
  | g :: rest =>
    match Chomping.ofChar? g.char, increment? g.char with
    | some chomping, _ =>
      match rest with
      | [] => finish chomping none []
      | h :: tail =>
        match increment? h.char with
        | some n => finish chomping n tail
        | none => finish chomping none rest
    | none, some n =>
      match rest with
      | [] => finish none n []
      | h :: tail =>
        match Chomping.ofChar? h.char with
        | some chomping => finish chomping n tail
        | none => finish none n rest
    | none, none => finish none none gs

/-- A block that is being read. -/
structure Block where
  /-- The text so far, latest first. -/
  done : List Char := []
  /-- The break behind the last line. -/
  lastBreak : Option Char := none
  /-- Whether the last line starts with spacing. -/
  spaced : Bool := false
  /-- The breaks of the empty lines behind the last line. -/
  emptyLines : List Char := []
  /-- Whether a line is being read. -/
  inLine : Bool := false

namespace Block

/-- **What comes between two lines**: a folded block joins two lines by a
space, and drops the first of several breaks, unless one of the lines starts
with spacing. -/
def between (literal : Bool) (b : Block) (spaced : Bool) : List Char :=
  if !literal && b.lastBreak = some '\n' && !b.spaced && !spaced then
    if b.emptyLines.isEmpty then [' '] else b.emptyLines
  else b.lastBreak.toList ++ b.emptyLines

/-- The text of a finished block. -/
def text (chomping : Chomping) (b : Block) : String :=
  let kept := match chomping with
    | .strip => []
    | .clip => b.lastBreak.toList
    | .keep => b.lastBreak.toList ++ b.emptyLines
  String.ofList (b.done.reverse ++ kept)

/-- **Scans the lines of a block** with a known indentation. It ends with the
first text that does not reach it. -/
def scan (literal : Bool) (chomping : Chomping) (indent : Nat) (b : Block) :
    List Glyph → Option (String × List Glyph)
  | [] => some (b.text chomping, [])
  | g :: rest =>
    if b.inLine then
      if isBreak g.char then
        scan literal chomping indent
          { b with lastBreak := some g.char, emptyLines := [], inLine := false } rest
      else scan literal chomping indent { b with done := g.char :: b.done } rest
    else if g.char = ' ' && g.column < indent then scan literal chomping indent b rest
    else if g.char = '\t' && g.column < indent then none
    else if isBreak g.char then
      scan literal chomping indent { b with emptyLines := b.emptyLines ++ [g.char] } rest
    else if g.column = indent then
      let spaced := isSpacing g.char
      scan literal chomping indent
        { done := g.char :: (b.between literal spaced).reverse ++ b.done
          spaced := spaced
          inLine := true } rest
    else some (b.text chomping, g :: rest)

end Block

/-- The indentation of the first lines: the deepest run of spaces up to the
first text, at least `least`. A tab must not come before the text. -/
def detectIndent? (least : Nat) (gs : List Glyph) : Option Nat :=
  let margin (g : Glyph) : Bool := g.char = ' ' || isBreak g.char
  if nextIn ['\t'] (gs.dropWhile margin) then none
  else some ((gs.takeWhile margin).foldl
    (fun n g => if g.char = ' ' then max n (g.column + 1) else n) least)

/-- **Scans a block of lines** behind its indicator. An indentation that the
header asks for counts from the enclosing block. -/
def scanBlock (literal : Bool) (floor : Nat) (gs : List Glyph) :
    Option (String × List Glyph) := do
  let (chomping, increment, rest) ← scanHeader gs
  let indent ← match increment with
    | some n => some (floor - 1 + n)
    | none => detectIndent? (max floor 1) rest
  Block.scan literal chomping indent {} rest

end SwaggerForge.Yaml
