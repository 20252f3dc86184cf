/-!
# Placed characters

What a character means in a YAML text depends on where it stands: at which
column, on which line, behind which white space. So a text is first laid out
as characters with their places (`glyphs?`), its line breaks brought to one
form.
-/

namespace SwaggerForge.Yaml

/-- **A character and its place.** -/
structure Glyph where
  char : Char
  /-- How many characters stand before it in the text. -/
  index : Nat
  /-- How many line breaks stand before it. -/
  line : Nat
  /-- How many characters stand before it on its line. -/
  column : Nat
deriving Repr, Inhabited

/-- A line break, all breaks of one kind being written as `'\n'`; the line and
paragraph separators are kept apart. -/
def isBreak (c : Char) : Bool := c = '\n' ∨ c.toNat = 0x2028 ∨ c.toNat = 0x2029

/-- A space or a tab. -/
def isSpacing (c : Char) : Bool := c = ' ' ∨ c = '\t'

/-- White space: spacing or a line break. -/
def isGap (c : Char) : Bool := isSpacing c ∨ isBreak c

/-- The characters of names of anchors, tag handles and directives. -/
def isNameChar (c : Char) : Bool := c.isAlphanum ∨ c = '_' ∨ c = '-'

/-- The single quote. -/
def singleQuote : Char := Char.ofNat 0x27

/-- The back quote, which starts nothing. -/
def backquote : Char := Char.ofNat 0x60

/-- **The characters that a text may hold**: no control characters but tabs and
line breaks. -/
def isPermitted (c : Char) : Bool :=
  let n := c.toNat
  n = 0x09 ∨ n = 0x0A ∨ n = 0x0D ∨ (0x20 ≤ n ∧ n ≤ 0x7E) ∨ n = 0x85 ∨ (0xA0 ≤ n ∧ n ≤ 0xFFFD)
    ∨ 0x10000 ≤ n

/-- Lays out a text behind the glyphs placed so far, latest first. A carriage
return, with or without a line feed behind it, and the next-line character
break lines like a line feed. -/
def layOut (done : List Glyph) (index line column : Nat) : List Char → List Glyph
  | [] => done.reverse
  | '\r' :: '\n' :: rest => layOut (⟨'\n', index, line, column⟩ :: done) (index + 2) (line + 1) 0 rest
  | c :: rest =>
    if c = '\r' ∨ c.toNat = 0x85 then
      layOut (⟨'\n', index, line, column⟩ :: done) (index + 1) (line + 1) 0 rest
    else if isBreak c then layOut (⟨c, index, line, column⟩ :: done) (index + 1) (line + 1) 0 rest
    else layOut (⟨c, index, line, column⟩ :: done) (index + 1) line (column + 1) rest

/-- **The glyphs of a text**, if all its characters are permitted. -/
def glyphs? (text : String) : Option (List Glyph) :=
  let cs := text.toList
  if cs.all isPermitted then some (layOut [] 0 0 0 cs) else none

/-- Whether white space or the end of the text comes next. -/
def wordEnds : List Glyph → Bool
  | [] => true
  | g :: _ => isGap g.char

/-- Whether a line break or the end of the text comes next. -/
def lineEnds : List Glyph → Bool
  | [] => true
  | g :: _ => isBreak g.char

/-- Whether one of the given characters comes next. -/
def nextIn (set : List Char) : List Glyph → Bool
  | [] => false
  | g :: _ => set.contains g.char

/-- Whether three of one character stand at the start of a line as a word of
their own. -/
def tripleAt (c : Char) : List Glyph → Bool
  | a :: b :: d :: rest =>
    a.column = 0 && a.char = c && b.char = c && d.char = c && wordEnds rest
  | _ => false

/-- Whether a mark of the start or the end of a document comes next. -/
def markAhead (gs : List Glyph) : Bool := tripleAt '-' gs || tripleAt '.' gs

/-- The characters that come next and satisfy a test, and what is behind
them. -/
def spanChars (p : Char → Bool) (gs : List Glyph) : List Char × List Glyph :=
  ((gs.takeWhile fun g => p g.char).map Glyph.char, gs.dropWhile fun g => p g.char)

/-- What is behind the spacing that comes next. -/
def dropSpacing (gs : List Glyph) : List Glyph := gs.dropWhile fun g => isSpacing g.char

/-- What is behind the rest of a line that holds nothing but spacing and a
comment. -/
def endLine? (gs : List Glyph) : Option (List Glyph) :=
  let gs := dropSpacing gs
  let gs := if nextIn ['#'] gs then gs.dropWhile fun g => !isBreak g.char else gs
  if lineEnds gs then some (gs.drop 1) else none

end SwaggerForge.Yaml
