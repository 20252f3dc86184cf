import SwaggerForge.Json.Reader
import SwaggerForge.Table
import SwaggerForge.Yaml.Glyph

/-!
# Tags and directives

A tag names the type of a node. It is written in full between angle brackets,
or as a handle and a suffix, the handle standing for the first part of the tag
(`Handles.expand?`). Directives at the head of a document give the version of
the notation and declare handles.
-/

namespace SwaggerForge.Yaml

/-! ## The characters of a tag -/

/-- The value of an octet that is written as a percent sign and two digits. -/
def scanOctet : List Glyph → Option (Nat × List Glyph)
  | p :: a :: b :: rest =>
    match p.char, Json.hexValue? a.char, Json.hexValue? b.char with
    | '%', some high, some low => some (high * 16 + low, rest)
    | _, _, _ => none
  | _ => none

/-- Scans the other octets of a character, which give six bits each. -/
def scanTrailing : (count : Nat) → (value : Nat) → List Glyph → Option (Char × List Glyph)
  | 0, value, gs => some (Char.ofNat value, gs)
  | count + 1, value, gs =>
    match scanOctet gs with
    | none => none
    | some (octet, rest) =>
      if octet / 64 = 2 then scanTrailing count (value * 64 + octet % 64) rest else none

/-- **Scans an escaped character**: the octets of its UTF-8 form. -/
def scanEscaped (gs : List Glyph) : Option (Char × List Glyph) :=
  match scanOctet gs with
  | none => none
  | some (octet, rest) =>
    if octet < 0x80 then some (Char.ofNat octet, rest)
    else if octet / 32 = 6 then scanTrailing 1 (octet % 32) rest
    else if octet / 16 = 14 then scanTrailing 2 (octet % 16) rest
    else if octet / 8 = 30 then scanTrailing 3 (octet % 8) rest
    else none

/-- A character that stands for itself in a tag; the brackets and the comma do
only where no flow collection can be confused with them. -/
def isTagChar (brackets : Bool) (c : Char) : Bool :=
  isNameChar c || [';', '/', '?', ':', '@', '&', '=', '+', '$', '.', '!', '~', '*', singleQuote,
    '(', ')'].contains c || (brackets && [',', '[', ']'].contains c)

/-- Scans the characters of a tag, escaped ones included; `room` is the number
of glyphs still to read. -/
def scanTagChars (brackets : Bool) : (room : Nat) → (done : List Char) → List Glyph →
    Option (List Char × List Glyph)
  | 0, done, gs => some (done.reverse, gs)
  | _, done, [] => some (done.reverse, [])
  | room + 1, done, g :: rest =>
    if isTagChar brackets g.char then scanTagChars brackets room (g.char :: done) rest
    else if g.char = '%' then
      match scanEscaped (g :: rest) with
      | some (c, rest) => scanTagChars brackets room (c :: done) rest
      | none => none
    else some (done.reverse, g :: rest)

/-- The characters of a tag that come next. -/
def tagChars? (brackets : Bool) (gs : List Glyph) : Option (String × List Glyph) :=
  (scanTagChars brackets gs.length [] gs).map fun (cs, rest) => (String.ofList cs, rest)

/-! ## Handles -/

/-- The declared handles and what they stand for. -/
abbrev Handles := Table String

/-- **What a handle stands for**: what a directive says, and else what the
notation itself says. -/
def Handles.expand? (handles : Handles) (handle : String) : Option String :=
  match handles.get? handle with
  | some start => some start
  | none =>
    if handle = "!" then some "!"
    else if handle = "!!" then some "tag:yaml.org,2002:"
    else none

/-- **Scans a tag** behind its exclamation mark. The mark alone is a tag of its
own. -/
def scanTag (handles : Handles) (gs : List Glyph) : Option (String × List Glyph) :=
  if nextIn ['<'] gs then do
    let (tag, rest) ← tagChars? true (gs.drop 1)
    if tag ≠ "" ∧ nextIn ['>'] rest then some (tag, rest.drop 1) else none
  else
    let (name, rest) := spanChars isNameChar gs
    if nextIn ['!'] rest then do
      let (suffix, rest) ← tagChars? false (rest.drop 1)
      let start ← handles.expand? (String.ofList ('!' :: name ++ ['!']))
      if suffix = "" then none else some (start ++ suffix, rest)
    else do
      let (suffix, rest) ← tagChars? false gs
      if suffix = "" then some ("!", rest)
      else
        let start ← handles.expand? "!"
        some (start ++ suffix, rest)

/-! ## Directives -/

/-- **What the directives of a document say.** -/
structure Directives where
  /-- Whether the version has been given. -/
  versioned : Bool := false
  handles : Handles := ∅

/-- A number of at most nine digits. -/
def scanNumber (gs : List Glyph) : Option (Nat × List Glyph) :=
  let (digits, rest) := spanChars Char.isDigit gs
  if digits.isEmpty ∨ 9 < digits.length then none else some (Numeral.ofDigits digits, rest)

/-- Scans the version of the notation, which has to be 1.1 or 1.2. -/
def Directives.scanVersion (d : Directives) (gs : List Glyph) :
    Option (Directives × List Glyph) := do
  let (major, rest) ← scanNumber (dropSpacing gs)
  if nextIn ['.'] rest then
    let (minor, rest) ← scanNumber (rest.drop 1)
    if d.versioned ∨ major ≠ 1 ∨ (minor ≠ 1 ∧ minor ≠ 2) then none
    else some ({ d with versioned := true }, rest)
  else none

/-- Scans the declaration of a handle, which must not have been declared. -/
def Directives.scanHandle (d : Directives) (gs : List Glyph) :
    Option (Directives × List Glyph) := do
  let gs := dropSpacing gs
  let (name, rest) := spanChars isNameChar (gs.drop 1)
  let closed := nextIn ['!'] rest
  let handle := String.ofList ('!' :: name ++ if closed then ['!'] else [])
  let rest := if closed then rest.drop 1 else rest
  let (start, behind) ← tagChars? true (dropSpacing rest)
  if nextIn ['!'] gs ∧ (closed ∨ name.isEmpty) ∧ nextIn [' ', '\t'] rest ∧ start ≠ ""
      ∧ wordEnds behind ∧ ¬d.handles.contains handle then
    some ({ d with handles := d.handles.insert handle start }, behind)
  else none

/-- **Scans a directive** behind its percent sign, up to the end of its
line. -/
def Directives.scan (d : Directives) (gs : List Glyph) : Option (Directives × List Glyph) := do
  let (name, rest) := spanChars isNameChar gs
  let (d, rest) ←
    if !wordEnds rest then none
    else if name = "YAML".toList then d.scanVersion rest
    else if name = "TAG".toList then d.scanHandle rest
    else none
  return (d, ← endLine? rest)

end SwaggerForge.Yaml
