import SwaggerForge.Json.Basic

/-!
# Reading JSON text

Text becomes tokens (`Json.tokens?`), tokens become a `Raw` tree
(`Raw.ofTokens?`), and a raw tree becomes a value (`Raw.toJson?`).

A `Raw` tree says how each value is written rather than what it means: a
number stays a numeral, the fields of an object stay in a list with
repetitions, and a string whose escapes do not make characters – half of a
surrogate pair – is kept as unreadable. So a reader that looks only at some
of the fields is stopped by a bad string or number only where it looks.
-/

namespace SwaggerForge

/-- **A JSON text as written.** -/
inductive Raw where
  | null
  | bool (b : Bool)
  /-- A number; `whole` when it is written with digits only. -/
  | number (numeral : Numeral) (whole : Bool)
  /-- A string, `none` when its escapes do not make characters. -/
  | string (text : Option String)
  | array (items : List Raw)
  /-- An object with all its fields, repeated keys included. -/
  | object (fields : List (Option String × Raw))
deriving Inhabited

namespace Json

/-- What the text is made of. -/
inductive Token where
  | openArray
  | closeArray
  | openObject
  | closeObject
  | comma
  | colon
  /-- A string, `none` when its escapes do not make characters. -/
  | string (text : Option String)
  /-- A number, a truth value or `null`. -/
  | scalar (value : Raw)

/-! ## Strings -/

/-- What one character or escape of a string contributes. -/
inductive Piece where
  | char (c : Char)
  /-- A code unit given by four hexadecimal digits. -/
  | unit (n : Nat)

/-- The value of a hexadecimal digit. -/
def hexValue? (c : Char) : Option Nat :=
  if c.isDigit then some (c.toNat - '0'.toNat)
  else if 'a' ≤ c ∧ c ≤ 'f' then some (c.toNat - 'a'.toNat + 10)
  else if 'A' ≤ c ∧ c ≤ 'F' then some (c.toNat - 'A'.toNat + 10)
  else none

/-- The code unit of four hexadecimal digits. -/
def unit? (a b c d : Char) : Option Nat := do
  return ((← hexValue? a) * 16 + (← hexValue? b)) * 256 + (← hexValue? c) * 16 + (← hexValue? d)

/-- The character a one-letter escape stands for. -/
def simpleEscape? (c : Char) : Option Char :=
  match c with
  | '"' | '\\' | '/' => some c
  | 'b' => some (Char.ofNat 8)
  | 'f' => some (Char.ofNat 12)
  | 'n' => some '\n'
  | 'r' => some '\r'
  | 't' => some '\t'
  | _ => none

/-- Scans a string behind its opening quote: the pieces up to the closing
quote and the text behind it. -/
def scanString : List Char → Option (List Piece × List Char)
  | [] => none
  | '"' :: rest => some ([], rest)
  | '\\' :: 'u' :: a :: b :: c :: d :: rest =>
    match unit? a b c d, scanString rest with
    | some n, some (ps, left) => some (.unit n :: ps, left)
    | _, _ => none
  | '\\' :: c :: rest =>
    match simpleEscape? c, scanString rest with
    | some e, some (ps, left) => some (.char e :: ps, left)
    | _, _ => none
  | c :: rest =>
    if c.toNat < 0x20 then none
    else match scanString rest with
      | some (ps, left) => some (.char c :: ps, left)
      | none => none

/-- **The characters of a string.** Two code units of a surrogate pair make
one character; a unit of a pair without the other makes none. -/
def joinPieces : List Piece → Option (List Char)
  | [] => some []
  | .char c :: rest => (joinPieces rest).map (c :: ·)
  | .unit high :: .unit low :: rest =>
    if 0xD800 ≤ high ∧ high < 0xDC00 then
      if 0xDC00 ≤ low ∧ low < 0xE000 then
        (joinPieces rest).map (Char.ofNat (0x10000 + (high - 0xD800) * 0x400 + (low - 0xDC00)) :: ·)
      else none
    else if 0xDC00 ≤ high ∧ high < 0xE000 then none
    else (joinPieces (.unit low :: rest)).map (Char.ofNat high :: ·)
  | .unit n :: rest =>
    if 0xD800 ≤ n ∧ n < 0xE000 then none else (joinPieces rest).map (Char.ofNat n :: ·)

/-! ## Numbers and words -/

/-- Scans a number: a minus sign, digits without a leading zero, a fraction,
a power of ten. -/
def scanNumber (cs : List Char) : Option (Raw × List Char) :=
  let (negative, cs₀) := match cs with
    | '-' :: rest => (true, rest)
    | _ => (false, cs)
  let (whole, cs₁) := Numeral.spanDigits cs₀
  if whole = [] ∨ (whole.length ≠ 1 ∧ whole.head? = some '0') then none
  else
    let fraction? : Option (List Char × List Char) := match cs₁ with
      | '.' :: rest =>
        let (ds, left) := Numeral.spanDigits rest
        if ds = [] then none else some (ds, left)
      | _ => some ([], cs₁)
    match fraction? with
    | none => none
    | some (fraction, cs₂) =>
      let exponent? : Option (Option Int × List Char) := match cs₂ with
        | c :: rest =>
          if c = 'e' ∨ c = 'E' then
            let (down, rest) := match rest with
              | '-' :: rest => (true, rest)
              | '+' :: rest => (false, rest)
              | _ => (false, rest)
            let (ds, left) := Numeral.spanDigits rest
            if ds = [] then none
            else some (some (if down then -(Numeral.ofDigits ds : Int) else Numeral.ofDigits ds), left)
          else some (none, cs₂)
        | [] => some (none, cs₂)
      match exponent? with
      | none => none
      | some (e, left) =>
        let numeral := ⟨negative, Numeral.ofDigits (whole ++ fraction), e.getD 0 - fraction.length⟩
        some (.number numeral (fraction.isEmpty && e.isNone), left)

/-- Scans the rest of a word. -/
def scanWord (word : List Char) (value : Raw) (cs : List Char) : Option (Raw × List Char) :=
  if word.isPrefixOf cs then some (value, cs.drop word.length) else none

/-- The four characters that may stand between tokens. -/
def isSpace (c : Char) : Bool := c = ' ' ∨ c = '\n' ∨ c = '\t' ∨ c = '\r'

/-- Scans one token that starts with the character `c`. -/
def scanToken (c : Char) (rest : List Char) : Option (Token × List Char) :=
  match c with
  | '[' => some (.openArray, rest)
  | ']' => some (.closeArray, rest)
  | '{' => some (.openObject, rest)
  | '}' => some (.closeObject, rest)
  | ',' => some (.comma, rest)
  | ':' => some (.colon, rest)
  | '"' =>
    match scanString rest with
    | some (ps, left) => some (.string ((joinPieces ps).map String.ofList), left)
    | none => none
  | 't' => (scanWord ['r', 'u', 'e'] (.bool true) rest).map fun (v, left) => (.scalar v, left)
  | 'f' => (scanWord ['a', 'l', 's', 'e'] (.bool false) rest).map fun (v, left) => (.scalar v, left)
  | 'n' => (scanWord ['u', 'l', 'l'] .null rest).map fun (v, left) => (.scalar v, left)
  | _ => (scanNumber (c :: rest)).map fun (v, left) => (.scalar v, left)

/-- **The tokens of a text**, behind those read so far. A token takes at least
its first character, which `room` – the number of characters still to read –
keeps account of. -/
def tokensFrom : (room : Nat) → List Token → List Char → Option (List Token)
  | _, done, [] => some done.reverse
  | 0, _, _ :: _ => none
  | room + 1, done, c :: rest =>
    if isSpace c then tokensFrom room done rest
    else match scanToken c rest with
      | some (t, left) => tokensFrom room (t :: done) left
      | none => none

/-- The tokens of a text. -/
def tokens? (text : String) : Option (List Token) :=
  let cs := text.toList
  tokensFrom cs.length [] cs

end Json

namespace Raw

open Json (Token)

/-! ## From tokens to a tree -/

/-- A container that is still open, its contents latest first. -/
inductive Frame where
  | array (done : List Raw)
  | object (done : List (Option String × Raw))
  /-- An object whose next value belongs to the given key. -/
  | field (done : List (Option String × Raw)) (key : Option String)

/-- What may come next. -/
inductive Expected where
  /-- A value; behind an opening bracket also the closing one. -/
  | item (first : Bool)
  /-- A key; behind an opening brace also the closing one. -/
  | key (first : Bool)
  | colon
  /-- A comma or the end of the container. -/
  | separator
  /-- Nothing: the text is complete. -/
  | finished (value : Raw)

/-- Puts a finished value where it belongs. -/
def deliver (v : Raw) : List Frame → Option (List Frame × Expected)
  | [] => some ([], .finished v)
  | .array done :: outer => some (.array (v :: done) :: outer, .separator)
  | .field done key :: outer => some (.object ((key, v) :: done) :: outer, .separator)
  | .object _ :: _ => none

/-- Closes the innermost container. -/
def close : Token → List Frame → Option (List Frame × Expected)
  | .closeArray, .array done :: outer => deliver (.array done.reverse) outer
  | .closeObject, .object done :: outer => deliver (.object done.reverse) outer
  | _, _ => none

/-- **One step of reading**: what a token does to the open containers. -/
def step : List Frame × Expected → Token → Option (List Frame × Expected)
  | (frames, .item _), .openArray => some (.array [] :: frames, .item true)
  | (frames, .item _), .openObject => some (.object [] :: frames, .key true)
  | (frames, .item _), .scalar v => deliver v frames
  | (frames, .item _), .string s => deliver (.string s) frames
  | (frames, .item true), .closeArray => close .closeArray frames
  | (.object done :: outer, .key _), .string s => some (.field done s :: outer, .colon)
  | (frames, .key true), .closeObject => close .closeObject frames
  | (frames, .colon), .colon => some (frames, .item false)
  | (.array done :: outer, .separator), .comma => some (.array done :: outer, .item false)
  | (.object done :: outer, .separator), .comma => some (.object done :: outer, .key false)
  | (frames, .separator), t => close t frames
  | _, _ => none

/-- The tree that the tokens make, if they make exactly one. -/
def ofTokens? (ts : List Token) : Option Raw :=
  match ts.foldlM step ([], .item false) with
  | some (_, .finished v) => some v
  | _ => none

/-- **Reads a text** as one JSON value with nothing behind it. -/
def parse? (text : String) : Option Raw := (Json.tokens? text).bind ofTokens?

/-! ## From a tree to a value -/

/-- The value of a number: whole numbers of 64 bits with or without a sign
are integers, all others binary floating-point numbers; none beyond their
range. -/
def numberValue? (n : Numeral) (whole : Bool) : Option Json :=
  let signed : Int := if n.negative then -(n.digits : Int) else n.digits
  if whole ∧ ¬(n.negative ∧ n.digits = 0) ∧ -Int.pow 2 63 ≤ signed ∧
      signed < Int.pow 2 64 then
    some (.int signed)
  else (Binary64.ofNumeral? n).map .float

mutual

/-- **The value of a tree**: a repeated key keeps its place and takes the last
value. -/
def toJson? : Raw → Option Json
  | .null => some .null
  | .bool b => some (.bool b)
  | .number n whole => numberValue? n whole
  | .string s => s.map .string
  | .array xs => (itemsToJson? xs).map .array
  | .object fs => (fieldsToJson? fs).map fun es => .object (Table.ofList es)

def itemsToJson? : List Raw → Option (List Json)
  | [] => some []
  | x :: rest => do return (← x.toJson?) :: (← itemsToJson? rest)

def fieldsToJson? : List (Option String × Raw) → Option (List (String × Json))
  | [] => some []
  | (k, x) :: rest => do return (← k, ← x.toJson?) :: (← fieldsToJson? rest)

end

end Raw

/-- Reads a text as one JSON value. -/
def Json.parse? (text : String) : Option Json := (Raw.parse? text).bind Raw.toJson?

end SwaggerForge
