import SwaggerForge.Json.Basic
import SwaggerForge.Decimal.Shortest

/-!
# JSON text

Two layouts of one text: compact, and indented by two blanks per level with
one entry a line and empty containers on one line. In strings only the
quote, the backslash and the control characters below the blank are escaped;
all else stands for itself.
-/

namespace SwaggerForge

/-- How a value is laid out. -/
inductive Layout where
  /-- No blank space at all. -/
  | compact
  /-- One entry a line, two blanks per level. -/
  | indented
deriving DecidableEq, Repr

namespace Layout

/-- What stands before an entry at the given depth. -/
def lineBreak : Layout → Nat → String
  | .compact, _ => ""
  | .indented, depth => "\n" ++ String.ofList (List.replicate (2 * depth) ' ')

/-- What stands between a key and its value. -/
def colon : Layout → String
  | .compact => ":"
  | .indented => ": "

end Layout

namespace Json

/-- A lowercase hexadecimal digit. -/
def hexDigit (n : Nat) : Char := Nat.digitChar (n % 16)

/-- **The escape of a character** inside a string; most characters stand for
themselves. -/
def escape (c : Char) : String :=
  if c = '"' then "\\\""
  else if c = '\\' then "\\\\"
  else if 0x20 ≤ c.toNat then c.toString
  else if c.toNat = 8 then "\\b"
  else if c = '\t' then "\\t"
  else if c = '\n' then "\\n"
  else if c.toNat = 12 then "\\f"
  else if c = '\r' then "\\r"
  else "\\u00" ++ String.ofList [hexDigit (c.toNat / 16), hexDigit c.toNat]

/-- Appends a quoted string. -/
def writeString (out : String) (s : String) : String :=
  (s.toList.foldl (fun out c => out ++ escape c) (out ++ "\"")) ++ "\""

mutual

/-- Appends the text of a value that stands at the given depth. -/
def write (layout : Layout) (depth : Nat) (out : String) : Json → String
  | .null => out ++ "null"
  | .bool true => out ++ "true"
  | .bool false => out ++ "false"
  | .int n => out ++ toString n
  | .float x => out ++ x.text
  | .string s => writeString out s
  | .array [] => out ++ "[]"
  | .array (x :: xs) =>
    let out := write layout (depth + 1) (out ++ "[" ++ layout.lineBreak (depth + 1)) x
    writeItems layout (depth + 1) out xs ++ layout.lineBreak depth ++ "]"
  | .object ⟨[]⟩ => out ++ "\x7b\x7d"
  | .object ⟨(k, x) :: rest⟩ =>
    let out := writeString (out ++ "\x7b" ++ layout.lineBreak (depth + 1)) k ++ layout.colon
    let out := write layout (depth + 1) out x
    writeFields layout (depth + 1) out rest ++ layout.lineBreak depth ++ "\x7d"

/-- Appends the remaining items of an array. -/
def writeItems (layout : Layout) (depth : Nat) (out : String) : List Json → String
  | [] => out
  | x :: rest =>
    writeItems layout depth (write layout depth (out ++ "," ++ layout.lineBreak depth) x) rest

/-- Appends the remaining fields of an object. -/
def writeFields (layout : Layout) (depth : Nat) (out : String) : List (String × Json) → String
  | [] => out
  | (k, x) :: rest =>
    let out := writeString (out ++ "," ++ layout.lineBreak depth) k ++ layout.colon
    writeFields layout depth (write layout depth out x) rest

end

/-- **The text of a value** in a layout. -/
def render (layout : Layout) (j : Json) : String := write layout 0 "" j

/-- The text without blank space. -/
def compact (j : Json) : String := j.render .compact

/-- The indented text. -/
def pretty (j : Json) : String := j.render .indented

end Json

end SwaggerForge
