import SwaggerForge.Text.VisibleTable

/-!
# Quoted text

Text in double quotes for a reader at a terminal. Quotes, backslashes, line
breaks, tabs and the null character have short escapes, and every other
character that would not be seen is written by its code point in braces.
-/

namespace SwaggerForge

/-- Which quotation marks are escaped. -/
inductive Quoting where
  /-- Only the double quote, which ends the text. -/
  | text
  /-- The single quote as well. -/
  | path
deriving DecidableEq, Repr

/-- A code point between braces, in hexadecimal. -/
def codePointEscape (c : Char) : List Char :=
  '\\' :: 'u' :: Char.ofNat 0x7B :: Nat.toDigits 16 c.toNat ++ [Char.ofNat 0x7D]

/-- The written form of a character. -/
def quoteChar (quoting : Quoting) (c : Char) : List Char :=
  if c = '"' ∨ c = '\\' then ['\\', c]
  else if c = Char.ofNat 39 ∧ quoting = .path then ['\\', c]
  else if c = '\n' then ['\\', 'n']
  else if c = '\t' then ['\\', 't']
  else if c = '\r' then ['\\', 'r']
  else if c.toNat = 0 then ['\\', '0']
  else if CharSet.invisible.contains c then codePointEscape c
  else [c]

/-- **A quoted text.** -/
def quoted (quoting : Quoting) (s : String) : String :=
  String.ofList ('"' :: s.toList.flatMap (quoteChar quoting) ++ ['"'])

end SwaggerForge
