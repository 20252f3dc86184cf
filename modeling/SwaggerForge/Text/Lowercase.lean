import SwaggerForge.Text.CaseTable

/-!
# Lowercase text

The full lowercase mapping of Unicode: letter by letter, except that `İ`
becomes two characters and that a capital sigma at the end of a word becomes
the final form `ς` (`endsWord`).
-/

namespace SwaggerForge

/-- The small letter of a character, or the character itself. -/
def lowerChar (c : Char) : Char :=
  let n := c.toNat
  if n < 128 then c.toLower
  else match CaseTable.runs.find? fun r =>
      r.first ≤ n ∧ n ≤ r.last ∧ (n - r.first) % r.step = 0 with
    | some r => Char.ofNat (n + r.shift).toNat
    | none => c

/-- Whether the first character that is not passed over is a letter with
case. -/
def meetsLetter (cs : List Char) : Bool :=
  match cs.dropWhile CaseTable.passedOver.contains with
  | c :: _ => CaseTable.cased.contains c
  | [] => false

/-- **Whether a word ends between two texts**: there is a letter in front, the
nearest character first, and none behind. -/
def endsWord (before after : List Char) : Bool := meetsLetter before && !meetsLetter after

/-- Lowers the remaining characters behind those given in reverse. -/
def lowerFrom (before : List Char) : List Char → List Char
  | [] => []
  | c :: rest =>
    (if c = 'Σ' then [if endsWord before rest then 'ς' else 'σ']
      else if c = 'İ' then ['i', Char.ofNat 0x307]
      else [lowerChar c]) ++ lowerFrom (c :: before) rest

/-- **The lowercase text.** -/
def lowercase (s : String) : String := String.ofList (lowerFrom [] s.toList)

end SwaggerForge
