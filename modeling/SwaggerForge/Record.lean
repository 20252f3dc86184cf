import SwaggerForge.Json.Reader

/-!
# Reading records from trees

A schema and a configuration are records, and a record can be written in
more than one notation. `Readable` is what a notation has to offer: how a
tree of it is read as a text, a truth value, a list or a record.

A record is written either by name or by position (`Written`). By name its
fields come in any order, fields of unknown name are passed over, and a known
field that comes twice makes it unreadable. By position they come in the order
of declaration, and only as many as there are.
-/

namespace SwaggerForge

/-- **How a record is written.** -/
inductive Written (τ : Type) where
  /-- The values of its first fields, in order. -/
  | byPosition (values : List τ)
  /-- Its fields with their names. -/
  | byName (fields : List (String × τ))

/-- **A notation that records are read from.** Every reading is `none` when the
tree is not of the kind. -/
class Readable (τ : Type) where
  /-- The text of a string. -/
  text? : τ → Option String
  /-- A truth value. -/
  truth? : τ → Option Bool
  /-- A natural number of 64 bits. -/
  count? : τ → Option Nat
  /-- Whether the tree says that there is no value. -/
  absent? : τ → Option Bool
  /-- The items of a list. -/
  items? : τ → Option (List τ)
  /-- The fields of a record. -/
  record? : τ → Option (Written τ)
  /-- The name of an alternative that carries nothing. -/
  choice? : τ → Option String

namespace Readable

variable {τ : Type} {α : Type} [Readable τ]

/-- The values of the named fields, as far as they are written: all those
present by name, each at most once, or the first ones by position, at least
`least` of them. -/
def alignFields (names : List String) (least : Nat) : Written τ → Option (List (Option τ))
  | .byPosition values =>
    if least ≤ values.length ∧ values.length ≤ names.length then
      some (values.map some ++ List.replicate (names.length - values.length) none)
    else none
  | .byName fields =>
    names.mapM fun name =>
      match fields.filter (·.1 == name) with
      | [] => some none
      | [(_, value)] => some (some value)
      | _ => none

/-- The values of the named fields of a record. -/
def fieldsOf? (names : List String) (least : Nat) (x : τ) : Option (List (Option τ)) :=
  (record? x).bind (alignFields names least)

/-- A field that has to be there. -/
def required (read : τ → Option α) : Option τ → Option α
  | none => none
  | some x => read x

/-- A field that may be left out. -/
def defaulting (default : α) (read : τ → Option α) : Option τ → Option α
  | none => some default
  | some x => read x

/-- A field that may be left out or be written without a value. -/
def possibly (read : τ → Option α) : Option τ → Option (Option α)
  | none => some none
  | some x =>
    match absent? x with
    | none => none
    | some true => some none
    | some false => (read x).map some

/-- A list of things read alike. -/
def list (read : τ → Option α) (x : τ) : Option (List α) :=
  (items? x).bind fun xs => xs.mapM read

end Readable

/-- **JSON as a notation of records**: a record is an object or an array, and an
alternative is a string or an object with that one key and the value
`null`. -/
instance : Readable Raw where
  text?
    | .string s => s
    | _ => none
  truth?
    | .bool b => some b
    | _ => none
  count?
    | .number n whole =>
      if whole ∧ ¬n.negative ∧ n.digits ≤ Numeral.countLimit then some n.digits else none
    | _ => none
  absent?
    | .null => some true
    | _ => some false
  items?
    | .array xs => some xs
    | _ => none
  record?
    | .array xs => some (.byPosition xs)
    | .object fs => (fs.mapM fun f : Option String × Raw => f.1.map (·, f.2)).map .byName
    | _ => none
  choice?
    | .string s => s
    | .object [(some name, .null)] => some name
    | _ => none

end SwaggerForge
