import SwaggerForge.Table
import SwaggerForge.Decimal.Binary64

/-!
# JSON values

A `Json` value keeps what a document needs: integers and binary
floating-point numbers apart, and objects as tables in insertion order.

`Json.same` is the equality of the data model, which the order of an
object's keys does not enter; the structural equality `=` is finer.
-/

namespace SwaggerForge

/-- **A JSON value.** -/
inductive Json where
  | null
  | bool (b : Bool)
  | int (n : Int)
  | float (x : Binary64)
  | string (s : String)
  | array (items : List Json)
  | object (fields : Table Json)
deriving Repr

namespace Json

instance : Inhabited Json := ⟨null⟩

mutual

/-- Structural equality is decidable. -/
def decEq : (a b : Json) → Decidable (a = b)
  | .null, .null => isTrue rfl
  | .bool a, .bool b => if h : a = b then isTrue (by rw [h]) else isFalse (by simp [h])
  | .int a, .int b => if h : a = b then isTrue (by rw [h]) else isFalse (by simp [h])
  | .float a, .float b => if h : a = b then isTrue (by rw [h]) else isFalse (by simp [h])
  | .string a, .string b => if h : a = b then isTrue (by rw [h]) else isFalse (by simp [h])
  | .array xs, .array ys =>
    match decEqItems xs ys with
    | isTrue h => isTrue (by rw [h])
    | isFalse h => isFalse (by simp [h])
  | .object ⟨xs⟩, .object ⟨ys⟩ =>
    match decEqFields xs ys with
    | isTrue h => isTrue (by rw [h])
    | isFalse h => isFalse (by simp [h])
  | .null, .bool _ | .null, .int _ | .null, .float _ | .null, .string _ | .null, .array _
  | .null, .object _ | .bool _, .null | .bool _, .int _ | .bool _, .float _ | .bool _, .string _
  | .bool _, .array _ | .bool _, .object _ | .int _, .null | .int _, .bool _ | .int _, .float _
  | .int _, .string _ | .int _, .array _ | .int _, .object _ | .float _, .null | .float _, .bool _
  | .float _, .int _ | .float _, .string _ | .float _, .array _ | .float _, .object _
  | .string _, .null | .string _, .bool _ | .string _, .int _ | .string _, .float _
  | .string _, .array _ | .string _, .object _ | .array _, .null | .array _, .bool _
  | .array _, .int _ | .array _, .float _ | .array _, .string _ | .array _, .object _
  | .object _, .null | .object _, .bool _ | .object _, .int _ | .object _, .float _
  | .object _, .string _ | .object _, .array _ => isFalse (by simp)

def decEqItems : (a b : List Json) → Decidable (a = b)
  | [], [] => isTrue rfl
  | x :: xs, y :: ys =>
    match x.decEq y, decEqItems xs ys with
    | isTrue h, isTrue h' => isTrue (by rw [h, h'])
    | isFalse h, _ => isFalse (by simp [h])
    | _, isFalse h => isFalse (by simp [h])
  | [], _ :: _ | _ :: _, [] => isFalse (by simp)

def decEqFields : (a b : List (String × Json)) → Decidable (a = b)
  | [], [] => isTrue rfl
  | (k, x) :: xs, (k', y) :: ys =>
    if hk : k = k' then
      match x.decEq y, decEqFields xs ys with
      | isTrue h, isTrue h' => isTrue (by rw [hk, h, h'])
      | isFalse h, _ => isFalse (by simp [h])
      | _, isFalse h => isFalse (by simp [h])
    else isFalse (by simp [hk])
  | [], _ :: _ | _ :: _, [] => isFalse (by simp)

end

instance : DecidableEq Json := decEq

mutual

/-- **Equality of the data model**: objects are equal when they have the same
keys with equal values, in whatever order, and an integer never equals a
float. -/
def same : Json → Json → Bool
  | .null, .null => true
  | .bool a, .bool b => a == b
  | .int a, .int b => a == b
  | .float a, .float b => a.same b
  | .string a, .string b => a == b
  | .array xs, .array ys => sameItems xs ys
  | .object ⟨xs⟩, .object ⟨ys⟩ => xs.length == ys.length && sameFields xs ys
  | _, _ => false

def sameItems : List Json → List Json → Bool
  | [], [] => true
  | x :: xs, y :: ys => x.same y && sameItems xs ys
  | _, _ => false

/-- Every field of the first has its equal in the second. -/
def sameFields : List (String × Json) → List (String × Json) → Bool
  | [], _ => true
  | (k, x) :: rest, ys =>
    (match ys.lookup k with
      | some y => x.same y
      | none => false) && sameFields rest ys

end

/-- An object from fields with distinct keys, in order. -/
def fields (es : List (String × Json)) : Json := object ⟨es⟩

/-- An array of strings. -/
def strings (ss : List String) : Json := array (ss.map string)

/-- The fields of an object. -/
def fields? : Json → Option (Table Json)
  | .object t => some t
  | _ => none

/-- The text of a string. -/
def string? : Json → Option String
  | .string s => some s
  | _ => none

/-- A field of an object; nothing for other values. -/
def field? (j : Json) (key : String) : Option Json :=
  match j with
  | .object t => t.get? key
  | _ => none

/-- The text of a field, when the value is an object and the field a
string. -/
def textField? (j : Json) (key : String) : Option String :=
  (j.field? key).bind string?

/-- A field that is written only when it has a value. -/
def optional (key : String) (value : Option Json) : List (String × Json) :=
  match value with
  | none => []
  | some j => [(key, j)]

/-- A field that is written as `true` when a flag is set and left out when it
is not. -/
def flag (key : String) (set : Bool) : List (String × Json) :=
  if set then [(key, bool true)] else []

end Json

end SwaggerForge
