import SwaggerForge.Diagnosis
import SwaggerForge.Json.Basic
import SwaggerForge.Text.Blank

/-!
# Primitive types

The types of values that are not classes, their names in a schema and in a
description, and the literals that a schema gives as their defaults.
-/

namespace SwaggerForge

/-- **A primitive type** of the description. -/
inductive Primitive where
  | boolean
  /-- An array; the type of its elements is kept beside it. -/
  | array
  | integer
  | number
  | string
  | object
  /-- An upload: the encoding of a form parameter, never the type of a
  value. -/
  | file
deriving DecidableEq, Repr, Inhabited

namespace Primitive

/-- The type's name in a description. -/
def keyword : Primitive → String
  | .boolean => "boolean"
  | .array => "array"
  | .integer => "integer"
  | .number => "number"
  | .string => "string"
  | .object => "object"
  | .file => "file"

/-- The type with the given name in a description. -/
def ofKeyword? (name : String) : Option Primitive :=
  [boolean, array, integer, number, string, object, file].find? (·.keyword == name)

/-- **The type that a schema means by a name**; other names are names of
classes. -/
def ofName? : String → Option Primitive
  | "bool" => some boolean
  | "array" => some array
  | "int" | "bigint" => some integer
  | "float" => some number
  | "string" => some string
  | "map" => some object
  | "file" => some file
  | _ => none

/-- Whether a schema means a primitive type by a name. -/
def isName (name : String) : Bool := (ofName? name).isSome

/-- The type to show where a value is described and not an upload. -/
def valueType : Primitive → Primitive
  | .file => .string
  | ty => ty

/-- Whether the values are numbers. -/
def isNumeric : Primitive → Bool
  | .integer | .number => true
  | _ => false

/-- The JSON text of a type, under the key `type`. -/
def toJson (ty : Primitive) : Json := .string ty.keyword

/-- The truth value that a word or digit stands for. -/
def truth? (text : String) : Option Bool :=
  match lowerAscii text with
  | "true" | "1" => some true
  | "false" | "0" => some false
  | _ => none

/-- **The value of a literal** of the given type, the literal having been
trimmed. Arrays, objects and uploads have no literals. -/
def ofLiteral? (ty : Primitive) (literal : String) : Option Json :=
  match ty with
  | .string => some (.string literal)
  | .integer => (Numeral.parseInt? literal).map .int
  | .number => ((Numeral.parse? literal).bind Binary64.ofNumeral?).map .float
  | .boolean => (truth? literal).map .bool
  | .array | .object | .file => none

/-- **The primitive type of a name**, which must be one. -/
def resolve (name : String) : Except Failure Primitive :=
  match ofName? name with
  | some ty => .ok ty
  | none => .error (.malformedSchema (.unknownPrimitive name))

/-- **The default that a literal declares.** A missing or blank literal and the
word `null` declare none; any other must be a literal of the type. `context`
says where it is declared. -/
def parseDefault (ty : Primitive) (literal : Option String) (context : String) :
    Except Failure (Option Json) :=
  match literal with
  | none => .ok none
  | some text =>
    let raw := trim text
    if raw = "" ∨ raw = "null" then .ok none
    else match ty.ofLiteral? raw with
      | some value => .ok (some value)
      | none => .error (.unknownDefault raw ty.keyword context)

end Primitive

end SwaggerForge
