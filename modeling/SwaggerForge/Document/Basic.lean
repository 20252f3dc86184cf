import SwaggerForge.Json.Printer
import SwaggerForge.Reference

/-!
# Documents

A description in the Swagger 2.0 format, its sections kept apart until it is
written. Sections hold plain JSON, so that a document that was not made by the
compiler can be handled as well.

`Document.dangling` lists the references that lead nowhere.
-/

namespace SwaggerForge

/-- **A document.** -/
structure Document where
  /-- Everything in front of the sections: version, host, credentials. -/
  header : Table Json := ∅
  /-- The shared parameters by key. -/
  parameters : Table Json := ∅
  /-- The catalogue of enumerations. -/
  enums : Json := .null
  /-- The class definitions by name. -/
  definitions : Table Json := ∅
  /-- The operations by path and then by method. -/
  paths : Table Json := ∅
  /-- One tag per service. -/
  tags : List Json := []
  /-- The catalogue of errors. -/
  errors : List Json := []
deriving DecidableEq, Repr

namespace Json

mutual

/-- **The targets of all references** inside a value, in order. A `$ref` that is
no string is an ordinary field. -/
def references : Json → List String
  | .array items => referencesOfItems items
  | .object ⟨fields⟩ => referencesOfFields fields
  | .null | .bool _ | .int _ | .float _ | .string _ => []

def referencesOfItems : List Json → List String
  | [] => []
  | x :: rest => x.references ++ referencesOfItems rest

def referencesOfFields : List (String × Json) → List String
  | [] => []
  | (key, x) :: rest =>
    (if key = "$ref" then
      match x with
      | .string target => [target]
      | x => x.references
    else x.references) ++ referencesOfFields rest

end

/-- Changes a field of an object, if the value is an object with that
field. -/
def modifyField (key : String) (f : Json → Json) : Json → Json
  | .object t => .object (t.modify key f)
  | j => j

/-- Changes every field of an object, if the value is one. -/
def mapFields (f : Json → Json) : Json → Json
  | .object t => .object (t.map f)
  | j => j

/-- Changes every item of an array, if the value is one. -/
def mapItems (f : Json → Json) : Json → Json
  | .array xs => .array (xs.map f)
  | j => j

/-- Writes a field of an object, if the value is one. -/
def setField (key : String) (value : Json) : Json → Json
  | .object t => .object (t.insert key value)
  | j => j

end Json

namespace Document

/-- **The written form of a document**: the header and then the sections, each
in its place if the header has its name. -/
def toJson (d : Document) : Json :=
  .object (d.header.insertAll [
    ("parameters", .object d.parameters),
    ("x-enums", d.enums),
    ("definitions", .object d.definitions),
    ("paths", .object d.paths),
    ("tags", .array d.tags),
    ("x-errors", .array d.errors)])

/-- The text of a document. -/
def text (d : Document) : String := d.toJson.pretty

/-- The operation under a path and a method. -/
def operation? (d : Document) (path method : String) : Option Json :=
  (d.paths.get? path).bind (·.field? method)

/-- Whether a reference leads to a definition or a shared parameter of the
document. -/
def resolves (d : Document) (target : String) : Bool :=
  match definitionName? target with
  | some name => d.definitions.contains name
  | none =>
    match parameterKey? target with
    | some key => d.parameters.contains key
    | none => false

/-- **The references that lead nowhere**, in order and with repetitions. -/
def dangling (d : Document) : List String :=
  d.toJson.references.filter fun target => !d.resolves target

end Document

end SwaggerForge
