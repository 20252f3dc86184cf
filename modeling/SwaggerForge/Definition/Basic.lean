import SwaggerForge.Enumeration
import SwaggerForge.Primitive
import SwaggerForge.Reference

/-!
# Class definitions

The document's definition of a class. Inheritance is `allOf` the base.
Polymorphism is a discriminated union: a class with concrete classes below it
has the **variants** that an object of its type may really be, lists them as
`anyOf`, and carries a discriminator property whose values are their names.
-/

namespace SwaggerForge

/-- The name of the property that tells variants apart. -/
def discriminatorName : String := "objectType"

/-- The name of the property that a filter sorts by. -/
def orderByName : String := "orderBy"

/-- The name of the definition of the request envelope. -/
def envelopeName : String := "RequestEnvelope"

/-- The name of the enumeration of the orders that a filter can sort by:
`XFilter` sorts by `XOrderBy`. -/
def orderByEnum? (className : String) : Option String :=
  (textBefore? "Filter" className).map (· ++ "OrderBy")

/-- **What a property of a definition holds.** -/
inductive Shape where
  /-- An object of another class. -/
  | reference (target : String)
  /-- A list of objects of another class. -/
  | referenceArray (target : String)
  /-- A value of a primitive type. -/
  | value (type : Primitive) (items : Option Primitive) (default : Option Json)
      (enum : Option EnumValues)
deriving DecidableEq, Repr

/-- **A property of a definition.** -/
structure DefinedProperty where
  name : String
  shape : Shape
  /-- It is set by the server and is no input. -/
  readOnly : Bool := false
  description : Option String := none
  /-- It tells variants apart. -/
  discriminator : Bool := false
deriving DecidableEq, Repr

/-- The schema of elements of a primitive type. -/
def Primitive.itemSchema (ty : Primitive) : Json := Json.fields [("type", ty.toJson)]

/-- **The schema of a property.** A reference stands alone; a discriminator
lists its values without labels. -/
def DefinedProperty.toJson (p : DefinedProperty) : Json :=
  match p.shape with
  | .reference target => definitionRef target
  | .referenceArray target =>
    Json.fields [("type", Primitive.array.toJson), ("items", definitionRef target)]
  | .value type items default enum =>
    Json.fields (
      [("type", type.toJson)]
      ++ Json.optional "items" (items.map Primitive.itemSchema)
      ++ Json.flag "readOnly" p.readOnly
      ++ Json.optional "default" default
      ++ (match enum with
        | none => []
        | some e => if p.discriminator then [("enum", .array e.values)] else e.fields)
      ++ Json.optional "description" (p.description.map .string))

/-- **The definition of a class.** -/
structure Definition where
  name : String
  /-- The base class, which may be the root. -/
  base : Option String
  abstract : Bool
  description : Option String
  /-- The properties: those that the compiler adds, then those declared. -/
  properties : List DefinedProperty
  /-- The classes that an object of this type may really be; none unless a
  concrete class is below. -/
  variants : List String
deriving DecidableEq, Repr

namespace Definition

/-- Whether objects of the type may be of several classes. -/
def isPolymorphic (d : Definition) : Bool := !d.variants.isEmpty

/-- A property of the definition. -/
def property? (d : Definition) (name : String) : Option DefinedProperty :=
  d.properties.find? (·.name == name)

/-- **The schema of a definition.** -/
def toJson (d : Definition) : Json :=
  Json.fields (
    [("title", .string d.name), ("type", Primitive.object.toJson),
      ("properties", .object (Table.ofList (d.properties.map fun p => (p.name, p.toJson))))]
    ++ Json.optional "allOf" (d.base.map fun b => .array [definitionRef b])
    ++ (if d.isPolymorphic then
        [("x-abstract", .bool d.abstract), ("anyOf", .array (d.variants.map definitionRef)),
          ("discriminator", .string discriminatorName)]
      else [])
    ++ Json.optional "description" (d.description.map .string))

end Definition

/-- **The definitions of all classes** over a root that has no properties. -/
structure DefinitionSet where
  /-- The name of the root. -/
  root : String
  /-- The definitions by class, in order of declaration. -/
  definitions : Table Definition
deriving DecidableEq, Repr

namespace DefinitionSet

/-- The definition of a class. -/
def get? (s : DefinitionSet) (name : String) : Option Definition := s.definitions.get? name

/-- The document's section of definitions: the root, then the classes. -/
def toTable (s : DefinitionSet) : Table Json :=
  (∅ : Table Json).insertAll
    ((s.root, Json.fields []) :: (s.definitions.map Definition.toJson).entries)

end DefinitionSet

/-- **The definition of the request envelope**: the session credential and the
API version. -/
def envelopeDefinition (sessionParameter apiVersion : String) : Json :=
  Json.fields [
    ("type", Primitive.object.toJson),
    ("properties", .object (Table.ofList [
      (sessionParameter, Primitive.string.itemSchema),
      ("apiVersion", Json.fields [("type", Primitive.string.toJson),
        ("default", .string apiVersion)])]))]

end SwaggerForge
