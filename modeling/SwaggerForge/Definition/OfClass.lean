import SwaggerForge.Definition.Basic
import SwaggerForge.Hierarchy
import SwaggerForge.Text.Description

/-!
# From classes to definitions

Each class has one definition. In front of its declared properties come those
that the compiler adds: the discriminator where the class is polymorphic, and
for a filter class whose order enumeration exists the property to sort by. A
declared property to sort by that has no enumeration of its own gets that of
the filter.
-/

namespace SwaggerForge

/-- What a class knows about the other declarations. -/
structure Declarations where
  hierarchy : Hierarchy
  enums : EnumCatalog

namespace Declarations

variable (env : Declarations)

/-- **The variants of a class**: the class itself unless it is abstract, and the
concrete classes below it, if there are any. -/
def variants (c : ClassDecl) : List String :=
  match env.hierarchy.concreteDescendants c.name with
  | [] => []
  | below => (if c.abstract then [] else [c.name]) ++ below

/-- The values that a filter class sorts by. -/
def orderBy? (className : String) : Option EnumValues :=
  (orderByEnum? className).bind env.enums.stringValues?

/-- The values of a named enumeration. One that is not declared is noted and
leaves the values open. -/
def enumValues (enumName : Option String) (context : String) : Report (Option EnumValues) :=
  match enumName with
  | none => pure none
  | some name =>
    match env.enums.values? name with
    | some e => pure (some e)
    | none => do
      Report.note (.missing .enumeration name context)
      pure none

/-- The type of the elements of an array that are no objects of a class, or
the class. -/
def elementOf (type : Primitive) (arrayType : Option String) (context : String) :
    Except Failure (Option Denotation) :=
  match type, arrayType with
  | .array, some element => (env.hierarchy.resolve element context).map some
  | _, _ => .ok none

/-- The remark that a property takes its values from an enumeration. -/
def enumRemark (enumName : String) : String := "Enum Type: `" ++ enumName ++ "`"

/-- **The definition of a declared property.** -/
def defineProperty (c : ClassDecl) (p : Property) : Report DefinedProperty := do
  let context := s!"{c.name}.{p.name}"
  let make (shape : Shape) (description : Option String) : DefinedProperty :=
    { name := p.name, shape, readOnly := p.readOnly, description }
  match ← env.hierarchy.resolve p.type context with
  | .reference target => return make (.reference target) none
  | .primitive type =>
    match ← env.elementOf type p.arrayType context with
    | some (.reference target) => return make (.referenceArray target) none
    | element =>
      let items := match element with
        | some (.primitive item) => some item
        | _ => none
      let default ← type.parseDefault p.default context
      let enum ← env.enumValues p.enumType context
      return make (.value type items default enum)
        (joinParagraphs [flagBadges p.flagNames, p.enumType.map enumRemark,
          cleanDescription p.description])

/-- Gives the property to sort by the filter's values if it has none of its
own. -/
def withOrderBy (orderBy : Option EnumValues) (p : DefinedProperty) : DefinedProperty :=
  match p.shape with
  | .value type items default none =>
    if p.name = orderByName then { p with shape := .value type items default orderBy } else p
  | _ => p

/-- The discriminator of a polymorphic class. -/
def discriminator (variants : List String) : List DefinedProperty :=
  match variants with
  | [] => []
  | vs => [{
      name := discriminatorName
      shape := .value .string none none (some (.ofVariants vs))
      discriminator := true }]

/-- The property to sort by that a filter class does not declare itself. -/
def addedOrderBy (c : ClassDecl) (orderBy : Option EnumValues) : List DefinedProperty :=
  match orderBy with
  | none => []
  | some values =>
    if c.properties.any (·.name == orderByName) then []
    else [{ name := orderByName, shape := .value .string none none (some values) }]

/-- **The definition of a class.** A class that has classes below it, all of
them abstract, is noted. -/
def define (c : ClassDecl) : Report Definition := do
  let variants := env.variants c
  if env.hierarchy.concreteDescendants c.name = [] ∧ env.hierarchy.descendants c.name ≠ [] then
    Report.note (.missing .concreteSubclass c.name s!"{discriminatorName} discriminator")
  let orderBy := env.orderBy? c.name
  let declared ← c.properties.mapM (env.defineProperty c)
  if let some b := c.base then
    let _ ← env.hierarchy.resolve b c.name
  return {
    name := c.name
    base := c.base
    abstract := c.abstract
    description := joinParagraphs [flagBadges (if c.abstract then ["abstract"] else []),
      cleanDescription c.description]
    properties := discriminator variants ++ addedOrderBy c orderBy
      ++ declared.map (withOrderBy orderBy)
    variants }

/-- **The definitions of all classes**, or the failure of the first class that
has none. -/
def defineAll : Report DefinitionSet := do
  let definitions ← env.hierarchy.classes.mapM fun c => do return (c.name, ← env.define c)
  return { root := env.hierarchy.root, definitions := Table.ofList definitions }

end Declarations

end SwaggerForge
