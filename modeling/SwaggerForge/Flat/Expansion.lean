import SwaggerForge.Definition.OfClass
import SwaggerForge.Flat.Parameter

/-!
# Flattening a class

The walk through a class visits **places**: a class at a bracket path. A visit
of a place sees the inputs of the classes above the class and then its own;
where the class is polymorphic, the discriminator and the inputs of every
variant follow, under the condition that the discriminator names it. An input
is a value, which is a parameter, or an object of another class, which is the
next place to visit.

The classes above and the variants are visited at the same path, and each such
visit takes in less than the one it is part of (`Reach`); every other step makes
the path deeper. So the walk ends at the depth bound (`Flattening.visit`). A
place it does not enter because of the bound is cut off and reported, and a
class without a definition ends the flattening. `Flattening.expand` merges what
the walk has sighted.
-/

namespace SwaggerForge

/-- **The result of flattening a class.** -/
structure Expansion where
  /-- The parameters, named relative to the one that is flattened. -/
  parameters : List FlatParameter
  /-- The paths at which the walk was cut off. -/
  truncated : List String
deriving DecidableEq, Repr

/-- What the walk meets. -/
inductive Sighting where
  | parameter (p : FlatParameter)
  /-- A place that is too deep to enter. -/
  | cut (path : String)
  /-- A class that has no definition. -/
  | undefined (name : String)
deriving DecidableEq, Repr

namespace Sighting

/-- The parameter that is met. -/
def parameter? : Sighting → Option FlatParameter
  | .parameter p => some p
  | .cut _ | .undefined _ => none

/-- The path that is cut off. -/
def cut? : Sighting → Option String
  | .cut path => some path
  | .parameter _ | .undefined _ => none

/-- The class that has no definition. -/
def undefined? : Sighting → Option String
  | .undefined name => some name
  | .parameter _ | .cut _ => none

end Sighting

/-- **What a visit takes in** of a class at its place. -/
inductive Reach where
  /-- The class alone. -/
  | own
  /-- The class and the classes above it. -/
  | lineage
  /-- The class, the classes above it, and its variants. -/
  | full
deriving DecidableEq, Repr

/-- How many kinds of visits a visit may still be made up of. -/
def Reach.rank : Reach → Nat
  | .own => 0
  | .lineage => 1
  | .full => 2

/-- What an input of a place is. -/
inductive FlatInput where
  /-- A value. -/
  | value (p : FlatParameter)
  /-- An object of a class. -/
  | object (target : String)
deriving DecidableEq, Repr

/-- The properties of a definition that a caller can set. -/
def Definition.inputs (d : Definition) : List DefinedProperty :=
  d.properties.filter fun p => !p.discriminator && !p.readOnly

/-- **What the walk knows.** -/
structure Flattening where
  declarations : Declarations
  definitions : DefinitionSet
  /-- The depth at which places are no longer entered. -/
  maxDepth : Nat

namespace Flattening

variable (f : Flattening)

/-- The schema of the elements of a list of objects: the class and all below
it. -/
def elementSchema (target : String) : Json :=
  Json.fields [
    ("type", Primitive.object.toJson),
    ("anyOf", .array ((target :: f.declarations.hierarchy.descendants target).map definitionRef))]

/-- **What an input of a place is.** `orderBy` holds the values that a property
to sort by gets if it has none. -/
def input (orderBy : Option EnumValues) (path : String) (condition : Option ShowCondition)
    (p : DefinedProperty) : FlatInput :=
  match p.shape with
  | .reference target => .object target
  | .referenceArray target =>
    .value {
      name := childPath path p.name
      type := .array
      items := some (f.elementSchema target)
      description := p.description
      condition }
  | .value type items _ enum =>
    .value {
      name := childPath path p.name
      type
      items := items.map Primitive.itemSchema
      enum := enum.or (if p.name = orderByName then orderBy else none)
      description := p.description
      condition }

/-- The discriminator of a place. -/
def discriminatorAt (path : String) (condition : Option ShowCondition) (variants : List String) :
    FlatParameter :=
  { name := childPath path discriminatorName
    type := .string
    enum := some (.ofVariants variants)
    condition }

/-- The condition that the discriminator of a place names a variant. -/
def variantCondition (path variant : String) : ShowCondition :=
  ⟨childPath path discriminatorName, [variant]⟩

/-- **The visit of a place**: nothing but a cut where the path is as deep as the
bound, nothing at the root, and elsewhere the inputs of the classes above, those
of the class itself, and then the discriminator and the variants. -/
def visit (orderBy : Option EnumValues) (reach : Reach) (name path : String)
    (condition : Option ShowCondition) : List Sighting :=
  if _deep : f.maxDepth ≤ bracketDepth path then [.cut path]
  else if name = f.definitions.root then []
  else
    match f.definitions.get? name with
    | none => [.undefined name]
    | some d =>
      (if _above : reach ≠ .own then
        (f.declarations.hierarchy.ancestors name).flatMap fun ancestor =>
          visit orderBy .own ancestor path condition
      else [])
      ++ (d.inputs.flatMap fun p =>
        match f.input orderBy path condition p with
        | .value leaf => [.parameter leaf]
        | .object target => visit orderBy .full target (childPath path p.name) condition)
      ++ (if _all : reach = .full ∧ d.isPolymorphic then
        .parameter (discriminatorAt path condition d.variants)
          :: (f.declarations.hierarchy.concreteDescendants name).flatMap fun variant =>
            visit orderBy .lineage variant path (some (variantCondition path variant))
      else [])
termination_by (f.maxDepth - bracketDepth path, reach.rank)
decreasing_by
  · refine Prod.Lex.right _ ?_
    cases reach with
    | own => exact absurd rfl _above
    | lineage => exact Nat.zero_lt_one
    | full => exact Nat.zero_lt_two
  · have := bracketDepth_lt_childPath path p.name
    exact Prod.Lex.left _ _ (by omega)
  · refine Prod.Lex.right _ ?_
    rw [_all.1]
    exact Nat.one_lt_two

/-- What the walk from a class sights. -/
def sightings (name : String) : List Sighting :=
  f.visit (f.declarations.orderBy? name) .full name "" none

/-- The parameters and the cuts of a walk. -/
def summarize (sightings : List Sighting) : Expansion :=
  { parameters := FlatParameter.mergeAll (sightings.filterMap Sighting.parameter?)
    truncated := FirstSeen.addAll [] (sightings.filterMap Sighting.cut?) }

/-- **Flattens a class.** Every class that the walk enters must be defined. -/
def expand (name : String) : Except Failure Expansion :=
  match (f.sightings name).findSome? Sighting.undefined? with
  | some missing => .error (.malformedSchema (.missingDefinition missing))
  | none => .ok (summarize (f.sightings name))

end Flattening

end SwaggerForge
