import SwaggerForge.BracketPath
import SwaggerForge.Enumeration
import SwaggerForge.FirstSeen
import SwaggerForge.Primitive

/-!
# Flattened parameters

A query cannot carry an object, so a parameter of a class type is replaced by
one parameter for each value inside it, named by the bracket path to the
value. A parameter that only some variants of a class have carries a **show
condition**: it matters when the discriminator at its place names one of
those variants.

One name can be reached in several ways. The descriptors that belong to it are
merged (`FlatParameter.merge`): a condition stays only if every way has one on
the same discriminator, and the allowed values are united.
-/

namespace SwaggerForge

/-- **When a parameter matters**: when another one has one of these values. -/
structure ShowCondition where
  /-- The name of the other parameter. -/
  parameter : String
  /-- The values of it. -/
  values : List String
deriving DecidableEq, Repr

/-- The condition of a parameter that matters in two cases: none unless both
depend on one parameter, and then on the values of either. -/
def ShowCondition.merge : Option ShowCondition → Option ShowCondition → Option ShowCondition
  | some a, some b =>
    if a.parameter = b.parameter then some ⟨a.parameter, FirstSeen.addAll a.values b.values⟩
    else none
  | _, _ => none

/-- **A flattened parameter.** -/
structure FlatParameter where
  /-- The bracket path to the value. -/
  name : String
  type : Primitive := .string
  /-- The schema of the elements of an array. -/
  items : Option Json := none
  /-- The values that are allowed, if not all are. -/
  enum : Option EnumValues := none
  description : Option String := none
  /-- The path of the group that shows it. -/
  group : Option String := none
  /-- When it matters, if not always. -/
  condition : Option ShowCondition := none
deriving DecidableEq, Repr

namespace FlatParameter

/-- **Merges another descriptor of the same name**: conditions as in
`ShowCondition.merge`, values united if both are restricted, and all else as
first seen. -/
def merge (p other : FlatParameter) : FlatParameter :=
  { p with
    condition := ShowCondition.merge p.condition other.condition
    enum := match p.enum, other.enum with
      | some a, some b => some (a.union b)
      | e, _ => e }

/-- Takes a descriptor in: merged into the one of its name, or behind all
others. -/
def absorb (p : FlatParameter) : List FlatParameter → List FlatParameter
  | [] => [p]
  | q :: rest => if q.name = p.name then q.merge p :: rest else q :: absorb p rest

/-- **One descriptor per name**, in the order in which the names were first
reached. -/
def mergeAll (ps : List FlatParameter) : List FlatParameter :=
  ps.foldl (fun merged p => p.absorb merged) []

/-- **The parameter under the parameter it was flattened from**: names are
prefixed, and it is shown in the group of its parent path. -/
def qualified (root : String) (p : FlatParameter) : FlatParameter :=
  { p with
    name := root ++ p.name
    group := parentPath (root ++ p.name)
    condition := p.condition.map fun c => { c with parameter := root ++ c.parameter } }

/-- **The document's parameter.** -/
def toJson (p : FlatParameter) : Json :=
  Json.fields (
    [("name", .string p.name), ("in", .string "query"), ("type", p.type.toJson)]
    ++ Json.optional "items" p.items
    ++ (match p.enum with
      | none => []
      | some e => e.fields)
    ++ Json.optional "description" (p.description.map .string)
    ++ Json.optional "x-group" (p.group.map .string)
    ++ Json.optional "x-showCondition" (p.condition.map fun c =>
        Json.fields [("name", .string c.parameter), ("value", .strings c.values)]))

end FlatParameter

end SwaggerForge
