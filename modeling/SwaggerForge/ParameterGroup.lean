import SwaggerForge.BracketPath
import SwaggerForge.Json.Basic

/-!
# Parameter groups

A reader is shown flattened parameters in nested groups, one for each object
on the way. The groups form a forest: the roots stand for the parameters that
were flattened, and every other group sits under the group of its parent path.
-/

namespace SwaggerForge

/-- **A group of parameters** with the groups inside it. -/
inductive ParameterGroup where
  /-- A group; roots carry a description and the schema of their object. -/
  | mk (name : String) (description : Option String) (schema : Option Json)
      (subGroups : List ParameterGroup)
deriving Repr

namespace ParameterGroup

/-- A group with nothing in it. -/
def named (name : String) : ParameterGroup := mk name none none []

/-- The path of the group. -/
def name : ParameterGroup → String
  | mk n _ _ _ => n

/-- The groups inside. -/
def subGroups : ParameterGroup → List ParameterGroup
  | mk _ _ _ gs => gs

mutual

/-- Whether a group or one inside it has the given name. -/
def holds (name : String) : ParameterGroup → Bool
  | mk n _ _ gs => n == name || anyHolds name gs

/-- Whether a forest has a group of the given name. -/
def anyHolds (name : String) : List ParameterGroup → Bool
  | [] => false
  | g :: rest => g.holds name || anyHolds name rest

end

mutual

/-- Puts a group last into the first one of the given name, from the outside
in. -/
def attach (parent : String) (child : ParameterGroup) : ParameterGroup → ParameterGroup
  | mk n d s gs =>
    if n = parent then mk n d s (gs ++ [child]) else mk n d s (attachIn parent child gs)

/-- `attach` in a forest. -/
def attachIn (parent : String) (child : ParameterGroup) :
    List ParameterGroup → List ParameterGroup
  | [] => []
  | g :: rest =>
    if g.holds parent then attach parent child g :: rest else g :: attachIn parent child rest

end

/-- **Makes sure that a forest has a group**, under its parent path as far as
there is one. -/
def ensure (name : String) (groups : List ParameterGroup) : List ParameterGroup :=
  if anyHolds name groups then groups
  else
    match _h : parentPath name with
    | none => groups ++ [named name]
    | some parent => attachIn parent (named name) (ensure parent groups)
termination_by name.toList.length
decreasing_by exact length_parentPath_lt _h

mutual

/-- The names of a group and of those inside it, outside in. -/
def names : ParameterGroup → List String
  | mk n _ _ gs => n :: allNames gs

/-- The names of a forest. -/
def allNames : List ParameterGroup → List String
  | [] => []
  | g :: rest => g.names ++ allNames rest

end

mutual

/-- **The document's form of a group.** -/
def toJson : ParameterGroup → Json
  | mk n d s gs =>
    Json.fields (
      [("name", .string n)]
      ++ Json.optional "description" (d.map .string)
      ++ Json.optional "schema" s
      ++ (if gs.isEmpty then [] else [("subGroups", .array (allToJson gs))]))

/-- The document's form of a forest. -/
def allToJson : List ParameterGroup → List Json
  | [] => []
  | g :: rest => g.toJson :: allToJson rest

end

end ParameterGroup

end SwaggerForge
