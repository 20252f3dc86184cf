import SwaggerForge.Config.Basic
import SwaggerForge.Document.Basic

/-!
# Hints for input forms

A form that is made from the document should hide passwords, offer a calendar
for dates and a pick list where one is configured. What a parameter or property
is for is told by its name. Hints are annotations: beside them only the
expiry of a new session gets a default of one day.
-/

namespace SwaggerForge

namespace Hint

/-- The path of the operation that starts a session. -/
def sessionStartPath : String := "/service/session/action/start"

/-- The parameter of that operation that gets a default. -/
def expiryName : String := "expiry"

/-- One day in seconds. -/
def oneDay : Int := 86400

/-- Whether a name stands for something secret. -/
def isSecret (name : String) : Bool := name == "password" || name == "secret"

/-- Whether the name of a property stands for a date. -/
def isDateProperty (name : String) : Bool := (textBefore? "Date" name).isSome

/-- Whether the name of a parameter stands for a date, also as the last segment
of a bracket path. -/
def isDateParameter (name : String) : Bool :=
  isDateProperty name || (textBefore? "Date]" name).isSome

/-- **Where a pick list is to be offered, and from where.** -/
structure Source where
  /-- The parameter that is picked. -/
  parameter : String
  /-- The path of the operation whose parameter it is. -/
  scope : String
  /-- The operation that lists the objects. -/
  path : String
  method : String
  /-- The field that labels an object. -/
  label : String
deriving DecidableEq, Repr

/-- The source of a configured pick list, if the document has the operation that
lists the objects. -/
def source? (paths : Table Json) (p : PickList) : Option Source :=
  let path := actionPath p.service "list"
  match (paths.get? path).bind Json.fields? with
  | some ⟨(method, _) :: _⟩ =>
    some {
      parameter := p.parameter
      scope := actionPath p.service p.action
      path
      method
      label := p.label }
  | _ => none

/-- **The sources of a document**, in the order of the configuration. -/
def sources (config : Config) (paths : Table Json) : List Source :=
  config.pickLists.filterMap (source? paths)

/-- The annotation for a pick list. -/
def Source.toJson (s : Source) : Json :=
  Json.fields [
    ("path", .string s.path),
    ("method", .string s.method),
    ("array", .string "objects"),
    ("label", .string s.label),
    ("value", .string "id")]

/-- How a picked value of a type is entered by hand. -/
def inputType (type : Option Json) : String :=
  if type = some (.string "integer") ∨ type = some (.string "number") then "number" else "text"

/-- Says how a value is entered. -/
def setInput (input : String) (t : Table Json) : Table Json :=
  t.insert "x-inputType" (.string input)

/-- **Offers a pick list** to a parameter of the operation under the given path,
from the first source for it. -/
def offer (sources : List Source) (name : String) (scope : Option String) (t : Table Json) :
    Table Json :=
  match sources.find? fun s => s.parameter == name && some s.scope == scope with
  | none => t
  | some s =>
    let t := t.insert "x-dynamicEnum" s.toJson
    setInput (inputType (t.get? "type")) t

/-- Whether a name in a scope is the expiry of a new session. -/
def isExpiry (name : String) (scope : Option String) : Bool :=
  scope == some sessionStartPath && name == expiryName

/-- Gives the expiry of a new session its default. -/
def setExpiry (t : Table Json) : Table Json := t.insert "default" (.int oneDay)

/-- **Annotates a property.** -/
def annotateProperty (sources : List Source) (name : String) (scope : Option String)
    (t : Table Json) : Table Json :=
  let t := offer sources name scope t
  if isSecret name then setInput "password" t
  else if isDateProperty name then setInput "datetime" t
  else if isExpiry name scope then setExpiry t
  else t

/-- **Annotates a parameter.** A date wins over a secret, and a pick list over
both. -/
def annotateParameter (sources : List Source) (name : String) (scope : Option String)
    (t : Table Json) : Table Json :=
  let t := if isSecret name then setInput "password" t else t
  let t := if isDateParameter name then setInput "datetime" t else t
  let t := offer sources name scope t
  if isExpiry name scope then setExpiry t else t

mutual

/-- **The fields of a schema with its properties annotated**, nested ones
included. Only the properties of the schema itself are in the scope of an
operation. -/
def schemaFields (sources : List Source) (scope : Option String) :
    List (String × Json) → List (String × Json)
  | [] => []
  | (key, x) :: rest =>
    (key,
      if key = "items" then nested sources x
      else if key = "properties" then properties sources scope x
      else x) :: schemaFields sources scope rest

/-- A schema outside the scope of any operation. -/
def nested (sources : List Source) : Json → Json
  | .object ⟨fields⟩ => .object ⟨schemaFields sources none fields⟩
  | j => j

/-- The properties of a schema, if they are an object. -/
def properties (sources : List Source) (scope : Option String) : Json → Json
  | .object ⟨ps⟩ => .object ⟨eachProperty sources scope ps⟩
  | j => j

/-- Properties by name. References are left alone. -/
def eachProperty (sources : List Source) (scope : Option String) :
    List (String × Json) → List (String × Json)
  | [] => []
  | (name, .object ⟨fields⟩) :: rest =>
    (name,
      if (fields.lookup "$ref").isSome then .object ⟨fields⟩
      else .object (annotateProperty sources name scope ⟨schemaFields sources none fields⟩))
      :: eachProperty sources scope rest
  | (name, x) :: rest => (name, x) :: eachProperty sources scope rest

end

/-- A schema with its properties annotated. -/
def schema (sources : List Source) (scope : Option String) (t : Table Json) : Table Json :=
  ⟨schemaFields sources scope t.entries⟩

/-- **A parameter with its hints**: a body gets them in its schema, and a
reference none. -/
def parameter (sources : List Source) (scope : Option String) : Json → Json
  | .object t =>
    if t.contains "$ref" then .object t
    else
      match t.get? "schema" with
      | some (.object s) => .object (t.insert "schema" (.object (schema sources scope s)))
      | _ =>
        match t.get? "name" with
        | some (.string name) => .object (annotateParameter sources name scope t)
        | _ => .object t
  | j => j

/-- An operation with hints on its parameters. -/
def operation (sources : List Source) (path : String) (operation : Json) : Json :=
  operation.modifyField "parameters" (Json.mapItems (parameter sources (some path)))

end Hint

/-- **Puts hints** on the parameters of all operations, on shared parameters and
on definitions. -/
def Document.addHints (config : Config) (d : Document) : Document :=
  let sources := Hint.sources config d.paths
  { d with
    paths := d.paths.mapEntries fun path item => item.mapFields (Hint.operation sources path)
    parameters := d.parameters.map (Hint.parameter sources none)
    definitions := d.definitions.map (Hint.nested sources) }

end SwaggerForge
