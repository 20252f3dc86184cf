import SwaggerForge.Config.Basic
import SwaggerForge.Enumeration
import SwaggerForge.Flat.Parameter
import SwaggerForge.ParameterGroup
import SwaggerForge.Primitive
import SwaggerForge.Reference

/-!
# Operations

One operation stands for one action. Its parameters are references to shared
parameters, inline parameters, and at most one body.
-/

namespace SwaggerForge

/-- **The schema of a type** that is named where no class is being defined. -/
inductive TypeSchema where
  | reference (target : String)
  | value (type : Primitive)
  /-- An array with a known type of elements. -/
  | arrayOf (items : TypeSchema)
deriving DecidableEq, Repr

/-- The document's form of a type. -/
def TypeSchema.toJson : TypeSchema → Json
  | .reference target => definitionRef target
  | .value type => Json.fields [("type", type.toJson)]
  | .arrayOf items => Json.fields [("type", Primitive.array.toJson), ("items", items.toJson)]

/-- What a value is like, wherever it travels. -/
structure ValueSchema where
  type : Primitive
  default : Option Json
  enum : Option EnumValues
  description : Option String
deriving DecidableEq, Repr

/-- The fields for default and allowed values. -/
def ValueSchema.constraintFields (v : ValueSchema) : List (String × Json) :=
  Json.optional "default" v.default
    ++ match v.enum with
      | none => []
      | some e => e.fields

/-- **A parameter that is written where it is used.** -/
structure InlineParameter where
  name : String
  required : Bool
  value : ValueSchema
deriving DecidableEq, Repr

namespace InlineParameter

/-- Where it travels: uploads as form data, all else in the query. -/
def location (p : InlineParameter) : String :=
  if p.value.type = .file then "formData" else "query"

/-- The document's form. -/
def toJson (p : InlineParameter) : Json :=
  Json.fields (
    [("name", .string p.name), ("in", .string p.location), ("type", p.value.type.toJson),
      ("required", .bool p.required)]
    ++ p.value.constraintFields
    ++ Json.optional "description" (p.value.description.map .string))

end InlineParameter

/-- **A property of a body.** -/
inductive BodyProperty where
  | reference (target : String)
  /-- A value, with the type of its elements if it is an array. -/
  | value (v : ValueSchema) (items : Option TypeSchema)
deriving DecidableEq, Repr

/-- The document's form of a property. -/
def BodyProperty.toJson : BodyProperty → Json
  | .reference target => definitionRef target
  | .value v items =>
    Json.fields (
      [("type", v.type.toJson)]
      ++ Json.optional "items" (items.map TypeSchema.toJson)
      ++ v.constraintFields
      ++ Json.optional "description" (v.description.map .string))

/-- **A body**: the parameters of an action as the properties of an object. -/
structure Body where
  /-- The definition that the object extends, if it extends one. -/
  extending : Option String
  properties : Table BodyProperty
  /-- The names of the properties that have to be there. -/
  required : List String
deriving DecidableEq, Repr

/-- The document's form of a body. -/
def Body.toJson (b : Body) : Json :=
  Json.fields [
    ("name", .string "body"),
    ("in", .string "body"),
    ("schema", Json.fields (
      [("type", Primitive.object.toJson)]
      ++ Json.optional "allOf" (b.extending.map fun name => .array [definitionRef name])
      ++ [("properties", .object (b.properties.map BodyProperty.toJson))]
      ++ (if b.required = [] then [] else [("required", .strings b.required)])))]

/-- **A parameter of an operation.** -/
inductive OperationParameter where
  /-- A shared parameter by its key. -/
  | shared (key : String)
  | inline (p : InlineParameter)
  | body (b : Body)
deriving DecidableEq, Repr

/-- The document's form of a parameter. -/
def OperationParameter.toJson : OperationParameter → Json
  | .shared key => parameterRef key
  | .inline p => p.toJson
  | .body b => b.toJson

/-- **What an operation answers.** -/
structure Responses where
  /-- The type of the result, if there is one. -/
  success : Option TypeSchema
  /-- The errors it may raise, if any. -/
  errors : Option String
deriving DecidableEq, Repr

/-- The document's form of the answers. -/
def Responses.toJson (r : Responses) : Json :=
  Json.fields (
    [("200", Json.fields (
      [("description", .string "Success")]
      ++ Json.optional "schema" (r.success.map TypeSchema.toJson)))]
    ++ Json.optional "x-errors" (r.errors.map fun text =>
        Json.fields [("description", .string text)]))

/-- **An operation.** -/
structure Operation where
  description : Option String
  /-- The service it belongs to. -/
  tag : String
  /-- Its identifier. -/
  id : String
  deprecated : Bool
  beta : Bool
  style : Style
  /-- The names of the parameters of the action, in order. -/
  actionParameters : List String
  /-- The groups in which flattened parameters are shown. -/
  groups : List ParameterGroup
  parameters : List OperationParameter
  /-- It is only for callers with a session. -/
  sessionRequired : Bool
  responses : Responses
deriving Repr

/-- **The document's form of an operation.** An operation that needs no session
says so by an empty list of credentials. -/
def Operation.toJson (o : Operation) : Json :=
  Json.fields (
    Json.optional "description" (o.description.map .string)
    ++ [("tags", .strings [o.tag]), ("operationId", .string o.id)]
    ++ Json.flag "deprecated" o.deprecated
    ++ Json.flag "x-beta" o.beta
    ++ [("x-requestFormat", .string o.style.method),
      ("x-actionParameters", .strings o.actionParameters)]
    ++ (if o.groups.isEmpty then []
      else [("x-parameterGroups", .array (ParameterGroup.allToJson o.groups))])
    ++ [("parameters", .array (o.parameters.map OperationParameter.toJson))]
    ++ (if o.sessionRequired then [] else [("security", .array [])])
    ++ [("responses", o.responses.toJson)])

/-- **What an action becomes**: an operation in its place, and the shared
parameters that it refers to. -/
structure PlacedOperation where
  path : String
  operation : Operation
  /-- The flattened parameters by key. -/
  shared : List (String × FlatParameter)
deriving Repr

/-- The method of the operation. -/
def PlacedOperation.method (o : PlacedOperation) : String := o.operation.style.method

end SwaggerForge
