import SwaggerForge.Flat.Cache
import SwaggerForge.Operation.Basic
import SwaggerForge.RequestParameters

/-!
# From actions to operations

In body style the parameters of an action are the properties of one body. In
query style each parameter of a primitive type is written inline, arrays are
left out, and a parameter of a class type is flattened into shared parameters
that the operation refers to. An action that takes an upload is always made in
query style.
-/

namespace SwaggerForge

/-- **What is known when actions become operations.** -/
structure OperationContext where
  config : Config
  flattening : Flattening
  /-- The errors that actions may raise. -/
  errors : List ErrorDecl
  requestParameters : RequestParameters

namespace OperationContext

variable (ctx : OperationContext)

/-- The classes and enumerations. -/
def declarations : Declarations := ctx.flattening.declarations

/-- The style an action is made in. -/
def styleOf (a : Action) : Style := if a.hasFile then .query else ctx.config.style

/-! ## Types and values -/

/-- The schema of a type in a place for values, where an upload is a string. -/
def elementSchema (type context : String) : Except Failure TypeSchema := do
  match ← ctx.declarations.hierarchy.resolve type context with
  | .reference target => return .reference target
  | .primitive ty => return .value ty.valueType

/-- The schema of the elements of an array, if they have a type. -/
def itemsSchema (type : Primitive) (arrayType : Option String) (context : String) :
    Except Failure (Option TypeSchema) :=
  match type, arrayType with
  | .array, some element => (ctx.elementSchema element context).map some
  | _, _ => .ok none

/-- The schema of a result. -/
def resultSchema (r : ResultType) (context : String) : Except Failure TypeSchema := do
  match ← ctx.declarations.hierarchy.resolve r.type context with
  | .reference target => return .reference target
  | .primitive ty =>
    match ← ctx.itemsSchema ty r.arrayType context with
    | some items => return .arrayOf items
    | none => return .value ty.valueType

/-- Where a parameter stands. -/
def parameterContext (a : Action) (p : Parameter) : String := s!"{a.name}({p.name})"

/-- **The default and the allowed values** that a parameter declares. -/
def constraints (p : Parameter) (type : Primitive) (context : String) :
    Report (Option Json × Option EnumValues) := do
  let default ← type.parseDefault p.default context
  let enum ← ctx.declarations.enumValues p.enumType context
  return (default, enum)

/-! ## Body style -/

/-- A parameter as a property of the body. -/
def bodyProperty (a : Action) (p : Parameter) : Report BodyProperty := do
  let context := parameterContext a p
  match ← ctx.declarations.hierarchy.resolve p.type context with
  | .reference target => return .reference target
  | .primitive type =>
    let items ← ctx.itemsSchema type p.arrayType context
    let (default, enum) ← ctx.constraints p type context
    return .value { type, default, enum, description := cleanDescription p.description } items

/-- The properties that every body has and the action does not declare. -/
def addRequestProperties (extra : List (String × String)) (properties : Table BodyProperty) :
    Table BodyProperty :=
  extra.foldl (fun t e => if t.contains e.1 then t else t.insert e.1 (.reference e.2)) properties

/-- The names of the parameters that have to be there. -/
def requiredNames (a : Action) : List String :=
  (a.parameters.filter fun p => !p.optional).map (·.name)

/-- **The body of an action.** -/
def body (a : Action) : Report Body := do
  let properties ← a.parameters.mapM fun p => do return (p.name, ← ctx.bodyProperty a p)
  return {
    extending := if ctx.config.profile = .enveloped then some envelopeName else none
    properties := addRequestProperties ctx.requestParameters.bodyProperties
      (Table.ofList properties)
    required := requiredNames a }

/-- The reference to the session credential, for actions that need a session. -/
def sessionParameter (a : Action) : List OperationParameter :=
  if a.sessionRequired then [.shared ctx.requestParameters.session] else []

/-- The references to the other request-wide parameters. -/
def attachedParameters : List OperationParameter :=
  ctx.requestParameters.attached.map .shared

/-- **The parameters in body style.** In the enveloped profile the credential
is in the body. -/
def bodyParameters (a : Action) : Report (List OperationParameter) := do
  let leading := (if ctx.config.profile = .enveloped then [] else ctx.sessionParameter a)
    ++ ctx.attachedParameters
  match a.parameters with
  | [] => return leading
  | _ => return leading ++ [.body (← ctx.body a)]

/-! ## Query style -/

/-- What a parameter becomes in a query. -/
inductive QueryPart where
  | inline (p : InlineParameter)
  /-- An array, which is left out. -/
  | omitted
  /-- A class, flattened under the name of the parameter. -/
  | flattened (p : Parameter) (flats : List FlatParameter)
deriving Repr

/-- The description of an inline parameter, headed by its enumeration. -/
def inlineDescription (p : Parameter) (enum : Option EnumValues) : Option String :=
  joinParagraphs [
    if enum.isSome then p.enumType.map Declarations.enumRemark else none,
    cleanDescription p.description]

/-- A parameter of a primitive type, written inline. -/
def inlineParameter (p : Parameter) (type : Primitive) (context : String) :
    Report InlineParameter := do
  let (default, enum) ← ctx.constraints p type context
  return {
    name := p.name
    required := !p.optional
    value := { type, default, enum, description := inlineDescription p enum } }

/-- **A parameter in a query.** -/
def queryPart (a : Action) (p : Parameter) : Cached QueryPart := do
  let context := parameterContext a p
  match ← ctx.declarations.hierarchy.resolve p.type context with
  | .reference target =>
    let expansion ← Cached.expansion ctx.flattening target
    return .flattened p (expansion.parameters.map (FlatParameter.qualified p.name))
  | .primitive .array => return .omitted
  | .primitive type => return .inline (← ctx.inlineParameter p type context)

namespace QueryPart

/-- The key of a flattened parameter among the shared ones. -/
def sharedKey (p : Parameter) (flat : FlatParameter) : String := s!"{p.type}:{flat.name}"

/-- The shared parameters that a part brings along. -/
def shared : QueryPart → List (String × FlatParameter)
  | .flattened p flats => flats.map fun flat => (sharedKey p flat, flat)
  | _ => []

/-- The parameters that a part puts into the operation. -/
def parameters : QueryPart → List OperationParameter
  | .inline p => [.inline p]
  | .omitted => []
  | .flattened p flats => flats.map fun flat => .shared (sharedKey p flat)

/-- The group of a flattened parameter itself. -/
def rootGroup (p : Parameter) : ParameterGroup :=
  .mk p.name (some ("Object Type: `" ++ p.type ++ "`")) (some (definitionRef p.type)) []

/-- Adds the groups that a part is shown in. -/
def addGroups (groups : List ParameterGroup) : QueryPart → List ParameterGroup
  | .flattened p flats =>
    (flats.filterMap (·.group)).foldl (fun groups name => ParameterGroup.ensure name groups)
      (groups ++ [rootGroup p])
  | _ => groups

end QueryPart

/-- The groups of all parts. -/
def groupsOf (parts : List QueryPart) : List ParameterGroup :=
  parts.foldl QueryPart.addGroups []

/-- **The parameters in query style.** -/
def queryParameters (a : Action) (parts : List QueryPart) : List OperationParameter :=
  ctx.sessionParameter a ++ ctx.attachedParameters ++ parts.flatMap QueryPart.parameters

/-! ## Answers -/

/-- The line about an error that an action may raise. An error that is not
declared is noted. -/
def errorLine (context name : String) : Report String :=
  match ctx.errors.find? (·.name == name) with
  | some e =>
    match e.displayMessage with
    | some message => pure ("* `" ++ name ++ "`: " ++ message)
    | none => pure ("* `" ++ name ++ "`")
  | none => do
    Report.note (.missing .error name context)
    return "* `" ++ name ++ "`"

/-- The schema of what an action returns; a result without a type is none. -/
def successSchema (a : Action) (context : String) : Except Failure (Option TypeSchema) :=
  match a.result with
  | none => .ok none
  | some r => if r.type = "" then .ok none else (ctx.resultSchema r context).map some

/-- **What an action answers.** -/
def responses (s : Service) (a : Action) : Report Responses := do
  let context := s!"{s.name}.{a.name}"
  let success ← ctx.successSchema a context
  let lines ← a.throws.mapM (ctx.errorLine context)
  return {
    success
    errors := if a.throws = [] then none else some ("\n".intercalate lines) }

/-! ## Operations -/

/-- The operation of an action, given what depends on the style. -/
def assemble (s : Service) (a : Action) (parameters : List OperationParameter)
    (groups : List ParameterGroup) (responses : Responses) : Operation where
  description := cleanDescription a.description
  tag := s.name
  id := s!"{s.name}.{a.name}"
  deprecated := a.deprecated
  beta := a.beta
  style := ctx.styleOf a
  actionParameters := a.parameters.map (·.name)
  groups
  parameters
  sessionRequired := a.sessionRequired
  responses

/-- **The operation of an action**, and the shared parameters it refers to. -/
def operation (s : Service) (a : Action) : Cached PlacedOperation :=
  match ctx.styleOf a with
  | .body => do
    let parameters ← ctx.bodyParameters a
    let responses ← ctx.responses s a
    return {
      path := actionPath s.id a.name
      operation := ctx.assemble s a parameters [] responses
      shared := [] }
  | .query => do
    let parts ← a.parameters.mapM (ctx.queryPart a)
    let responses ← ctx.responses s a
    return {
      path := actionPath s.id a.name
      operation := ctx.assemble s a (ctx.queryParameters a parts) (groupsOf parts) responses
      shared := parts.flatMap QueryPart.shared }

end OperationContext

end SwaggerForge
