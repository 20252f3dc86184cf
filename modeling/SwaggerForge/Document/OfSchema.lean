import SwaggerForge.Document.Hints
import SwaggerForge.Document.Uploads
import SwaggerForge.Operation.OfAction
import SwaggerForge.Text.Lowercase

/-!
# From schemas to documents

The whole compilation: the classes are put in order, the request-wide
parameters, enumerations and definitions are made, each action becomes an
operation, and the document is finished by three passes – uploads are taken
out of places for values, operations with uploads are moved to forms, and
hints are put on.
-/

namespace SwaggerForge

/-- **Finishes a document.** -/
def Document.finish (config : Config) (d : Document) : Document :=
  (d.removeFileTypes.promoteUploads).addHints config

/-! ## The header -/

namespace Header

/-- How the credential travels. -/
def securityScheme (config : Config) : Json :=
  let (place, description) := match config.profile with
    | .standard => ("query", "Session credential issued by the session service")
    | .enveloped => ("body", "Session credential carried in the request envelope")
  Json.fields [
    ("in", .string place),
    ("name", .string config.sessionParameter),
    ("type", .string "apiKey"),
    ("description", .string description)]

/-- The title and version of the API. -/
def info (connection : Connection) (apiVersion : String) : Json :=
  Json.fields [
    ("title", .string connection.title),
    ("description", match connection.description with
      | some text => .string text
      | none => .null),
    ("version", .string apiVersion)]

/-- **The header of a document.** -/
def ofConfig (config : Config) (apiVersion : String) : Table Json :=
  let connection := config.effectiveConnection
  ⟨[("swagger", .string "2.0"),
    ("schemes", .strings ["https"]),
    ("host", .string connection.host),
    ("basePath", .string connection.basePath),
    ("info", info connection apiVersion),
    ("produces", .strings ["application/json", "text/xml"]),
    ("security", .array [Json.fields [(config.sessionParameter, .array [])]]),
    ("securityDefinitions", Json.fields [(config.sessionParameter, securityScheme config)])]⟩

end Header

/-! ## Tags and errors -/

/-- The tag of a service. -/
def Service.tag (s : Service) : Json :=
  Json.fields (
    [("name", .string s.name)]
    ++ Json.optional "description" ((cleanDescription s.description).map .string)
    ++ Json.optional "x-plugin" (s.plugin.map .string))

/-- **The tags of all services**, ordered by their names in lower case; equal
ones stay in the order of declaration. -/
def tagsOf (services : List Service) : List Json :=
  ((services.map fun s => (lowercase s.name, s.tag)).mergeSort fun a b => !decide (b.1 < a.1)).map
    (·.2)

/-- An entry of the catalogue of errors. -/
def ErrorDecl.toJson (e : ErrorDecl) : Json :=
  Json.fields (
    [("name", .string e.name)]
    ++ Json.optional "code" (e.code.map .string)
    ++ Json.optional "message" (e.message.map .string)
    ++ Json.optional "description" (e.description.map .string))

/-! ## Paths -/

/-- Puts an operation under its path and method. -/
def addOperation (paths : Table Json) (o : PlacedOperation) : Table Json :=
  let item := match paths.get? o.path with
    | some (.object methods) => methods
    | _ => ∅
  paths.insert o.path (.object (item.insert o.method o.operation.toJson))

/-- Adds the shared parameters of an operation. -/
def addShared (parameters : Table Json) (o : PlacedOperation) : Table Json :=
  parameters.insertAll (o.shared.map fun (key, p) => (key, p.toJson))

/-- The actions that become operations, with their services. -/
def includedActions (config : Config) (services : List Service) : List (Service × Action) :=
  (services.filter fun s => !config.isExcluded s.name).flatMap fun s => s.actions.map (s, ·)

/-! ## Compilation -/

/-- The section of definitions. The enveloped profile adds that of the envelope,
whose name must be free. -/
def definitionSection (config : Config) (apiVersion : String) (definitions : DefinitionSet) :
    Except Failure (Table Json) :=
  let t := definitions.toTable
  match config.profile with
  | .standard => .ok t
  | .enveloped =>
    if t.contains envelopeName then .error (.malformedSchema (.envelopeCollision envelopeName))
    else .ok (t.insert envelopeName (envelopeDefinition config.sessionParameter apiVersion))

/-- **What the operations of a schema are made from.** -/
def OperationContext.ofSchema (config : Config) (schema : Schema) : Report OperationContext := do
  let hierarchy ← Hierarchy.ofClasses config.rootClass schema.classes
  let requestParameters ← RequestParameters.ofSettings config hierarchy schema.requestSettings
  let enums ← EnumCatalog.ofDecls schema.enums
  let declarations : Declarations := { hierarchy, enums }
  let definitions ← declarations.defineAll
  let flattening : Flattening := { declarations, definitions, maxDepth := config.maxDepth }
  return { config, flattening, errors := schema.errors, requestParameters }

/-- The document before it is finished. -/
def assemble (schema : Schema) (ctx : OperationContext) (definitions : Table Json)
    (operations : List PlacedOperation) : Document where
  header := Header.ofConfig ctx.config schema.apiVersion
  parameters := operations.foldl addShared
    ((∅ : Table Json).insertAll ctx.requestParameters.entries)
  enums := ctx.declarations.enums.toJson
  definitions
  paths := operations.foldl addOperation ∅
  tags := tagsOf schema.services
  errors := schema.errors.map ErrorDecl.toJson

/-- **Compiles a schema** under a configuration. -/
def compile (config : Config) (schema : Schema) : Report Document := do
  let ctx ← OperationContext.ofSchema config schema
  let definitions ← definitionSection config schema.apiVersion ctx.flattening.definitions
  let operations ←
    (((includedActions config schema.services).mapM fun (s, a) => ctx.operation s a).run ∅).1
  return (assemble schema ctx definitions operations).finish config

end SwaggerForge
