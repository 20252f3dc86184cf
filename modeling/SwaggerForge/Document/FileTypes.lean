import SwaggerForge.Document.Basic

/-!
# Uploads are no values

The type `file` is meant for form parameters only. In a definition or in the
schema of a response it becomes `string`, however deep in items and properties
it stands.
-/

namespace SwaggerForge

namespace Json

/-- The name of the type of uploads. -/
def fileType : Json := .string "file"

mutual

/-- **A schema without uploads.** -/
def withoutFiles : Json → Json
  | .object ⟨fields⟩ => .object ⟨fieldsWithoutFiles fields⟩
  | j => j

/-- The fields of a schema: its type, the schema of its items, and those of its
properties. -/
def fieldsWithoutFiles : List (String × Json) → List (String × Json)
  | [] => []
  | (key, x) :: rest =>
    (key,
      if key = "type" then (if x = fileType then .string "string" else x)
      else if key = "items" then x.withoutFiles
      else if key = "properties" then propertiesWithoutFiles x
      else x) :: fieldsWithoutFiles rest

/-- The properties of a schema, if they are an object. -/
def propertiesWithoutFiles : Json → Json
  | .object ⟨properties⟩ => .object ⟨schemasWithoutFiles properties⟩
  | j => j

/-- Schemas by name. -/
def schemasWithoutFiles : List (String × Json) → List (String × Json)
  | [] => []
  | (name, x) :: rest => (name, x.withoutFiles) :: schemasWithoutFiles rest

end

end Json

/-- An operation whose responses are without uploads. -/
def responsesWithoutFiles (operation : Json) : Json :=
  operation.modifyField "responses" (Json.mapFields (Json.modifyField "schema" Json.withoutFiles))

/-- **Removes uploads** from definitions and responses. -/
def Document.removeFileTypes (d : Document) : Document :=
  { d with
    definitions := d.definitions.map Json.withoutFiles
    paths := d.paths.map (Json.mapFields responsesWithoutFiles) }

end SwaggerForge
