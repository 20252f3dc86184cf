import SwaggerForge.Document.FileTypes

/-!
# Operations with uploads

An upload cannot be sent by `get`. An operation under `get` that lists an
upload moves to `post` and asks for a form, and the uploads it lists are form
data, whether they are written inline or shared.

An operation that is taken out from under `get` leaves its place to the last
one of its path item, and comes last itself.
-/

namespace SwaggerForge

namespace Upload

/-- Whether a parameter is an upload. -/
def isUpload (parameter : Json) : Bool := parameter.field? "type" == some Json.fileType

/-- A parameter sent as form data. -/
def asFormData (parameter : Json) : Json := Json.setField "in" (.string "formData") parameter

/-- An upload sent as form data; any other parameter as it is. -/
def mark (parameter : Json) : Json :=
  if isUpload parameter then asFormData parameter else parameter

/-- The key of the shared parameter that a parameter refers to. -/
def sharedKey? (parameter : Json) : Option String :=
  (parameter.textField? "$ref").bind parameterKey?

/-- The parameters of an operation, if they are a list. -/
def parametersOf (operation : Json) : List Json :=
  match operation.field? "parameters" with
  | some (.array ps) => ps
  | _ => []

/-- Whether a listed parameter is an upload, itself or the shared one that it
refers to. -/
def isListedUpload (shared : Table Json) (parameter : Json) : Bool :=
  match sharedKey? parameter with
  | some key => (shared.get? key).any isUpload
  | none => isUpload parameter

/-- Whether an operation lists an upload. -/
def listsUpload (shared : Table Json) (operation : Json) : Bool :=
  (parametersOf operation).any (isListedUpload shared)

/-- Marks a parameter that is written inline. -/
def markInline (parameter : Json) : Json :=
  match sharedKey? parameter with
  | some _ => parameter
  | none => mark parameter

/-- Marks the shared parameters that an operation refers to. -/
def markShared (shared : Table Json) (operation : Json) : Table Json :=
  ((parametersOf operation).filterMap sharedKey?).foldl (fun t key => t.modify key mark) shared

/-- **An operation that asks for a form.** -/
def promoted (operation : Json) : Json :=
  Json.setField "x-requestFormat" (.string "file")
    (operation.modifyField "parameters" (Json.mapItems markInline))

/-- **Moves an operation with uploads** from `get` to `post`. -/
def promoteItem (shared : Table Json) : Json → Json
  | .object methods =>
    match methods.swapRemove "get" with
    | none => .object methods
    | some (operation, others) =>
      if listsUpload shared operation then .object (others.insert "post" (promoted operation))
      else .object (others.insert "get" operation)
  | item => item

/-- Marks the shared parameters that a path item refers to under `get`. -/
def markSharedOfItem (shared : Table Json) (item : Json) : Table Json :=
  match item.field? "get" with
  | some operation => markShared shared operation
  | none => shared

end Upload

/-- **Moves all operations with uploads** from `get` to `post`. -/
def Document.promoteUploads (d : Document) : Document :=
  { d with
    parameters := d.paths.values.foldl Upload.markSharedOfItem d.parameters
    paths := d.paths.map (Upload.promoteItem d.parameters) }

end SwaggerForge
