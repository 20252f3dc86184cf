import SwaggerForge.Record
import SwaggerForge.Schema.Basic

/-!
# Reading schemas

How the records of a schema are written: the names of their fields, in the
order of their positions, and which of them may be left out.
-/

namespace SwaggerForge

open Readable

variable {τ : Type} [Readable τ]

/-- Reads a property. -/
def Property.read (x : τ) : Option Property := do
  let names := ["name", "type", "arrayType", "enumType", "default", "readOnly", "insertOnly",
    "writeOnly", "optional", "description"]
  let [name, type, arrayType, enumType, default, readOnly, insertOnly, writeOnly, isOptional,
    description] ← fieldsOf? names 2 x | none
  return {
    name := ← required text? name
    type := ← required text? type
    arrayType := ← possibly text? arrayType
    enumType := ← possibly text? enumType
    default := ← possibly text? default
    readOnly := ← defaulting false truth? readOnly
    insertOnly := ← defaulting false truth? insertOnly
    writeOnly := ← defaulting false truth? writeOnly
    optional := ← defaulting false truth? isOptional
    description := ← possibly text? description }

/-- Reads a class. -/
def ClassDecl.read (x : τ) : Option ClassDecl := do
  let [name, base, abstract, description, properties] ←
    fieldsOf? ["name", "base", "abstract", "description", "properties"] 1 x | none
  return {
    name := ← required text? name
    base := ← possibly text? base
    abstract := ← defaulting false truth? abstract
    description := ← possibly text? description
    properties := ← defaulting [] (list Property.read) properties }

/-- Reads the kind of an enumeration. -/
def EnumKind.read (x : τ) : Option EnumKind := do
  match ← choice? x with
  | "int" => some .int
  | "string" => some .string
  | _ => none

/-- Reads a constant. -/
def EnumConstant.read (x : τ) : Option EnumConstant := do
  let [name, value] ← fieldsOf? ["name", "value"] 2 x | none
  return { name := ← required text? name, value := ← required text? value }

/-- Reads an enumeration. -/
def EnumDecl.read (x : τ) : Option EnumDecl := do
  let [name, kind, constants] ← fieldsOf? ["name", "enumType", "constants"] 1 x | none
  return {
    name := ← required text? name
    kind := ← defaulting .string EnumKind.read kind
    constants := ← defaulting [] (list EnumConstant.read) constants }

/-- Reads a parameter. -/
def Parameter.read (x : τ) : Option Parameter := do
  let names := ["name", "type", "arrayType", "enumType", "default", "optional", "description"]
  let [name, type, arrayType, enumType, default, isOptional, description] ←
    fieldsOf? names 2 x | none
  return {
    name := ← required text? name
    type := ← required text? type
    arrayType := ← possibly text? arrayType
    enumType := ← possibly text? enumType
    default := ← possibly text? default
    optional := ← defaulting false truth? isOptional
    description := ← possibly text? description }

/-- Reads the type of a result. -/
def ResultType.read (x : τ) : Option ResultType := do
  let [type, arrayType] ← fieldsOf? ["type", "arrayType"] 1 x | none
  return { type := ← required text? type, arrayType := ← possibly text? arrayType }

/-- Reads an action. -/
def Action.read (x : τ) : Option Action := do
  let names := ["name", "description", "params", "result", "throws", "sessionRequired",
    "deprecated", "beta"]
  let [name, description, parameters, result, throws, sessionRequired, deprecated, beta] ←
    fieldsOf? names 1 x | none
  return {
    name := ← required text? name
    description := ← possibly text? description
    parameters := ← defaulting [] (list Parameter.read) parameters
    result := ← possibly ResultType.read result
    throws := ← defaulting [] (list text?) throws
    sessionRequired := ← defaulting true truth? sessionRequired
    deprecated := ← defaulting false truth? deprecated
    beta := ← defaulting false truth? beta }

/-- Reads a service. -/
def Service.read (x : τ) : Option Service := do
  let [id, name, description, plugin, actions] ←
    fieldsOf? ["id", "name", "description", "plugin", "actions"] 2 x | none
  return {
    id := ← required text? id
    name := ← required text? name
    description := ← possibly text? description
    plugin := ← possibly text? plugin
    actions := ← defaulting [] (list Action.read) actions }

/-- Reads an error. -/
def ErrorDecl.read (x : τ) : Option ErrorDecl := do
  let [name, code, message, description] ←
    fieldsOf? ["name", "code", "message", "description"] 1 x | none
  return {
    name := ← required text? name
    code := ← possibly text? code
    message := ← possibly text? message
    description := ← possibly text? description }

/-- Reads a request-wide parameter. -/
def RequestSetting.read (x : τ) : Option RequestSetting := do
  let [name, type, volatile] ← fieldsOf? ["name", "type", "volatile"] 2 x | none
  return {
    name := ← required text? name
    type := ← required text? type
    volatile := ← defaulting false truth? volatile }

/-- **Reads a schema.** -/
def Schema.read (x : τ) : Option Schema := do
  let names := ["apiVersion", "classes", "enums", "services", "errors", "requestConfiguration"]
  let [apiVersion, classes, enums, services, errors, requestSettings] ←
    fieldsOf? names 1 x | none
  return {
    apiVersion := ← required text? apiVersion
    classes := ← defaulting [] (list ClassDecl.read) classes
    enums := ← defaulting [] (list EnumDecl.read) enums
    services := ← defaulting [] (list Service.read) services
    errors := ← defaulting [] (list ErrorDecl.read) errors
    requestSettings := ← defaulting [] (list RequestSetting.read) requestSettings }

end SwaggerForge
