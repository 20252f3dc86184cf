import SwaggerForge.Config.Basic
import SwaggerForge.Record

/-!
# Reading configurations

How a configuration is written: every field may be left out, and those left
out have their defaults.
-/

namespace SwaggerForge

open Readable

variable {τ : Type} [Readable τ]

/-- Reads a profile by its exact name. -/
def Profile.read (x : τ) : Option Profile := do
  match ← choice? x with
  | "standard" => some .standard
  | "enveloped" => some .enveloped
  | _ => none

/-- Reads a style by its exact name. -/
def Style.read (x : τ) : Option Style := do
  match ← choice? x with
  | "body" => some .body
  | "query" => some .query
  | _ => none

/-- Reads a connection. By position all four fields have to be there. -/
def Connection.read (x : τ) : Option Connection := do
  let [host, basePath, title, description] ←
    fieldsOf? ["host", "basePath", "title", "description"] 4 x | none
  return {
    host := ← required text? host
    basePath := ← required text? basePath
    title := ← required text? title
    description := ← possibly text? description }

/-- Reads a pick list. -/
def PickList.read (x : τ) : Option PickList := do
  let [parameter, service, action, label] ←
    fieldsOf? ["parameter", "service", "action", "label"] 4 x | none
  return {
    parameter := ← required text? parameter
    service := ← required text? service
    action := ← defaulting "get" text? action
    label := ← required text? label }

/-- **Reads a configuration.** -/
def Config.read (x : τ) : Option Config := do
  let names := ["profile", "operationStyle", "maxQueryDepth", "excludedServices", "rootClass",
    "sessionParameter", "connection", "listLookups"]
  let [profile, style, maxDepth, excludedServices, rootClass, sessionParameter, connection,
    pickLists] ← fieldsOf? names 0 x | none
  let default : Config := {}
  return {
    profile := ← defaulting default.profile Profile.read profile
    style := ← defaulting default.style Style.read style
    maxDepth := ← defaulting default.maxDepth count? maxDepth
    excludedServices := ← defaulting default.excludedServices (list text?) excludedServices
    rootClass := ← defaulting default.rootClass text? rootClass
    sessionParameter := ← defaulting default.sessionParameter text? sessionParameter
    connection := ← possibly Connection.read connection
    pickLists := ← defaulting default.pickLists (list PickList.read) pickLists }

end SwaggerForge
