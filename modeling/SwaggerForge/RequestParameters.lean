import SwaggerForge.Config.Basic
import SwaggerForge.Hierarchy
import SwaggerForge.Reference

/-!
# Request-wide parameters

The parameters that every operation takes: the session credential, the format
of the response, the client's tag, and those that the schema declares for all
requests. They are shared, so that operations refer to them. One whose type
is a class cannot travel in a query; it becomes an optional property of every
body.
-/

namespace SwaggerForge

/-- **The parameters that every operation takes.** -/
structure RequestParameters where
  /-- The name of the session credential. -/
  session : String
  /-- The shared parameters by key. -/
  entries : List (String × Json)
  /-- The keys that every operation refers to. -/
  attached : List String
  /-- The properties that every body has, with their classes. -/
  bodyProperties : List (String × String)
deriving DecidableEq, Repr

namespace RequestParameters

/-- The key of the format of the response. -/
def formatKey : String := "format"

/-- The key of the client's tag. -/
def clientTagKey : String := "clientTag"

/-- The session credential. -/
def sessionEntry (session : String) : Json :=
  Json.fields [
    ("name", .string session),
    ("in", .string "query"),
    ("type", .string "string"),
    ("x-global", .bool true)]

/-- The choice of the format of the response. -/
def formatEntry : Json :=
  Json.fields [
    ("name", .string formatKey),
    ("enum", .array [.int 1, .int 2, .int 3]),
    ("x-enumLabels", .strings ["JSON", "XML", "PHP"]),
    ("x-consoleDefault", .int 1),
    ("description", .string "The API response format"),
    ("in", .string "query"),
    ("type", .string "integer"),
    ("x-global", .bool true)]

/-- The client's tag. -/
def clientTagEntry : Json :=
  Json.fields [
    ("name", .string clientTagKey),
    ("type", .string "string"),
    ("in", .string "query"),
    ("default", .string "devkcom"),
    ("description", .string "Use to tag the app or client-lib making calls to the API")]

/-- A parameter that the schema declares for all requests. -/
def settingEntry (s : RequestSetting) (type : Primitive) : Json :=
  Json.fields [
    ("name", .string s.name),
    ("in", .string "query"),
    ("type", type.toJson),
    ("x-global", .bool true),
    ("x-volatile", .bool s.volatile)]

/-- The parameters of a schema that declares none. -/
def initial (session : String) : RequestParameters where
  session
  entries := [(session, sessionEntry session), (formatKey, formatEntry),
    (clientTagKey, clientTagEntry)]
  attached := [formatKey, clientTagKey]
  bodyProperties := []

/-- Adds a parameter that the schema declares; a name that is taken stays as it
is. -/
def add (h : Hierarchy) (g : RequestParameters) (s : RequestSetting) :
    Except Failure RequestParameters :=
  if g.entries.any (·.1 == s.name) then .ok g
  else do
    match ← h.resolve s.type "request configuration" with
    | .reference target =>
      return { g with bodyProperties := g.bodyProperties ++ [(s.name, target)] }
    | .primitive type =>
      return { g with
        entries := g.entries ++ [(s.name, settingEntry s type)]
        attached := g.attached ++ [s.name] }

/-- **The parameters that every operation of a schema takes.** -/
def ofSettings (config : Config) (h : Hierarchy) (settings : List RequestSetting) :
    Except Failure RequestParameters :=
  settings.foldlM (add h) (initial config.sessionParameter)

end RequestParameters

end SwaggerForge
