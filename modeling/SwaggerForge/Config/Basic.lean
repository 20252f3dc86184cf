import SwaggerForge.Diagnosis
import SwaggerForge.Text.Blank

/-!
# Configurations

What a run of the compiler can be told beside the schema. Every setting has
a default, so the empty configuration is a complete one. Three settings can
also be given by named variables (`Config.ofVariables`).
-/

namespace SwaggerForge

/-- **Where a caller's credentials travel.** -/
inductive Profile where
  /-- In a query parameter. -/
  | standard
  /-- With the API version, inside an envelope in the body. -/
  | enveloped
deriving DecidableEq, Repr

instance : Inhabited Profile := ⟨.standard⟩

/-- The profile's name. -/
def Profile.name : Profile → String
  | .standard => "standard"
  | .enveloped => "enveloped"

/-- The profile with the given name, blanks around it and its case
disregarded. -/
def Profile.parse (text : String) : Except Failure Profile :=
  match lowerAscii (trim text) with
  | "standard" => .ok .standard
  | "enveloped" => .ok .enveloped
  | other => .error (.setting (.unknownProfile other))

/-- **How actions become operations.** -/
inductive Style where
  /-- Parameters travel in a JSON body. -/
  | body
  /-- Parameters travel, flattened, in the query. -/
  | query
deriving DecidableEq, Repr

instance : Inhabited Style := ⟨.body⟩

/-- The style's name. -/
def Style.name : Style → String
  | .body => "body"
  | .query => "query"

/-- The HTTP method of the style's operations. -/
def Style.method : Style → String
  | .body => "post"
  | .query => "get"

/-- The style with the given name or method, blanks around it and its case
disregarded. -/
def Style.parse (text : String) : Except Failure Style :=
  match lowerAscii (trim text) with
  | "body" | "post" => .ok .body
  | "query" | "get" => .ok .query
  | other => .error (.setting (.unknownStyle other))

/-- **Where the API is found** and what it is called. -/
structure Connection where
  /-- The host, without a scheme. -/
  host : String
  /-- The path in front of the path of every action. -/
  basePath : String
  title : String
  description : Option String
deriving DecidableEq, Repr

/-- The connection of a profile when none is given. -/
def Connection.ofProfile : Profile → Connection
  | .standard =>
    { host := "api.example.com"
      basePath := "/api_v3"
      title := "RPC API"
      description := some "HTTP description of the RPC service schema" }
  | .enveloped =>
    { host := "api.example.com"
      basePath := "/api_v3"
      title := "RPC API (enveloped)"
      description := some "HTTP description of the enveloped RPC service schema" }

/-- **A pick list**: the values of a parameter are offered from the objects that
the `list` action of a service returns. -/
structure PickList where
  /-- The parameter, or body property, that is picked. -/
  parameter : String
  /-- The service that lists the objects. -/
  service : String
  /-- The action of that service whose parameter it is. -/
  action : String := "get"
  /-- The field of an object that labels it. -/
  label : String
deriving DecidableEq, Repr

/-- **A configuration.** -/
structure Config where
  profile : Profile := .standard
  /-- The style of actions without uploads. -/
  style : Style := .body
  /-- The depth at which flattening stops. -/
  maxDepth : Nat := 4
  /-- The names of the services that get no paths. -/
  excludedServices : List String :=
    ["document", "search", "mixing", "liveChannel", "liveChannelSegment"]
  /-- The name of the class that every hierarchy ends in. -/
  rootClass : String := "ObjectBase"
  /-- The name of the parameter that carries the session credential. -/
  sessionParameter : String := "ks"
  /-- The connection, if it is not the one of the profile. -/
  connection : Option Connection := none
  pickLists : List PickList :=
    [{ parameter := "entryId", service := "media", label := "name" }]
deriving DecidableEq, Repr

instance : Inhabited Config := ⟨{}⟩

namespace Config

/-- The connection that holds. -/
def effectiveConnection (c : Config) : Connection :=
  c.connection.getD (.ofProfile c.profile)

/-- Whether a service gets no paths. -/
def isExcluded (c : Config) (serviceName : String) : Bool :=
  c.excludedServices.contains serviceName

/-- The variable that sets the profile. -/
def profileVariable : String := "CDD_TARGET_PROFILE"

/-- The variable that sets the style. -/
def styleVariable : String := "CDD_OPERATION_STYLE"

/-- The variable that sets the depth at which flattening stops. -/
def depthVariable : String := "CDD_MAX_QUERY_DEPTH"

/-- The depth that a variable's text gives, blanks around it disregarded. -/
def parseDepth (text : String) : Except Failure Nat :=
  match Numeral.parseCount (trim text) with
  | .ok n => .ok n
  | .error fault => .error (.setting (.invalidCount depthVariable text fault))

/-- Reads a setting if its variable is set, and keeps the default if not. -/
def overriding {α : Type} (default : α) (read : String → Except Failure α) :
    Option String → Except Failure α
  | none => .ok default
  | some text => read text

/-- **The configuration that variables give**: profile, style and depth, read
in this order; all else is as by default. -/
def ofVariables (lookup : String → Option String) : Except Failure Config := do
  let profile ← overriding .standard Profile.parse (lookup profileVariable)
  let style ← overriding .body Style.parse (lookup styleVariable)
  let maxDepth ← overriding 4 parseDepth (lookup depthVariable)
  return { profile, style, maxDepth }

end Config

end SwaggerForge
