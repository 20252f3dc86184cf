/-!
# Schemas

The input of the compiler: the classes, enumerations, services and errors of
a remote-procedure API, in the order in which they are declared. A type is
given by its name, which is that of a primitive type, of a class, or of the
root class that every hierarchy ends in.
-/

namespace SwaggerForge

/-- **A property of a class.** -/
structure Property where
  name : String
  /-- The name of its type. -/
  type : String
  /-- The name of the type of the elements, for arrays. -/
  arrayType : Option String := none
  /-- The enumeration its values are taken from. -/
  enumType : Option String := none
  /-- The literal of its default. -/
  default : Option String := none
  /-- It is set by the server and is no input. -/
  readOnly : Bool := false
  /-- It can be set when the object is created, and not later. -/
  insertOnly : Bool := false
  /-- It is never returned. -/
  writeOnly : Bool := false
  /-- It may be left out. -/
  optional : Bool := false
  description : Option String := none
deriving DecidableEq, Repr, Inhabited

/-- The names of the flags that are set, in a fixed order. -/
def Property.flagNames (p : Property) : List String :=
  [("readOnly", p.readOnly), ("insertOnly", p.insertOnly), ("writeOnly", p.writeOnly),
    ("optional", p.optional)].filterMap fun (name, isSet) => if isSet then some name else none

/-- **A class**: a record type with at most one base. -/
structure ClassDecl where
  name : String
  /-- The name of the base class. -/
  base : Option String := none
  /-- It has no instances of its own. -/
  abstract : Bool := false
  description : Option String := none
  /-- The properties that the class itself declares. -/
  properties : List Property := []
deriving DecidableEq, Repr, Inhabited

/-- What the constants of an enumeration stand for. -/
inductive EnumKind where
  | int
  | string
deriving DecidableEq, Repr

instance : Inhabited EnumKind := ⟨.string⟩

/-- A constant of an enumeration. -/
structure EnumConstant where
  /-- Its name, which labels the option. -/
  name : String
  /-- The literal it stands for. -/
  value : String
deriving DecidableEq, Repr, Inhabited

/-- **An enumeration.** -/
structure EnumDecl where
  name : String
  kind : EnumKind := .string
  constants : List EnumConstant := []
deriving DecidableEq, Repr, Inhabited

/-- **A parameter of an action.** -/
structure Parameter where
  name : String
  /-- The name of its type. -/
  type : String
  /-- The name of the type of the elements, for arrays. -/
  arrayType : Option String := none
  /-- The enumeration its values are taken from. -/
  enumType : Option String := none
  /-- The literal of its default. -/
  default : Option String := none
  /-- It may be left out. -/
  optional : Bool := false
  description : Option String := none
deriving DecidableEq, Repr, Inhabited

/-- What an action returns. -/
structure ResultType where
  /-- The name of the type. -/
  type : String
  /-- The name of the type of the elements, for arrays. -/
  arrayType : Option String := none
deriving DecidableEq, Repr, Inhabited

/-- **An action of a service.** -/
structure Action where
  name : String
  description : Option String := none
  parameters : List Parameter := []
  /-- What it returns, if anything. -/
  result : Option ResultType := none
  /-- The names of the errors it may raise. -/
  throws : List String := []
  /-- It is only for callers with a session. -/
  sessionRequired : Bool := true
  deprecated : Bool := false
  beta : Bool := false
deriving DecidableEq, Repr, Inhabited

/-- Whether a parameter is an upload. -/
def Action.hasFile (a : Action) : Bool := a.parameters.any (·.type == "file")

/-- **A service**: a group of actions. -/
structure Service where
  /-- What stands for it in paths. -/
  id : String
  /-- What it is called in tags and operation identifiers. -/
  name : String
  description : Option String := none
  plugin : Option String := none
  actions : List Action := []
deriving DecidableEq, Repr, Inhabited

/-- **An error** of the catalogue. -/
structure ErrorDecl where
  name : String
  code : Option String := none
  message : Option String := none
  description : Option String := none
deriving DecidableEq, Repr, Inhabited

/-- What there is to say about an error: its message, or its description if
there is no message; an empty text says nothing. -/
def ErrorDecl.displayMessage (e : ErrorDecl) : Option String :=
  ((e.message.filter (· ≠ "")).or e.description).filter (· ≠ "")

/-- A parameter that every request accepts. -/
structure RequestSetting where
  name : String
  /-- The name of its type. -/
  type : String
  /-- Its value may differ between requests that are otherwise the same. -/
  volatile : Bool := false
deriving DecidableEq, Repr, Inhabited

/-- **A schema.** -/
structure Schema where
  apiVersion : String
  classes : List ClassDecl := []
  enums : List EnumDecl := []
  services : List Service := []
  errors : List ErrorDecl := []
  /-- The parameters that every request accepts. -/
  requestSettings : List RequestSetting := []
deriving DecidableEq, Repr, Inhabited

end SwaggerForge
