import SwaggerForge.Json.Basic

/-!
# References

The parts of a document refer to each other by `$ref` objects: to a class
definition under `#/definitions/` and to a shared parameter under
`#/parameters/`. An action is found under the path of its service and its
name.
-/

namespace SwaggerForge

/-- Where definitions are found. -/
def definitionsPrefix : String := "#/definitions/"

/-- Where shared parameters are found. -/
def parametersPrefix : String := "#/parameters/"

/-- What follows the given beginning of a text. -/
def textBehind? (start text : String) : Option String :=
  if start.toList.isPrefixOf text.toList then
    some (String.ofList (text.toList.drop start.toList.length))
  else none

/-- What is in front of the given ending of a text. -/
def textBefore? (ending text : String) : Option String :=
  if ending.toList.isSuffixOf text.toList then
    some (String.ofList (text.toList.take (text.toList.length - ending.toList.length)))
  else none

/-- A reference object. -/
def reference (target : String) : Json := Json.fields [("$ref", .string target)]

/-- **The reference to a definition.** -/
def definitionRef (name : String) : Json := reference (definitionsPrefix ++ name)

/-- The name in a reference to a definition. -/
def definitionName? (target : String) : Option String := textBehind? definitionsPrefix target

/-- **The reference to a shared parameter.** -/
def parameterRef (key : String) : Json := reference (parametersPrefix ++ key)

/-- The key in a reference to a shared parameter. -/
def parameterKey? (target : String) : Option String := textBehind? parametersPrefix target

/-- **The path of an action.** -/
def actionPath (serviceId actionName : String) : String :=
  "/service/" ++ serviceId ++ "/action/" ++ actionName

/-! ## Laws -/

theorem textBehind?_append (start rest : String) : textBehind? start (start ++ rest) = some rest := by
  simp [textBehind?, String.toList_append]

/-- The name of a definition is read back from its reference. -/
theorem definitionName?_append (name : String) :
    definitionName? (definitionsPrefix ++ name) = some name :=
  textBehind?_append _ _

/-- The key of a shared parameter is read back from its reference. -/
theorem parameterKey?_append (key : String) :
    parameterKey? (parametersPrefix ++ key) = some key :=
  textBehind?_append _ _

end SwaggerForge
