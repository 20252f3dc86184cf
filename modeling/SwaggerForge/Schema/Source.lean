import SwaggerForge.Config.Reader
import SwaggerForge.Diagnosis
import SwaggerForge.Schema.Reader
import SwaggerForge.Yaml.Record

/-!
# Texts of schemas and configurations

A schema is read from a text in one of two notations; a configuration from a
JSON text.
-/

namespace SwaggerForge

/-- A reading that fails as a text of the given notation. -/
def readAs {α : Type} (form : SourceForm) : Option α → Except Failure α
  | some a => .ok a
  | none => .error (.unreadable form)

/-- **The schema in a JSON text.** -/
def Schema.ofJson (text : String) : Except Failure Schema :=
  readAs .json ((Raw.parse? text).bind Schema.read)

/-- **The schema in a YAML text.** -/
def Schema.ofYaml (text : String) : Except Failure Schema :=
  readAs .yaml ((Yaml.Tree.parse? text).bind Schema.read)

/-- The configuration in a JSON text. -/
def Config.ofJson (text : String) : Except Failure Config :=
  readAs .json ((Raw.parse? text).bind Config.read)

end SwaggerForge
