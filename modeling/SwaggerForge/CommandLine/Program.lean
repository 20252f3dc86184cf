import SwaggerForge.CommandLine.Invocation
import SwaggerForge.CommandLine.Workspace
import SwaggerForge.Document.OfSchema
import SwaggerForge.Schema.Source
import SwaggerForge.Text.Quoted

/-!
# The program

Reads a schema, compiles it and writes the document (`Invocation.run`), in
whatever workspace. What can go wrong comes to light in a fixed order: the
settings, the file of the schema, its text, the compilation, diagnostics where
they are forbidden, and last the output.
-/

namespace SwaggerForge

/-- **What makes the program fail.** -/
inductive ProgramFailure where
  /-- The compiler fails. -/
  | compiler (failure : Failure)
  /-- A file cannot be read or written. -/
  | storage
  /-- The schema is not there. -/
  | missingSchema (path : String)
  /-- There are diagnostics, and none are allowed. -/
  | diagnostics (count : Nat) (first : Diagnostic)
deriving DecidableEq, Repr

/-- A name with what it carries in brackets. -/
def bracketed (name content : String) : String := name ++ "(" ++ content ++ ")"

/-- The written form of a failure, texts in it quoted. -/
def Failure.detail : Failure → String
  | .malformedSchema fault => bracketed "MalformedSchema" (quoted .text fault.message)
  | .unknownDefault literal typeName context =>
    "UnknownDefault \x7b literal: " ++ quoted .text literal ++ ", type_name: "
      ++ quoted .text typeName ++ ", context: " ++ quoted .text context ++ " \x7d"
  | .setting fault => bracketed "General" (quoted .text fault.message)
  | .unreadable .json => "Json"
  | .unreadable .yaml => "Yaml"

namespace ProgramFailure

/-- **The written form of what made the program fail.** -/
def detail : ProgramFailure → String
  | compiler failure => bracketed "Core" failure.detail
  | storage => "Io"
  | missingSchema path =>
    bracketed "General" (quoted .text ("Schema file not found: " ++ quoted .path path))
  | diagnostics count first =>
    bracketed "General"
      (quoted .text s!"{count} diagnostic(s) recorded, first: {first.message}")

end ProgramFailure

/-- How the program ends. -/
inductive Outcome where
  | done
  | failed (failure : ProgramFailure)
  /-- The command line is not understood. -/
  | misused
deriving DecidableEq, Repr

/-- The code the program ends with. -/
def Outcome.exitCode : Outcome → Nat
  | done => 0
  | failed _ => 1
  | misused => 2

/-- What is written about a failure. -/
def Outcome.error? : Outcome → Option String
  | failed failure => some failure.detail
  | done | misused => none

/-- The notation a schema file is written in, which its name shows. -/
def SourceForm.ofPath (path : String) : SourceForm :=
  match pathExtension path with
  | some "yaml" | some "yml" => .yaml
  | _ => .json

/-- The schema in a text of a notation. -/
def Schema.ofText (form : SourceForm) (text : String) : Except Failure Schema :=
  match form with
  | .json => Schema.ofJson text
  | .yaml => Schema.ofYaml text

namespace Invocation

/-- **The document** that is asked for, from the text of the schema. -/
def documentOf (i : Invocation) (config : Config) (text : String) :
    Except ProgramFailure Document := do
  let schema ← (Schema.ofText (.ofPath i.schemaPath) text).mapError .compiler
  let report := compile config schema
  let document ← report.result.mapError .compiler
  match i.strict, report.notes with
  | true, first :: _ => .error (.diagnostics report.notes.length first)
  | _, _ => .ok document

variable {m : Type → Type} [Monad m] [Workspace m]

/-- Reads the file of the schema. -/
def readSource (i : Invocation) : m (Except ProgramFailure String) := do
  if ← Workspace.holds i.schemaPath then
    match ← Workspace.read i.schemaPath with
    | some text => return .ok text
    | none => return .error .storage
  else return .error (.missingSchema i.schemaPath)

/-- **Puts the text of the document** where it belongs: a dash stands for
printing it with a line break behind it, and a file's folder is made first. -/
def writeOutput (i : Invocation) (text : String) : m (Except ProgramFailure Unit) := do
  if i.outputPath = "-" then
    Workspace.print (text ++ "\n")
    return .ok ()
  let folder := enclosingPath i.outputPath
  let ready ← if folder = "" then pure true else Workspace.makeFolder folder
  if !ready then return .error .storage
  if ← Workspace.write i.outputPath text then return .ok () else return .error .storage

/-- **Runs the program.** -/
def run (i : Invocation) : m (Except ProgramFailure Unit) := do
  match i.config with
  | .error e => return .error (.compiler e)
  | .ok config =>
    match ← i.readSource with
    | .error e => return .error e
    | .ok text =>
      match i.documentOf config text with
      | .error e => return .error e
      | .ok document => i.writeOutput document.text

end Invocation

/-- **Runs a command line.** -/
def runCommandLine {m : Type → Type} [Monad m] [Workspace m] (args : List String)
    (lookup : String → Option String) : m Outcome :=
  match Invocation.parse? args lookup with
  | none => pure .misused
  | some i => do
    match ← (i.run : m (Except ProgramFailure Unit)) with
    | .ok _ => return .done
    | .error e => return .failed e

end SwaggerForge
