import SwaggerForge.CommandLine.Program

/-!
# The executable

The files of the machine as a workspace, and `main`, which runs a command line
in it.
-/

namespace SwaggerForge

/-- Whether an action succeeds. -/
def succeeds (action : IO Unit) : IO Bool := do
  try
    action
    return true
  catch _ => return false

instance : Workspace IO where
  holds path := do
    try
      let resolved ← IO.FS.realPath path
      resolved.pathExists
    catch _ => return false
  read path := do
    try
      let text ← IO.FS.readFile path
      return some text
    catch _ => return none
  makeFolder path := succeeds (IO.FS.createDirAll path)
  write path text := succeeds (IO.FS.writeFile path text)
  print text := do
    let output ← IO.getStdout
    output.putStr text
    output.flush

/-- How the program is used. -/
def usage : String :=
  "Usage: swagger [--schema-path P] [--output-path P] [--profile S] [--style S] " ++
    "[--max-depth N] [--strict] [-v...]"

end SwaggerForge

open SwaggerForge in
def main (args : List String) : IO UInt32 := do
  let names := [Config.profileVariable, Config.styleVariable, Config.depthVariable]
  let values ← names.mapM fun name => do return (name, ← IO.getEnv name)
  let outcome : Outcome ← runCommandLine args fun name => (values.lookup name).join
  match outcome with
  | .failed failure => IO.eprintln ("Error: " ++ failure.detail)
  | .misused => IO.eprintln usage
  | .done => pure ()
  return outcome.exitCode.toUInt32
