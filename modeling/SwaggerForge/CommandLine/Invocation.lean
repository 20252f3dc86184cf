import SwaggerForge.Config.Basic

/-!
# Command lines

The program has one command, `swagger`. Its options are written as `--name
value` or `--name=value`, each at most once; three of them fall back to a
named variable. What is not written this way is no invocation
(`Invocation.parse?`), whatever the schema holds.
-/

namespace SwaggerForge

/-- The options as written. -/
structure Options where
  schemaPath : Option String := none
  outputPath : Option String := none
  profile : Option String := none
  style : Option String := none
  maxDepth : Option String := none
  strict : Bool := false
deriving DecidableEq, Repr

namespace Options

/-- **Sets an option** that has not been set. A path must not be empty. -/
def set? (o : Options) (name value : String) : Option Options :=
  match name with
  | "--schema-path" =>
    if o.schemaPath.isSome ∨ value = "" then none else some { o with schemaPath := value }
  | "--output-path" =>
    if o.outputPath.isSome ∨ value = "" then none else some { o with outputPath := value }
  | "--profile" => if o.profile.isSome then none else some { o with profile := value }
  | "--style" => if o.style.isSome then none else some { o with style := value }
  | "--max-depth" => if o.maxDepth.isSome then none else some { o with maxDepth := value }
  | _ => none

/-- An option that is written in one word, with its value. -/
def splitWord? (word : String) : Option (String × String) :=
  let cs := word.toList
  match cs.dropWhile (· ≠ '=') with
  | [] => none
  | _ :: value => some (String.ofList (cs.takeWhile (· ≠ '=')), String.ofList value)

/-- Whether a word can be the value of the option in front of it: it does not
look like an option itself. -/
def isValue (word : String) : Bool := word = "-" || word.toList.head? ≠ some '-'

/-- Whether a word asks for more to be logged, which changes nothing else. -/
def isVerbosity (word : String) : Bool :=
  word = "--verbose" ||
    match word.toList with
    | '-' :: 'v' :: rest => rest.all (· = 'v')
    | _ => false

/-- **Reads the options** behind the command. -/
def read? (o : Options) : List String → Option Options
  | [] => some o
  | word :: rest =>
    if isVerbosity word then read? o rest
    else if word = "--" then if rest = [] then some o else none
    else if word = "--strict" then if o.strict then none else read? { o with strict := true } rest
    else match splitWord? word with
      | some (name, value) =>
        match o.set? name value with
        | some o => read? o rest
        | none => none
      | none =>
        match rest with
        | [] => none
        | value :: rest =>
          if isValue value then
            match o.set? word value with
            | some o => read? o rest
            | none => none
          else none

end Options

/-- **What the program is asked to do.** -/
structure Invocation where
  /-- Where the schema is. -/
  schemaPath : String := "schema.json"
  /-- Where the document goes. -/
  outputPath : String := "swagger.json"
  profile : Option String := none
  style : Option String := none
  maxDepth : Option Nat := none
  /-- Any diagnostic is a failure. -/
  strict : Bool := false
deriving DecidableEq, Repr, Inhabited

namespace Invocation

/-- What options ask for; an option that is not set is looked up among the
variables. -/
def ofOptions? (o : Options) (lookup : String → Option String) : Option Invocation := do
  let maxDepth ← match o.maxDepth.or (lookup Config.depthVariable) with
    | none => some none
    | some text => (Numeral.parseCount text).toOption.map some
  return {
    schemaPath := o.schemaPath.getD "schema.json"
    outputPath := o.outputPath.getD "swagger.json"
    profile := o.profile.or (lookup Config.profileVariable)
    style := o.style.or (lookup Config.styleVariable)
    maxDepth
    strict := o.strict }

/-- **Reads a command line**: the command and its options. -/
def parse? (args : List String) (lookup : String → Option String) : Option Invocation :=
  match args.dropWhile Options.isVerbosity with
  | "swagger" :: rest => (Options.read? {} rest).bind (ofOptions? · lookup)
  | _ => none

/-- The configuration that is asked for. -/
def config (i : Invocation) : Except Failure Config := do
  let profile ← Config.overriding .standard Profile.parse i.profile
  let style ← Config.overriding .body Style.parse i.style
  return { profile, style, maxDepth := i.maxDepth.getD 4 }

end Invocation

end SwaggerForge
