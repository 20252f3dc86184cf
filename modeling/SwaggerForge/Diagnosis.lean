import SwaggerForge.Decimal.Numeral

/-!
# Errors, diagnostics and reports

A run can go wrong in two ways. A **failure** ends it: a name that resolves
to nothing, a literal that its type does not admit, a setting that means
nothing. A **diagnostic** leaves a gap in the result and is noted down while
the run goes on.

A `Report` is what a step of the compiler yields: the diagnostics it noted,
in order, and its result or the failure that ended it. Notes survive a
failure, and one step after the other notes the diagnostics of the first and
then those of the second (`Report.notes_bind_ok`).
-/

namespace SwaggerForge

universe u

/-- **What can be wrong with a schema**: names that clash or resolve to
nothing. -/
inductive SchemaFault where
  /-- A class is named like the root definition. -/
  | rootCollision (name : String)
  /-- Two classes have one name. -/
  | duplicateClass (name : String)
  /-- The base of a class does not exist. -/
  | missingBase (base name : String)
  /-- A class that was asked for does not exist. -/
  | missingClass (name : String)
  /-- A type name is neither primitive nor a class. -/
  | unresolvableType (type context : String)
  /-- A type name is not primitive. -/
  | unknownPrimitive (type : String)
  /-- A definition that was asked for does not exist. -/
  | missingDefinition (name : String)
  /-- A class takes the name of the request envelope. -/
  | envelopeCollision (name : String)
deriving DecidableEq, Repr

namespace SchemaFault

/-- The wording of a fault. -/
def message : SchemaFault → String
  | rootCollision name => s!"Class '{name}' collides with the root definition"
  | duplicateClass name => s!"Class '{name}' is declared more than once"
  | missingBase base name => s!"Base class '{base}' of '{name}' not found"
  | missingClass name => s!"Class '{name}' not found"
  | unresolvableType type context => s!"Unresolvable type '{type}' in {context}"
  | unknownPrimitive type => s!"Unknown type: '{type}'"
  | missingDefinition name => s!"Definition '{name}' not found"
  | envelopeCollision name => s!"Class '{name}' collides with the envelope definition"

end SchemaFault

/-- **What can be wrong with a setting.** -/
inductive SettingFault where
  | unknownProfile (text : String)
  | unknownStyle (text : String)
  /-- A variable does not hold a count; the text is quoted as given. -/
  | invalidCount (key text : String) (fault : CountFault)
deriving DecidableEq, Repr

namespace SettingFault

/-- The wording of a fault. -/
def message : SettingFault → String
  | unknownProfile text =>
    s!"Unknown target profile '{text}' (expected 'standard' or 'enveloped')"
  | unknownStyle text => s!"Unknown operation style '{text}' (expected 'body' or 'query')"
  | invalidCount key text fault => s!"Invalid {key} '{text}': {fault.message}"

end SettingFault

/-- The two forms a schema can be written in. -/
inductive SourceForm where
  | json
  | yaml
deriving DecidableEq, Repr

/-- **What ends a run.** -/
inductive Failure where
  /-- The schema names what does not exist, or one thing twice. -/
  | malformedSchema (fault : SchemaFault)
  /-- A literal is not one of its type; `context` says where it stands. -/
  | unknownDefault (literal typeName context : String)
  /-- A setting means nothing. -/
  | setting (fault : SettingFault)
  /-- A text cannot be read as a schema or a configuration. -/
  | unreadable (form : SourceForm)
deriving DecidableEq, Repr

namespace Failure

/-- The wording of a failure. -/
def message : Failure → String
  | malformedSchema fault => "Malformed Schema: " ++ fault.message
  | unknownDefault literal typeName context =>
    s!"Unknown Default: '{literal}' is not a valid {typeName} (in {context})"
  | setting fault => "General Error: " ++ fault.message
  | unreadable .json => "JSON Error"
  | unreadable .yaml => "YAML Error"

end Failure

/-- What kind of name was looked for in vain. -/
inductive Sought where
  | enumeration
  | error
  | concreteSubclass
deriving DecidableEq, Repr

/-- The word for the kind. -/
def Sought.word : Sought → String
  | .enumeration => "enum"
  | .error => "error"
  | .concreteSubclass => "concrete subclass"

/-- **A gap that a run leaves** in its result. -/
inductive Diagnostic where
  /-- A name does not resolve. -/
  | missing (what : Sought) (name context : String)
  /-- The flattening of a class was cut off at a path. -/
  | truncated (root path : String)
deriving DecidableEq, Repr

/-- The wording of a diagnostic. -/
def Diagnostic.message : Diagnostic → String
  | .missing what name context => s!"{what.word} '{name}' not found (in {context})"
  | .truncated root path => s!"Expansion of '{root}' truncated at '{path}'"

/-- **What a step yields**: the diagnostics it noted, and its result or the
failure that ended it. -/
structure Report (α : Type u) where
  /-- The diagnostics, in the order in which they were met. -/
  notes : List Diagnostic
  /-- The result or the failure. -/
  result : Except Failure α
deriving Repr

namespace Report

variable {α β : Type u}

/-- A result without diagnostics. -/
def done (a : α) : Report α := ⟨[], .ok a⟩

/-- A failure. -/
def fail (e : Failure) : Report α := ⟨[], .error e⟩

/-- A step that notes nothing. -/
def ofExcept (r : Except Failure α) : Report α := ⟨[], r⟩

/-- **One step after another**: the second runs if the first succeeds, and its
notes follow. -/
def andThen (x : Report α) (f : α → Report β) : Report β :=
  match x.result with
  | .error e => ⟨x.notes, .error e⟩
  | .ok a => ⟨x.notes ++ (f a).notes, (f a).result⟩

instance : Monad Report where
  pure := done
  bind := andThen

instance : MonadLift (Except Failure) Report := ⟨ofExcept⟩

instance : Inhabited (Report α) := ⟨⟨[], .error (.unreadable .json)⟩⟩

/-- Notes a diagnostic. -/
def note (d : Diagnostic) : Report PUnit := ⟨[d], .ok ⟨⟩⟩

/-! ## Laws -/

@[simp] theorem notes_pure (a : α) : (pure a : Report α).notes = [] := rfl

@[simp] theorem result_pure (a : α) : (pure a : Report α).result = .ok a := rfl

theorem bind_of_ok {x : Report α} {a : α} (h : x.result = .ok a)
    (f : α → Report β) : x >>= f = ⟨x.notes ++ (f a).notes, (f a).result⟩ := by
  show andThen x f = _
  simp only [andThen, h]

theorem bind_of_error {x : Report α} {e : Failure} (h : x.result = .error e)
    (f : α → Report β) : x >>= f = ⟨x.notes, .error e⟩ := by
  show andThen x f = _
  simp only [andThen, h]

/-- **Notes accumulate in order.** -/
theorem notes_bind_ok {x : Report α} {a : α} (h : x.result = .ok a)
    (f : α → Report β) : (x >>= f).notes = x.notes ++ (f a).notes := by
  rw [bind_of_ok h]

instance : LawfulMonad Report := LawfulMonad.mk' Report
  (by
    intro α x
    obtain ⟨ns, r⟩ := x
    cases r with
    | error e => rfl
    | ok a => show Report.mk (ns ++ []) _ = _; rw [List.append_nil]; rfl)
  (by intro α β a f; rfl)
  (by
    intro α β γ x f g
    obtain ⟨ns, r⟩ := x
    cases r with
    | error e => rfl
    | ok a =>
      show andThen (Report.mk (ns ++ (f a).notes) (f a).result) g
        = Report.mk (ns ++ (andThen (f a) g).notes) (andThen (f a) g).result
      cases h : (f a).result with
      | error e => simp only [andThen, h]
      | ok b => simp only [andThen, h, List.append_assoc])

end Report

end SwaggerForge
