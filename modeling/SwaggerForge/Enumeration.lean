import SwaggerForge.Diagnosis
import SwaggerForge.Json.Printer
import SwaggerForge.Schema.Basic
import SwaggerForge.Text.Blank

/-!
# Enumerations

An enumeration offers **options**: a typed value and a label for each. Two
constants may stand for one value; the canonical options
(`EnumEntry.canonical`) keep the first of them, and they are what the
document shows everywhere.

`EnumValues` is what is attached to a schema: values and labels side by side
with the name of the enumeration they come from. Values from several places
come together in a union, in which the first label of a value stays
(`EnumValues.union`).
-/

namespace SwaggerForge

/-- **An option**: a value and the constant that names it. -/
structure EnumOption where
  /-- An integer or a string, as the enumeration's kind has it. -/
  value : Json
  /-- The name of the constant. -/
  label : String
deriving DecidableEq, Repr

/-- The options of one enumeration as declared. -/
structure EnumEntry where
  kind : EnumKind
  /-- One option per constant, in order. -/
  options : List EnumOption
deriving DecidableEq, Repr

/-- The options whose value is neither among the given ones nor that of an
earlier option. -/
def newOptions (seen : List Json) : List EnumOption → List EnumOption
  | [] => []
  | o :: rest =>
    if seen.any (·.same o.value) then newOptions seen rest
    else o :: newOptions (seen ++ [o.value]) rest

/-- **The canonical options**: one per value, the first that was declared. -/
def EnumEntry.canonical (e : EnumEntry) : List EnumOption := newOptions [] e.options

/-- The document's entry for an enumeration. -/
def EnumEntry.toJson (name : String) (e : EnumEntry) : Json :=
  Json.fields [
    ("title", .string name),
    ("oneOf", .array (e.canonical.map fun o =>
      Json.fields [("title", .string o.label), ("enum", .array [o.value])]))]

/-! ## Values attached to a schema -/

/-- **A set of values with labels.** -/
structure EnumValues where
  /-- The enumeration they come from, if they come from one. -/
  enumType : Option String
  /-- The values that are allowed. -/
  values : List Json
  /-- Their labels, value by value. -/
  labels : List String
deriving DecidableEq, Repr

namespace EnumValues

/-- The values of canonical options. -/
def ofOptions (enumType : String) (options : List EnumOption) : EnumValues :=
  ⟨some enumType, options.map (·.value), options.map (·.label)⟩

/-- The names of the variants of a class, each its own label. -/
def ofVariants (variants : List String) : EnumValues :=
  ⟨none, variants.map .string, variants⟩

/-- Whether a value is among them. -/
def admits (e : EnumValues) (value : Json) : Bool := e.values.any (·.same value)

/-- Adds a value with its label unless the value is there. -/
def add (e : EnumValues) (value : Json) (label : String) : EnumValues :=
  if e.admits value then e
  else { e with values := e.values ++ [value], labels := e.labels ++ [label] }

/-- **Adds the labelled values of another set** that are not there yet. -/
def union (e other : EnumValues) : EnumValues :=
  (other.values.zip other.labels).foldl (fun e p => e.add p.1 p.2) e

/-- Each value replaced by its text. -/
def toStrings (e : EnumValues) : EnumValues :=
  { e with values := e.values.map fun v => match v with
      | .string s => .string s
      | v => .string v.compact }

/-- **The fields that a schema gets.** A set without values admits nothing and
is not written as one; its labels and its name are. -/
def fields (e : EnumValues) : List (String × Json) :=
  (if e.values = [] then [] else [("enum", .array e.values)])
    ++ [("x-enumLabels", .strings e.labels)]
    ++ Json.optional "x-enumType" (e.enumType.map .string)

end EnumValues

/-! ## The catalogue -/

/-- **The catalogue of enumerations**, by name. -/
structure EnumCatalog where
  /-- The entries, the last declaration of a name at the place of the
  first. -/
  entries : Table EnumEntry
deriving DecidableEq, Repr

/-- The option of a constant. The literal of an integer constant must be an
integer of 64 bits, blanks around it disregarded. -/
def EnumDecl.option (d : EnumDecl) (c : EnumConstant) : Except Failure EnumOption :=
  match d.kind with
  | .string => .ok ⟨.string c.value, c.name⟩
  | .int =>
    match Numeral.parseInt? (trim c.value) with
    | some n => .ok ⟨.int n, c.name⟩
    | none => .error (.unknownDefault c.value "integer" s!"{d.name}.{c.name}")

/-- The options of an enumeration. -/
def EnumDecl.entry (d : EnumDecl) : Except Failure EnumEntry := do
  return ⟨d.kind, ← d.constants.mapM d.option⟩

namespace EnumCatalog

/-- **The catalogue of declared enumerations.** -/
def ofDecls (decls : List EnumDecl) : Except Failure EnumCatalog := do
  let entries ← decls.mapM fun d => do return (d.name, ← d.entry)
  return ⟨Table.ofList entries⟩

/-- The entry of an enumeration. -/
def get? (c : EnumCatalog) (name : String) : Option EnumEntry := c.entries.get? name

/-- Whether an enumeration is declared. -/
def contains (c : EnumCatalog) (name : String) : Bool := c.entries.contains name

/-- The canonical options of an enumeration. -/
def canonical? (c : EnumCatalog) (name : String) : Option (List EnumOption) :=
  (c.get? name).map EnumEntry.canonical

/-- **The values of an enumeration** for a schema. -/
def values? (c : EnumCatalog) (name : String) : Option EnumValues :=
  (c.canonical? name).map (.ofOptions name)

/-- The values of an enumeration for a schema of strings. -/
def stringValues? (c : EnumCatalog) (name : String) : Option EnumValues :=
  (c.values? name).map EnumValues.toStrings

/-- The document's section of enumerations. -/
def toJson (c : EnumCatalog) : Json := .object (c.entries.mapEntries EnumEntry.toJson)

end EnumCatalog

end SwaggerForge
