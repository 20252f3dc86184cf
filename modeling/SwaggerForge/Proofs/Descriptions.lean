import SwaggerForge.Proofs.FormFiles
import SwaggerForge.Proofs.PathItems
import SwaggerForge.Proofs.Polymorphism

/-!
# What a finished document describes

A document describes values in four places: as properties of definitions, as shared
parameters, as what operations list, and as properties of bodies. What stands there in a
compiled document was written for something that is declared, and then the passes went over
it: uploads were removed from definitions, parameters may have been marked as form data, and
hints were put on.

The four lemmas on finished documents say so, one for each place. A statement about all values
that a document describes is proved from them: it is enough to show it for what is written,
and that the passes keep it.
-/

namespace SwaggerForge

open Json

/-- A parameter that an operation under a path lists. -/
def Document.Lists (d : Document) (path : String) (p : Json) : Prop :=
  ∃ methods, d.paths.get? path = some (.object methods) ∧
    ∃ o ∈ methods.values, p ∈ Upload.parametersOf o

/-! ## Definitions and their properties -/

namespace Declarations

variable {env : Declarations} {apiVersion : String}

/-- **A definition as it is written**: the root, that of a class, or the envelope. -/
inductive WritesDefinition (env : Declarations) (session apiVersion : String) : Json → Prop
  | root : WritesDefinition env session apiVersion (Json.fields [])
  | defined {c : ClassDecl} {d : Definition} (defined : (env.define c).result = .ok d) :
      WritesDefinition env session apiVersion d.toJson
  | envelope : WritesDefinition env session apiVersion (envelopeDefinition session apiVersion)

/-- **A property as it is written in a definition**: that of a class, or one of the two in the
envelope. -/
inductive WritesProperty (env : Declarations) (apiVersion : String) : Json → Prop
  | defined {c : ClassDecl} {d : Definition} {q : DefinedProperty}
      (defined : (env.define c).result = .ok d) (mem : q ∈ d.properties) :
      WritesProperty env apiVersion q.toJson
  | credential : WritesProperty env apiVersion Primitive.string.itemSchema
  | version : WritesProperty env apiVersion
      (Json.fields [("type", Primitive.string.toJson), ("default", .string apiVersion)])

theorem WritesDefinition.writesProperty {session : String} {s : Json}
    (h : env.WritesDefinition session apiVersion s) {ps : Table Json}
    (hps : s.field? "properties" = some (.object ps)) {e : String × Json} (he : e ∈ ps.entries) :
    env.WritesProperty apiVersion e.2 := by
  cases h with
  | root => cases hps
  | @defined c d hdefine =>
    obtain rfl := object.inj (Option.some.inj hps)
    obtain ⟨q, hq, rfl⟩ := List.mem_map.1 (Table.mem_entries_ofList he)
    exact .defined hdefine hq
  | envelope =>
    obtain rfl := object.inj (Option.some.inj hps)
    rcases List.mem_cons.1 (Table.mem_entries_ofList he) with rfl | he
    · exact .credential
    · rw [List.mem_singleton.1 he]
      exact .version

section Section

variable {defs : DefinitionSet} (hdefs : env.defineAll.result = .ok defs) {name : String} {s : Json}
include hdefs

theorem writesDefinition_of_get?_toTable (hs : defs.toTable.get? name = some s)
    (session apiVersion : String) : env.WritesDefinition session apiVersion s := by
  have hmem := Table.mem_entries_ofList (Table.mem_entries_of_get? hs)
  rcases List.mem_cons.1 hmem with heq | hmem
  · rw [(Prod.mk.inj heq).2]
    exact .root
  · obtain ⟨d, hd, rfl⟩ := Table.mem_entries_map.1 hmem
    obtain ⟨-, entries, hentries, hset⟩ := defineAll_eq_ok hdefs
    rw [hset] at hd
    obtain ⟨c, -, -, hdefine⟩ := exists_left_of_forall₂ hentries (Table.mem_entries_ofList hd)
    exact .defined hdefine

/-- **What is in the section of definitions.** -/
theorem writesDefinition_of_get?_definitionSection {config : Config} {t : Table Json}
    (h : definitionSection config apiVersion defs = .ok t) (hs : t.get? name = some s) :
    env.WritesDefinition config.sessionParameter apiVersion s := by
  unfold definitionSection at h
  dsimp only at h
  split at h
  · obtain rfl := Except.ok.inj h
    exact writesDefinition_of_get?_toTable hdefs hs _ _
  · split at h
    · cases h
    · obtain rfl := Except.ok.inj h
      rw [Table.get?_insert] at hs
      split at hs
      · rw [← Option.some.inj hs]
        exact .envelope
      · exact writesDefinition_of_get?_toTable hdefs hs _ _

end Section

end Declarations

/-- **A property of a finished definition** was a property before. -/
theorem Hint.exists_property_of_nested {sources : List Source} {j : Json} {ps : Table Json}
    (hps : (nested sources j.withoutFiles).field? "properties" = some (.object ps))
    {e : String × Json} (he : e ∈ ps.entries) :
    ∃ t, j.field? "properties" = some (.object t) ∧ ∃ x, (e.1, x) ∈ t.entries ∧
      e.2 = hinted sources none e.1 x.withoutFiles := by
  rw [field?_nested, field?_withoutFiles, Option.map_map] at hps
  obtain ⟨x, hx, hobject⟩ := Option.map_eq_some_iff.1 hps
  change properties sources none (propertiesWithoutFiles x) = .object ps at hobject
  cases x with
  | object t =>
    rw [propertiesWithoutFiles_object, properties_object] at hobject
    obtain rfl := object.inj hobject
    obtain ⟨y, hy, hhinted⟩ := Table.mem_entries_mapEntries.1 he
    obtain ⟨z, hz, hfree⟩ := Table.mem_entries_map.1 hy
    exact ⟨t, hx, z, hz, hhinted.trans (congrArg (hinted sources none e.1) hfree)⟩
  | _ => cases hobject

/-! ## What operations list -/

/-- **A value as it is declared**: its default is one of its type, and the values that it allows
are supplied. -/
structure ValueSchema.Offered (env : Declarations) (v : ValueSchema) : Prop where
  default : ∀ x, v.default = some x → v.type.HasValue x
  enum : ∀ e, v.enum = some e → env.Supplies e

/-- A parameter of an operation all of whose values are as they are declared. -/
def OperationParameter.Offered (env : Declarations) : OperationParameter → Prop
  | .shared _ => True
  | .inline p => p.value.Offered env
  | .body b => ∀ e ∈ b.properties.entries, ∀ v items, e.2 = .value v items → v.Offered env

namespace OperationContext

variable {ctx : OperationContext} {s : Service} {a : Action}

theorem offered_of_literal {p : Parameter} {type : Primitive} {default : Option Json}
    {context : String} (h : type.parseDefault p.default context = .ok default)
    (description : Option String) : ValueSchema.Offered ctx.declarations {
      type
      default
      enum := p.enumType.bind ctx.declarations.enums.values?
      description } := by
  refine ⟨?_, fun e => Declarations.supplies_of_enumType⟩
  rintro x rfl
  exact Primitive.hasValue_of_parseDefault h

theorem offered_body {b : Body} (hb : ctx.BodyOf a b) :
    (OperationParameter.body b).Offered ctx.declarations := by
  cases hb with
  | mk each =>
    intro e he v items hvalue
    rcases mem_entries_addRequestProperties he with he | ⟨x, -, rfl⟩
    · obtain ⟨p, -, -, hof⟩ := exists_left_of_forall₂ each (Table.mem_entries_ofList he)
      rw [hvalue] at hof
      cases hof with
      | value named elements literal => exact offered_of_literal literal _
    · cases hvalue

/-- **The values that an operation lists** are as they are declared. -/
theorem offered_parameters {o : PlacedOperation} (ho : ctx.OperationOf s a o) :
    ∀ p ∈ o.operation.parameters, p.Offered ctx.declarations := by
  intro p hp
  cases ho with
  | body style each answers =>
    rcases ctx.mem_bodyParameters each hp with ⟨key, rfl, -⟩ | ⟨b, rfl, hb⟩
    · trivial
    · exact offered_body hb
  | query style each answers =>
    rcases ctx.mem_queryParameters hp with ⟨key, rfl, -⟩ | ⟨part, hpart, hp⟩
    · trivial
    · obtain ⟨q, -, hof⟩ := exists_left_of_forall₂ each hpart
      cases hof with
      | flattened reference expanded =>
        obtain ⟨flat, -, rfl⟩ := List.mem_map.1 hp
        trivial
      | omitted => cases hp
      | inline named literal =>
        rw [List.mem_singleton.1 hp]
        exact offered_of_literal literal _

end OperationContext

/-- The properties of a body are those that it was given. -/
theorem Body.exists_schema (b : Body) : ∃ s, b.toJson.field? "schema" = some (.object s) ∧
    s.get? "properties" = some (.object (b.properties.map BodyProperty.toJson)) := by
  refine ⟨_, rfl, ?_⟩
  show List.lookup "properties" (_ ++ optional "allOf" _ ++ _ ++ _) = _
  cases b.extending <;> rfl

/-- **Only a body has a schema.** -/
theorem OperationParameter.exists_body_of_schema {p : OperationParameter} {s : Json}
    (hs : p.toJson.field? "schema" = some s) : ∃ b, p = .body b := by
  cases p with
  | shared key => cases hs
  | inline p => exact nomatch (p.field?_toJson_eq_none (by decide)).symm.trans hs
  | body b => exact ⟨b, rfl⟩

/-- **A parameter as it is hinted**, which may be marked before: it is as it was but for where
it travels, and a body is not marked. -/
structure OperationParameter.Passed (p : OperationParameter) (j : Json) : Prop where
  field? : ∀ key, key ≠ "in" → j.field? key = p.toJson.field? key
  body : ∀ b, p = .body b → j = p.toJson

namespace OperationParameter.Passed

variable {p : OperationParameter} {j : Json}

theorem self (p : OperationParameter) : p.Passed p.toJson := ⟨fun _ _ => rfl, fun _ _ => rfl⟩

theorem markInline (p : OperationParameter) : p.Passed (Upload.markInline p.toJson) := by
  refine ⟨fun key hkey => Upload.field?_markInline_of_ne hkey p.toJson, ?_⟩
  rintro b rfl
  rfl

theorem textField? (h : p.Passed j) {key : String} (hkey : key ≠ "in") :
    j.textField? key = p.toJson.textField? key := by
  unfold Json.textField?
  rw [h.field? key hkey]

end OperationParameter.Passed

theorem OperationParameter.passed (p : OperationParameter) {j : Json}
    (h : j = p.toJson ∨ j = Upload.markInline p.toJson) : p.Passed j := by
  obtain rfl | rfl := h
  · exact .self p
  · exact .markInline p

/-- **A property of a body with hints** is one of the body. -/
theorem Hint.exists_property_of_parameter {sources : List Source} {scope : Option String}
    {b : Body} {s : Json} (hs : (parameter sources scope b.toJson).field? "schema" = some s)
    {ps : Table Json} (hps : s.field? "properties" = some (.object ps)) {e : String × Json}
    (he : e ∈ ps.entries) :
    ∃ q, (e.1, q) ∈ b.properties.entries ∧ e.2 = hinted sources scope e.1 q.toJson := by
  obtain ⟨t, ht, hproperties⟩ := b.exists_schema
  have hbody : parameter sources scope b.toJson = _ :=
    parameter_of_schema sources scope rfl ht
  rw [hbody] at hs
  change (Table.insert _ "schema" _).get? "schema" = some s at hs
  rw [Table.get?_insert, if_pos rfl, schema_eq] at hs
  obtain rfl := Option.some.inj hs
  change (t.mapEntries _).get? "properties" = _ at hps
  rw [Table.get?_mapEntries, hproperties] at hps
  change some (properties sources scope (.object _)) = _ at hps
  rw [properties_object] at hps
  obtain rfl := object.inj (Option.some.inj hps)
  obtain ⟨y, hy, hhinted⟩ := Table.mem_entries_mapEntries.1 he
  obtain ⟨q, hq, hjson⟩ := Table.mem_entries_map.1 hy
  exact ⟨q, hq, hhinted.trans (congrArg (hinted sources scope e.1) hjson)⟩

/-! ## Finished documents -/

section Assembled

variable {config : Config} {schema : Schema} {ctx : OperationContext} {definitions : Table Json}
  {operations : List PlacedOperation}

/-- **A property of a definition** was written for a class or for the envelope. -/
theorem exists_written_of_definition (hb : ctx.flattening.Built)
    (hdefs : definitionSection config schema.apiVersion ctx.flattening.definitions
      = .ok definitions) {name : String} {s : Json}
    (hs : ((SwaggerForge.assemble schema ctx definitions operations).finish
      config).definitions.get? name = some s)
    {ps : Table Json} (hps : s.field? "properties" = some (.object ps)) {e : String × Json}
    (he : e ∈ ps.entries) : ∃ sources x, ctx.declarations.WritesProperty schema.apiVersion x ∧
      e.2 = Hint.hinted sources none e.1 x.withoutFiles := by
  rw [Document.get?_definitions_finish] at hs
  obtain ⟨j, hj, rfl⟩ := Option.map_eq_some_iff.1 hs
  obtain ⟨t, ht, x, hx, heq⟩ := Hint.exists_property_of_nested hps he
  have hwritten := Declarations.writesDefinition_of_get?_definitionSection hb hdefs hj
  exact ⟨_, x, hwritten.writesProperty ht hx, heq⟩

variable {actions : List (Service × Action)}
  (hops : List.Forall₂ (fun e o => ctx.OperationOf e.1 e.2 o) actions operations)
include hops

/-- **A shared parameter** was shared by all requests or by an action, and then perhaps
marked. -/
theorem exists_written_of_shared {key : String} {p : Json}
    (hp : ((SwaggerForge.assemble schema ctx definitions operations).finish
      config).parameters.get? key = some p) :
    ∃ sources q, (ctx.sharedParameters actions).get? key = some q ∧ ∃ j,
      (∀ key, key ≠ "in" → j.field? key = q.field? key) ∧ p = Hint.parameter sources none j := by
  obtain ⟨sources, hfinish⟩ := Document.get?_parameters_finish
    (SwaggerForge.assemble schema ctx definitions operations) config
  rw [hfinish, parameters_assemble hops] at hp
  obtain ⟨q, hq, rfl⟩ := Option.map_eq_some_iff.1 hp
  refine ⟨sources, q, hq, _, fun key hkey => ?_, rfl⟩
  split
  · exact Upload.field?_mark_of_ne hkey q
  · rfl

/-- **What an operation lists** is listed by the operation of an action, and then perhaps
marked. -/
theorem exists_hinted_of_lists {path : String} {p : Json}
    (h : ((SwaggerForge.assemble schema ctx definitions operations).finish config).Lists path p) :
    ∃ s a placed, ctx.OperationOf s a placed ∧ ∃ q ∈ placed.operation.parameters,
      ∃ j, (j = q.toJson ∨ j = Upload.markInline q.toJson) ∧
        p = Hint.parameter ((SwaggerForge.assemble schema ctx definitions operations).pickSources
          config) (some path) j := by
  obtain ⟨methods, hpath, x, hx, hp⟩ := h
  obtain ⟨o, ho, hx⟩ := Document.exists_of_mem_finished
    (fun _ _ hitem => exists_pathItem hitem) hpath hx
  obtain ⟨placed, hplaced, rfl⟩ := exists_of_mem_operationsOf ho
  obtain ⟨e, -, hof⟩ := exists_left_of_forall₂ hops hplaced
  refine ⟨e.1, e.2, placed, hof, ?_⟩
  rcases hx with rfl | rfl
  · rw [parametersOf_hints, Operation.parametersOf_toJson, List.map_map] at hp
    obtain ⟨q, hq, rfl⟩ := List.mem_map.1 hp
    exact ⟨q, hq, _, .inl rfl, rfl⟩
  · rw [parametersOf_hints_promoted, Operation.parametersOf_toJson, List.map_map] at hp
    obtain ⟨q, hq, rfl⟩ := List.mem_map.1 hp
    exact ⟨q, hq, _, .inr rfl, rfl⟩

/-- Where the hints are from does not matter for most of it. -/
theorem exists_passed_of_lists {path : String} {p : Json}
    (h : ((SwaggerForge.assemble schema ctx definitions operations).finish config).Lists path p) :
    ∃ sources s a placed, ctx.OperationOf s a placed ∧
      ∃ q ∈ placed.operation.parameters, ∃ j, q.Passed j ∧
        p = Hint.parameter sources (some path) j := by
  obtain ⟨s, a, placed, hof, q, hq, j, hj, hp⟩ := exists_hinted_of_lists hops h
  exact ⟨_, s, a, placed, hof, q, hq, j, q.passed hj, hp⟩

/-- **A property of a body** is one of the body that an operation lists. -/
theorem exists_hinted_of_body {path : String} {p : Json}
    (h : ((SwaggerForge.assemble schema ctx definitions operations).finish config).Lists path p)
    {s : Json} (hs : p.field? "schema" = some s) {ps : Table Json}
    (hps : s.field? "properties" = some (.object ps)) {e : String × Json} (he : e ∈ ps.entries) :
    ∃ s a placed b, ctx.OperationOf s a placed ∧
      OperationParameter.body b ∈ placed.operation.parameters ∧
      ∃ q, (e.1, q) ∈ b.properties.entries ∧
        e.2 = Hint.hinted ((SwaggerForge.assemble schema ctx definitions operations).pickSources
          config) (some path) e.1 q.toJson := by
  obtain ⟨s', a, placed, hof, q, hq, j, hj, rfl⟩ := exists_hinted_of_lists hops h
  have hpassed := q.passed hj
  have hschema : ∃ x, q.toJson.field? "schema" = some x := by
    rcases Hint.field?_parameter_schema _ _ hs with hs | ⟨t, ht, -⟩
    · exact ⟨s, (hpassed.field? _ (by decide)).symm.trans hs⟩
    · exact ⟨_, (hpassed.field? _ (by decide)).symm.trans ht⟩
  obtain ⟨x, hx⟩ := hschema
  obtain ⟨b, rfl⟩ := OperationParameter.exists_body_of_schema hx
  rw [hpassed.body b rfl] at hs
  exact ⟨s', a, placed, b, hof, hq, Hint.exists_property_of_parameter hs hps he⟩

theorem exists_written_of_body {path : String} {p : Json}
    (h : ((SwaggerForge.assemble schema ctx definitions operations).finish config).Lists path p)
    {s : Json} (hs : p.field? "schema" = some s) {ps : Table Json}
    (hps : s.field? "properties" = some (.object ps)) {e : String × Json} (he : e ∈ ps.entries) :
    ∃ sources s a placed b, ctx.OperationOf s a placed ∧
      OperationParameter.body b ∈ placed.operation.parameters ∧
      ∃ q, (e.1, q) ∈ b.properties.entries ∧ e.2 = Hint.hinted sources (some path) e.1 q.toJson :=
  ⟨_, exists_hinted_of_body hops h hs hps he⟩

end Assembled

end SwaggerForge
