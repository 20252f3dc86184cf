import SwaggerForge.Proofs.Lacking
import SwaggerForge.Proofs.PickSources
import SwaggerForge.Proofs.Resolution

/-!
# What is written offers no pick lists

Nothing of what a document is made from, enumerations, definitions, parameters and operations,
offers a pick list before hints are put on: the field for it is missing
(`Json.Lacks`), save where it is the name of a property. Removing uploads and moving operations
do not bring it in, nor do hints outside the scope of operations.
-/

namespace SwaggerForge

open Json

/-! ## Values -/

@[simp] theorem lacks_reference (target : String) : (reference target).Lacks "x-dynamicEnum" := by
  unfold reference
  simp

@[simp] theorem lacks_definitionRef (name : String) : (definitionRef name).Lacks "x-dynamicEnum" :=
  lacks_reference _

@[simp] theorem lacks_primitive (type : Primitive) : type.toJson.Lacks "x-dynamicEnum" :=
  lacks_string _

@[simp] theorem lacks_itemSchema (type : Primitive) : type.itemSchema.Lacks "x-dynamicEnum" := by
  unfold Primitive.itemSchema
  simp

theorem lacks_typeSchema (t : TypeSchema) : t.toJson.Lacks "x-dynamicEnum" := by
  induction t with
  | reference target => exact lacks_definitionRef target
  | value type =>
    unfold TypeSchema.toJson
    simp
  | arrayOf items ih =>
    unfold TypeSchema.toJson
    simpa using ih

theorem EnumValues.Plain.fieldLacks {e : EnumValues} (h : e.Plain) :
    ∀ f ∈ e.fields, FieldLacks "x-dynamicEnum" f := by
  have hvalues : ∀ v ∈ e.values, v.Lacks "x-dynamicEnum" := fun v hv => lacks_of_isLiteral (h v hv)
  unfold EnumValues.fields
  rw [List.forall_mem_append, List.forall_mem_append]
  refine ⟨⟨?_, by simp⟩, by simp [-Prod.forall]⟩
  split
  · exact List.forall_mem_nil _
  · simpa using hvalues

theorem fieldLacks_enum {enum : Option EnumValues} (h : ∀ e, enum = some e → e.Plain) :
    ∀ f ∈ (match enum with
      | none => []
      | some e => e.fields), FieldLacks "x-dynamicEnum" f := by
  split
  · exact List.forall_mem_nil _
  · next e => exact (h e rfl).fieldLacks

theorem ValueSchema.Offered.fieldLacks {env : Declarations} (hplain : env.enums.Plain)
    {v : ValueSchema} (h : v.Offered env) :
    ∀ e ∈ v.constraintFields, FieldLacks "x-dynamicEnum" e := by
  have hdefault : ∀ j, v.default = some j → j.Lacks "x-dynamicEnum" := fun j hj =>
    lacks_of_isLiteral (Primitive.isLiteral_of_hasValue (h.default j hj))
  unfold ValueSchema.constraintFields
  rw [List.forall_mem_append]
  exact ⟨by simpa [-Prod.forall] using hdefault,
    fieldLacks_enum fun e he => (h.enum e he).plain hplain⟩

theorem lacks_catalog {c : EnumCatalog} (h : c.Plain) {name : String} {entry : EnumEntry}
    (hentry : (name, entry) ∈ c.entries.entries) : (entry.toJson name).Lacks "x-dynamicEnum" := by
  have hoptions : ∀ o ∈ entry.canonical, o.value.Lacks "x-dynamicEnum" := fun o ho =>
    lacks_of_isLiteral (h _ hentry o (mem_of_mem_newOptions ho))
  unfold EnumEntry.toJson
  simpa using hoptions

/-! ## Parameters -/

theorem lacks_inline {env : Declarations} (hplain : env.enums.Plain) {p : InlineParameter}
    (h : p.value.Offered env) : p.toJson.Lacks "x-dynamicEnum" := by
  unfold InlineParameter.toJson
  rw [lacks_fields]
  simp only [List.forall_mem_append]
  exact ⟨⟨by simp, h.fieldLacks hplain⟩, by simp [-Prod.forall]⟩

theorem lacks_bodyProperty {env : Declarations} (hplain : env.enums.Plain) {q : BodyProperty}
    (h : ∀ v items, q = .value v items → v.Offered env) : q.toJson.Lacks "x-dynamicEnum" := by
  cases q with
  | reference target => exact lacks_definitionRef target
  | value v items =>
    have hitems : ∀ e ∈ optional "items" (items.map TypeSchema.toJson),
        FieldLacks "x-dynamicEnum" e := by
      rw [forall_mem_optional]
      intro j hj
      obtain ⟨t, -, rfl⟩ := Option.map_eq_some_iff.1 hj
      exact fieldLacks_iff.2 ⟨by simp, lacks_typeSchema t⟩
    show (fields _).Lacks "x-dynamicEnum"
    rw [lacks_fields]
    simp only [List.forall_mem_append]
    exact ⟨⟨⟨by simp, hitems⟩, (h v items rfl).fieldLacks hplain⟩, by simp [-Prod.forall]⟩

theorem lacks_flatParameter {p : FlatParameter}
    (hitems : ∀ j, p.items = some j → j.Lacks "x-dynamicEnum")
    (hplain : ∀ e, p.enum = some e → e.Plain) : p.toJson.Lacks "x-dynamicEnum" := by
  unfold FlatParameter.toJson
  rw [lacks_fields]
  simp only [List.forall_mem_append]
  refine ⟨⟨⟨⟨⟨by simp, ?_⟩, fieldLacks_enum hplain⟩, by simp [-Prod.forall]⟩,
    by simp [-Prod.forall]⟩, by simp [-Prod.forall]⟩
  simpa [-Prod.forall] using hitems

theorem Flattening.ElementsOf.lacks {f : Flattening} {items : Option Json}
    (h : f.ElementsOf items) : ∀ j, items = some j → j.Lacks "x-dynamicEnum" := by
  intro j hj
  cases h with
  | none => cases hj
  | objects target =>
    rw [← Option.some.inj hj]
    unfold elementSchema
    simp
  | values =>
    rw [← Option.some.inj hj]
    exact lacks_itemSchema _

theorem RequestParameters.EntryOf.lacks {settings : List RequestSetting} {e : String × Json}
    (h : EntryOf settings e) : e.2.Lacks "x-dynamicEnum" := by
  cases h with
  | session name =>
    unfold sessionEntry
    simp
  | format =>
    unfold formatEntry
    simp
  | clientTag =>
    unfold clientTagEntry
    simp
  | setting =>
    unfold settingEntry
    simp

/-- **A body** offers no pick list outside its schema, nor its schema outside the properties. -/
theorem Body.lacksOutside (b : Body) : b.toJson.LacksOutside "schema" "x-dynamicEnum" ∧
    ∀ s, b.toJson.field? "schema" = some s → s.LacksOutside "properties" "x-dynamicEnum" := by
  refine ⟨.ofFields (by simp), fun s hs => ?_⟩
  obtain rfl := Option.some.inj hs
  refine .ofFields ?_
  simp only [List.forall_mem_append]
  refine ⟨⟨⟨by simp, ?_⟩, by simp⟩, ?_⟩
  · rw [forall_mem_optional]
    intro j hj
    obtain ⟨name, -, rfl⟩ := Option.map_eq_some_iff.1 hj
    simp
  · split
    · exact List.forall_mem_nil _
    · simp

/-- **A shared parameter** offers no pick list. -/
theorem lacks_sharedParameters {config : Config} {schema : Schema} {ctx : OperationContext}
    (hctx : OperationContext.Of config schema ctx) {actions : List (Service × Action)}
    {e : String × Json} (h : e ∈ (ctx.sharedParameters actions).entries) :
    e.2.Lacks "x-dynamicEnum" := by
  rcases OperationContext.mem_sharedParameters h with h | ⟨x, -, flat, hflat, hjson⟩
  · exact ((RequestParameters.valid_of_ofSettings hctx.requestParameters).entries e h).lacks
  · have hb : ctx.flattening.Built := hctx.built
    rw [hjson]
    refine lacks_flatParameter
      (OperationContext.elementsOf_of_mem_sharedBy hb hflat).lacks fun values hvalues => ?_
    obtain ⟨-, p, -, hk, expansion, he, q, hq, rfl⟩ :=
      OperationContext.exists_expand_of_mem_sharedBy hflat
    exact hb.forall_mem_enums (fun _ _ => EnumValues.Plain.union)
      (fun _ h => h.plain (EnumCatalog.plain_of_ofDecls hctx.enums)) hk he q hq values hvalues

/-! ## Definitions -/

theorem lacks_definedProperty {p : DefinedProperty} (hplain : p.shape.Plain) :
    p.toJson.Lacks "x-dynamicEnum" := by
  unfold DefinedProperty.toJson
  cases hshape : p.shape with
  | reference target => exact lacks_definitionRef target
  | referenceArray target => simp
  | value type items default enum =>
    rw [hshape] at hplain
    have hdefault : ∀ j, default = some j → j.Lacks "x-dynamicEnum" := fun j hj =>
      lacks_of_isLiteral (hplain.1 j hj)
    have henum : ∀ f ∈ (match enum with
        | none => []
        | some e => if p.discriminator then [("enum", array e.values)] else e.fields),
        FieldLacks "x-dynamicEnum" f := by
      split
      · exact List.forall_mem_nil _
      · next e =>
        split
        · have hvalues : ∀ v ∈ e.values, v.Lacks "x-dynamicEnum" := fun v hv =>
            lacks_of_isLiteral (hplain.2 e rfl v hv)
          simpa using hvalues
        · exact (hplain.2 e rfl).fieldLacks
    dsimp only
    rw [lacks_fields]
    simp only [List.forall_mem_append]
    refine ⟨⟨⟨⟨⟨by simp, ?_⟩, by simp [-Prod.forall]⟩, ?_⟩, henum⟩, by simp [-Prod.forall]⟩
    · simp [-Prod.forall]
    · simpa [-Prod.forall] using hdefault

theorem Declarations.WritesProperty.lacks {env : Declarations} (hplain : env.enums.Plain)
    {apiVersion : String} {q : Json} (h : env.WritesProperty apiVersion q) :
    q.Lacks "x-dynamicEnum" := by
  cases h with
  | defined defined mem =>
    exact lacks_definedProperty (plain_of_mem_properties hplain defined mem)
  | credential => exact lacks_itemSchema _
  | version => simp

/-- **A definition** offers no pick list outside its properties. -/
theorem Declarations.WritesDefinition.lacksOutside {env : Declarations}
    {session apiVersion : String} {s : Json} (h : env.WritesDefinition session apiVersion s) :
    s.LacksOutside "properties" "x-dynamicEnum" := by
  cases h with
  | root => exact LacksOutside.ofFields (List.forall_mem_nil _)
  | @defined c d =>
    refine LacksOutside.ofFields ?_
    simp only [List.forall_mem_append]
    refine ⟨⟨⟨by simp, ?_⟩, ?_⟩, by simp [-Prod.forall]⟩
    · rw [forall_mem_optional]
      intro j hj
      obtain ⟨b, -, rfl⟩ := Option.map_eq_some_iff.1 hj
      simp
    · split
      · simp
      · exact List.forall_mem_nil _
  | envelope =>
    refine LacksOutside.ofFields ?_
    simp

/-- The properties are an object whose keys are names, and offer none. -/
theorem Declarations.WritesDefinition.exists_properties {env : Declarations}
    (hplain : env.enums.Plain) {session apiVersion : String} {s : Json}
    (h : env.WritesDefinition session apiVersion s) {x : Json}
    (hx : s.field? "properties" = some x) :
    ∃ ps, x = .object ps ∧ ∀ e ∈ ps.entries, e.2.Lacks "x-dynamicEnum" := by
  have hobject : ∃ ps, x = .object ps := by
    cases h with
    | root => cases hx
    | defined => exact ⟨_, (Option.some.inj hx).symm⟩
    | envelope => exact ⟨_, (Option.some.inj hx).symm⟩
  obtain ⟨ps, rfl⟩ := hobject
  exact ⟨ps, rfl, fun e he => (h.writesProperty hx he).lacks hplain⟩

/-! ## Operations -/

theorem lacks_responses (r : Responses) : r.toJson.Lacks "x-dynamicEnum" := by
  have hschema : ∀ e ∈ optional "schema" (r.success.map TypeSchema.toJson),
      FieldLacks "x-dynamicEnum" e := by
    rw [forall_mem_optional]
    intro j hj
    obtain ⟨t, -, rfl⟩ := Option.map_eq_some_iff.1 hj
    exact fieldLacks_iff.2 ⟨by simp, lacks_typeSchema t⟩
  have herrors : ∀ e ∈ optional "x-errors" (r.errors.map fun text =>
      fields [("description", .string text)]), FieldLacks "x-dynamicEnum" e := by
    rw [forall_mem_optional]
    intro j hj
    obtain ⟨text, -, rfl⟩ := Option.map_eq_some_iff.1 hj
    simp
  unfold Responses.toJson
  rw [lacks_fields, List.forall_mem_append, List.forall_mem_singleton, fieldLacks_iff, lacks_fields,
    List.forall_mem_append]
  exact ⟨⟨by simp, by simp, hschema⟩, herrors⟩

namespace ParameterGroup

mutual

theorem Each.lacks : ∀ {g : ParameterGroup}, g.Each (·.Lacks "x-dynamicEnum") →
    g.toJson.Lacks "x-dynamicEnum"
  | mk n d s gs, h => by
    rw [Each] at h
    have hschema : ∀ e ∈ optional "schema" s, FieldLacks "x-dynamicEnum" e := by
      rw [forall_mem_optional]
      exact fun j hj => fieldLacks_iff.2 ⟨by simp, h.1 j hj⟩
    have hsub : ∀ e ∈ (if gs.isEmpty then [] else [("subGroups", array (allToJson gs))]),
        FieldLacks "x-dynamicEnum" e := by
      split
      · exact List.forall_mem_nil _
      · rw [List.forall_mem_singleton, fieldLacks_iff, lacks_array]
        exact ⟨by simp, AllEach.lacks h.2⟩
    rw [ParameterGroup.toJson, lacks_fields]
    simp only [List.forall_mem_append]
    exact ⟨⟨⟨by simp, by simp [-Prod.forall]⟩, hschema⟩, hsub⟩

theorem AllEach.lacks : ∀ {gs : List ParameterGroup}, AllEach (·.Lacks "x-dynamicEnum") gs →
    ∀ j ∈ allToJson gs, j.Lacks "x-dynamicEnum"
  | [], _ => fun _ h => nomatch h
  | g :: rest, h => by
    rw [AllEach] at h
    rw [allToJson, List.forall_mem_cons]
    exact ⟨Each.lacks h.1, AllEach.lacks h.2⟩

end

end ParameterGroup

/-- **An operation** offers no pick list outside its parameters. -/
theorem lacksOutside_operation {ctx : OperationContext} {s : Service} {a : Action}
    {o : PlacedOperation} (ho : ctx.OperationOf s a o) :
    o.operation.toJson.LacksOutside "parameters" "x-dynamicEnum" := by
  have hgroups : ParameterGroup.AllEach (·.Lacks "x-dynamicEnum") o.operation.groups := by
    cases ho with
    | body =>
      show ParameterGroup.AllEach _ []
      rw [ParameterGroup.AllEach]
      trivial
    | query style each answers =>
      exact allEach_groupsOf (fun name _ => lacks_definitionRef name) each
  refine LacksOutside.ofFields ?_
  simp only [List.forall_mem_append]
  refine ⟨⟨⟨⟨⟨⟨⟨⟨?_, by simp⟩, ?_⟩, ?_⟩, by simp⟩, ?_⟩, by simp⟩, ?_⟩, ?_⟩
  · simp [-Prod.forall]
  · simp [-Prod.forall]
  · simp [-Prod.forall]
  · split
    · exact List.forall_mem_nil _
    · rw [List.forall_mem_singleton]
      exact ⟨by simp, fun _ => lacks_array.2 hgroups.lacks⟩
  · split
    · exact List.forall_mem_nil _
    · simp
  · rw [List.forall_mem_singleton]
    exact ⟨by simp, fun _ => lacks_responses _⟩

/-! ## The rest of a document -/

theorem lacks_info (connection : Connection) (apiVersion : String) :
    (Header.info connection apiVersion).Lacks "x-dynamicEnum" := by
  unfold Header.info
  cases connection.description <;> simp

theorem lacks_securityScheme (config : Config) :
    (Header.securityScheme config).Lacks "x-dynamicEnum" := by
  unfold Header.securityScheme
  simp

theorem lacks_tag (s : Service) : s.tag.Lacks "x-dynamicEnum" := by
  unfold Service.tag
  simp [or_imp, forall_and, -Prod.forall]

theorem lacks_error (e : ErrorDecl) : e.toJson.Lacks "x-dynamicEnum" := by
  unfold ErrorDecl.toJson
  simp [or_imp, forall_and, -Prod.forall]

/-! ## Passes -/

/-- **An operation without uploads**, moved or not, still offers none. -/
theorem lacksOutside_responsesWithoutFiles {o : Json}
    (h : o.LacksOutside "parameters" "x-dynamicEnum") :
    (responsesWithoutFiles o).LacksOutside "parameters" "x-dynamicEnum" :=
  h.modifyField (.inr fun _ hx => lacks_mapFields (fun _ hx => lacks_modifyField
    (fun _ hy => lacks_withoutFiles hy) "schema" hx) hx)

theorem lacksOutside_promoted {o : Json} (h : o.LacksOutside "parameters" "x-dynamicEnum") :
    (Upload.promoted o).LacksOutside "parameters" "x-dynamicEnum" :=
  (h.modifyField (.inl rfl)).setField (by simp) (.inr (lacks_string _))

theorem lacks_mark {p : Json} (h : p.Lacks "x-dynamicEnum") :
    (Upload.mark p).Lacks "x-dynamicEnum" := by
  unfold Upload.mark Upload.asFormData
  split
  · cases p with
    | object t =>
      show (object (t.insertAll [("in", _)])).Lacks "x-dynamicEnum"
      exact lacks_insertAll h (by simp)
    | _ => exact h
  · exact h

theorem lacks_markInline {p : Json} (h : p.Lacks "x-dynamicEnum") :
    (Upload.markInline p).Lacks "x-dynamicEnum" := by
  unfold Upload.markInline
  split
  · exact h
  · exact lacks_mark h

namespace Hint

variable (sources : List Source)

theorem lacks_of_isHint {e : String × Json} (h : IsHint e) : e.2.Lacks "x-dynamicEnum" := by
  cases h with
  | pickList s =>
    unfold Source.toJson
    simp
  | input how => exact lacks_string how
  | expiry => exact lacks_int _

/-- Outside the scope of operations no pick list is among the hints. -/
theorem fieldLacks_of_mem_propertyHints {name : String} {type : Option Json} {e : String × Json}
    (he : e ∈ propertyHints sources none name type) : FieldLacks "x-dynamicEnum" e := by
  have hkeys : ∀ e ∈ propertyHints sources none name type, e.1 ≠ "x-dynamicEnum" := by
    unfold propertyHints
    rw [offered_eq, found_none]
    dsimp only
    split_ifs <;> simp
  exact ⟨hkeys e he, lacks_of_isHint (isHint_of_mem_propertyHints sources none he)⟩

theorem fieldLacks_of_mem_parameterHints {name : String} {type : Option Json} {e : String × Json}
    (he : e ∈ parameterHints sources none name type) : FieldLacks "x-dynamicEnum" e := by
  have hkeys : ∀ e ∈ parameterHints sources none name type, e.1 ≠ "x-dynamicEnum" := by
    unfold parameterHints
    rw [offered_eq, found_none]
    dsimp only
    split_ifs <;> simp
  exact ⟨hkeys e he, lacks_of_isHint (isHint_of_mem_parameterHints sources none he)⟩

/-- A property outside the scope of operations is offered none. -/
theorem lacks_hinted_of_nested {q : Json} (hq : q.Lacks "x-dynamicEnum")
    (hnested : (nested sources q).Lacks "x-dynamicEnum") (name : String) :
    (hinted sources none name q).Lacks "x-dynamicEnum" := by
  rcases hinted_cases sources none name q with hsame | ⟨t, rfl, -, hannotated⟩
  · rw [hsame]
    exact hq
  · rw [nested_object] at hnested
    rw [hannotated, annotateProperty_eq]
    exact lacks_insertAll hnested fun _ he => fieldLacks_of_mem_propertyHints sources he

/-- **Hints inside an object** bring no pick list in. -/
theorem lacks_nested_and_properties (j : Json) (h : j.Lacks "x-dynamicEnum") :
    (nested sources j).Lacks "x-dynamicEnum" ∧
      (properties sources none j).Lacks "x-dynamicEnum" := by
  induction j using object_induction with
  | other j hother =>
    rw [nested_eq_self sources hother, properties_eq_self sources none hother]
    exact ⟨h, h⟩
  | object t ih =>
    rw [nested_object, properties_object]
    refine ⟨lacks_mapEntries h fun e he hlacks => ?_, lacks_mapEntries h fun e he hlacks =>
      lacks_hinted_of_nested sources hlacks (ih e he hlacks).1 e.1⟩
    obtain ⟨hitems, hproperties⟩ := ih e he hlacks
    unfold schemaField
    split_ifs
    · exact hitems
    · exact hproperties
    · exact hlacks

theorem lacks_nested {j : Json} (h : j.Lacks "x-dynamicEnum") :
    (nested sources j).Lacks "x-dynamicEnum" :=
  (lacks_nested_and_properties sources j h).1

theorem lacks_schemaField {key : String} (hkey : key ≠ "properties") (scope : Option String)
    {x : Json} (hx : x.Lacks "x-dynamicEnum") :
    (schemaField sources scope key x).Lacks "x-dynamicEnum" := by
  unfold schemaField
  rw [if_neg hkey]
  split
  · exact lacks_nested sources hx
  · exact hx

/-- A finished schema offers none outside its properties, if it did not before. -/
theorem lacksOutside_nested {j : Json} (h : j.LacksOutside "properties" "x-dynamicEnum") :
    (nested sources j.withoutFiles).LacksOutside "properties" "x-dynamicEnum" := by
  obtain ⟨t, rfl⟩ := h.exists_object
  have hfree := h.mapEntries fun key _ _ hx => lacks_fieldWithoutFiles key hx
  rw [withoutFiles_object, nested_object]
  exact hfree.mapEntries fun key _ hkey hx => lacks_schemaField sources hkey none hx

/-- **Outside the scope of operations** no pick list is put on a parameter. -/
theorem lacks_parameter {p : Json} (hp : p.Lacks "x-dynamicEnum") :
    (parameter sources none p).Lacks "x-dynamicEnum" := by
  rcases parameter_cases sources none p with
    hsame | ⟨t, s, rfl, -, hs, hbody⟩ | ⟨t, name, rfl, -, -, -, hannotated⟩
  · rw [hsame]
    exact hp
  · have hschema := lacks_nested sources (hp.field? hs)
    rw [nested_object, ← schema_eq] at hschema
    rw [hbody]
    show (object (t.insertAll [("schema", _)])).Lacks "x-dynamicEnum"
    exact lacks_insertAll hp (List.forall_mem_singleton.2 ⟨by simp, hschema⟩)
  · rw [hannotated, annotateParameter_eq]
    exact lacks_insertAll hp fun _ he => fieldLacks_of_mem_parameterHints sources he

/-! ## Inside the scope of operations -/

variable {ok : Address → Prop} (scope : Option String)

/-- Hints have no pick lists inside. -/
theorem fieldsAt_insertAll {t : Table Json} (ht : (object t).Lacks "x-dynamicEnum")
    {hints : List (String × Json)} (hhints : ∀ e ∈ hints, IsHint e) (self : ok []) :
    (object (t.insertAll hints)).FieldsAt "x-dynamicEnum" ok := by
  refine fieldsAt_object (fun _ _ => self) fun k x hx => Lacks.fieldsAt ?_
  rcases Table.mem_entries_insertAll (Table.mem_entries_of_get? hx) with he | he
  · exact (lacks_object.1 ht _ he).2
  · exact lacks_of_isHint (hhints _ he)

/-- **A pick list is put on a property itself**, and on nothing inside it. -/
theorem fieldsAt_hinted {q : Json} (hq : q.Lacks "x-dynamicEnum") (name : String)
    (self : q.field? "$ref" = none → ok []) :
    (hinted sources scope name q).FieldsAt "x-dynamicEnum" ok := by
  rcases hinted_cases sources scope name q with hsame | ⟨t, rfl, plain, hannotated⟩
  · rw [hsame]
    exact hq.fieldsAt
  · have hin := lacks_nested sources hq
    rw [nested_object] at hin
    rw [hannotated, annotateProperty_eq]
    exact fieldsAt_insertAll hin (fun _ he => isHint_of_mem_propertyHints sources scope he)
      (self plain)

end Hint

end SwaggerForge
