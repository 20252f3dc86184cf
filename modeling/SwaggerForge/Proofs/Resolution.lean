import SwaggerForge.Proofs.Closure
import SwaggerForge.Proofs.Groups

/-!
# Compiled documents have no dangling references

The document that a compilation succeeds with has no dangling references
(`dangling_compile`). An operation refers to classes that the hierarchy knows, to the
envelope where there is one, and to keys of shared parameters; all of them are
registered in the assembled document (`OperationContext.Registered`,
`registered_assemble`), which therefore refers only to what it has
(`refersOnly_assemble`). Finishing a document neither adds references nor drops keys.
-/

namespace SwaggerForge

open Json

/-! ## Groups -/

namespace ParameterGroup

variable {ok : String → Prop}

mutual

/-- **A group that leads to known targets only**, with the groups inside it. -/
def Leads (ok : String → Prop) : ParameterGroup → Prop
  | mk _ _ schema gs => (∀ j, schema = some j → j.RefersOnly ok) ∧ AllLead ok gs

/-- A forest all of whose groups lead to known targets only. -/
def AllLead (ok : String → Prop) : List ParameterGroup → Prop
  | [] => True
  | g :: rest => g.Leads ok ∧ AllLead ok rest

end

mutual

/-- It is a group all of whose schemas do. -/
theorem leads_iff : ∀ {g : ParameterGroup}, g.Leads ok ↔ g.Each (·.RefersOnly ok)
  | mk n d s gs => by
    rw [Leads, Each]
    exact and_congr_right fun _ => allLead_iff

theorem allLead_iff : ∀ {gs : List ParameterGroup}, AllLead ok gs ↔ AllEach (·.RefersOnly ok) gs
  | [] => Iff.rfl
  | g :: rest => by
    rw [AllLead, AllEach]
    exact and_congr leads_iff allLead_iff

end

mutual

theorem Leads.toJson : ∀ {g : ParameterGroup}, g.Leads ok → g.toJson.RefersOnly ok
  | mk n d s gs, h => by
    rw [Leads] at h
    have hschema : ∀ e ∈ optional "schema" s, FieldRefersOnly ok e := by
      rw [forall_mem_optional]
      exact fun j hj => (fieldRefersOnly_of_ne (by decide)).2 (h.1 j hj)
    have hsub : ∀ e ∈ (if gs.isEmpty then [] else [("subGroups", array (allToJson gs))]),
        FieldRefersOnly ok e := by
      split
      · exact fun _ h => nomatch h
      · rw [List.forall_mem_singleton, fieldRefersOnly_array, refersOnly_array]
        exact AllLead.toJson h.2
    rw [ParameterGroup.toJson, refersOnly_fields]
    simp only [List.forall_mem_append]
    exact ⟨⟨⟨by simp, by simp [-Prod.forall]⟩, hschema⟩, hsub⟩

theorem AllLead.toJson : ∀ {gs : List ParameterGroup}, AllLead ok gs →
    ∀ j ∈ allToJson gs, j.RefersOnly ok
  | [], _ => fun _ h => nomatch h
  | g :: rest, h => by
    rw [AllLead] at h
    rw [allToJson, List.forall_mem_cons]
    exact ⟨Leads.toJson h.1, AllLead.toJson h.2⟩

end

end ParameterGroup

/-! ## Operations -/

/-- **What operations may refer to**: the known classes, the envelope if there is one,
and the request-wide parameters. -/
structure OperationContext.Registered (ctx : OperationContext) (ok : String → Prop) : Prop where
  classes : ∀ name, ctx.hierarchy.isKnown name = true → ok (definitionsPrefix ++ name)
  envelope : ctx.config.profile = .enveloped → ok (definitionsPrefix ++ envelopeName)
  session : ok (parametersPrefix ++ ctx.requestParameters.session)
  attached : ∀ key ∈ ctx.requestParameters.attached, ok (parametersPrefix ++ key)
  bodyProperties : ∀ e ∈ ctx.requestParameters.bodyProperties,
    ctx.hierarchy.isKnown e.2 = true
  plain : ctx.declarations.enums.Plain

section Operations

variable {ok : String → Prop} {ctx : OperationContext} (reg : ctx.Registered ok)
include reg

/-- The default and the allowed values of a parameter refer to nothing. -/
theorem fieldRefersOnly_constraints {type : Primitive} {default : Option Json}
    {literal enumType : Option String} {context : String} {description : Option String}
    (hdefault : type.parseDefault literal context = .ok default) :
    ∀ e ∈ (ValueSchema.mk type default (enumType.bind ctx.declarations.enums.values?)
      description).constraintFields, FieldRefersOnly ok e := by
  have hliteral : ∀ j, default = some j → j.RefersOnly ok := by
    rintro j rfl
    exact refersOnly_of_isLiteral
      (Primitive.isLiteral_of_hasValue (Primitive.hasValue_of_parseDefault hdefault))
  have henum : ∀ e, enumType.bind ctx.declarations.enums.values? = some e → e.Plain := fun e he =>
    (Declarations.supplies_of_enumType he).plain reg.plain
  unfold ValueSchema.constraintFields
  rw [List.forall_mem_append]
  exact ⟨by simpa [-Prod.forall] using hliteral, fieldRefersOnly_enum henum⟩

theorem refersOnly_bodyProperty {a : Action} {p : Parameter} {q : BodyProperty}
    (hq : ctx.BodyPropertyOf a p q) : q.toJson.RefersOnly ok := by
  cases hq with
  | reference known => exact refersOnly_definitionRef reg.classes known
  | @value type items default named elements literal =>
    have hitems : ∀ e ∈ optional "items" (items.map TypeSchema.toJson), FieldRefersOnly ok e := by
      rw [forall_mem_optional]
      intro j hj
      obtain ⟨t, rfl, rfl⟩ := Option.map_eq_some_iff.1 hj
      have ht := refersOnly_typeSchema reg.classes (ctx.forValues_itemsSchema elements)
      simpa using ht
    unfold BodyProperty.toJson
    rw [refersOnly_fields]
    simp only [List.forall_mem_append]
    exact ⟨⟨⟨by simp, hitems⟩, fieldRefersOnly_constraints reg literal⟩, by simp [-Prod.forall]⟩

omit reg in
theorem BodyProperty.toJson_ne_string (q : BodyProperty) (s : String) : q.toJson ≠ .string s := by
  cases q <;> exact fun h => nomatch h

omit reg in
/-- The written form of a body refers where its schema refers. -/
theorem refersOnly_bodyToJson {b : Body}
    (hextending : ∀ name, b.extending = some name → (definitionRef name).RefersOnly ok)
    (hproperties : ∀ e ∈ b.properties.entries, e.2.toJson.RefersOnly ok) :
    b.toJson.RefersOnly ok := by
  have hprops : (object (b.properties.map BodyProperty.toJson)).RefersOnly ok := by
    refine refersOnly_object.2 fun e he => ?_
    obtain ⟨q, hq, hjson⟩ := Table.mem_entries_map.1 he
    rw [show e = (e.1, q.toJson) from Prod.ext rfl hjson]
    exact (hproperties _ hq).field q.toJson_ne_string e.1
  have hallOf : ∀ e ∈ optional "allOf" (b.extending.map fun name => array [definitionRef name]),
      FieldRefersOnly ok e := by
    rw [forall_mem_optional]
    intro j hj
    obtain ⟨name, hname, rfl⟩ := Option.map_eq_some_iff.1 hj
    simpa using hextending name hname
  have hrequired : ∀ e ∈ (if b.required = [] then [] else [("required", strings b.required)]),
      FieldRefersOnly ok e := by
    split
    · exact fun _ h => nomatch h
    · simp
  unfold Body.toJson
  rw [refersOnly_fields, List.forall_mem_cons, List.forall_mem_cons, List.forall_mem_singleton,
    fieldRefersOnly_fields, refersOnly_fields]
  simp only [List.forall_mem_append]
  exact ⟨by simp, by simp, ⟨⟨by simp, hallOf⟩, by simpa using hprops⟩, hrequired⟩

/-- **A body** refers to the classes of its properties and to the envelope. -/
theorem refersOnly_body {a : Action} {b : Body} (hb : ctx.BodyOf a b) :
    b.toJson.RefersOnly ok := by
  cases hb with
  | mk each =>
    refine refersOnly_bodyToJson (fun name hname => ?_) fun e he => ?_
    · change (if ctx.config.profile = .enveloped then some envelopeName else none) = some name
        at hname
      split at hname
      · next hprofile =>
        rw [← Option.some.inj hname]
        exact refersOnly_reference.2 (reg.envelope hprofile)
      · cases hname
    · rcases OperationContext.mem_entries_addRequestProperties he with he | ⟨x, hx, rfl⟩
      · obtain ⟨p, -, -, hp⟩ := exists_left_of_forall₂ each (Table.mem_entries_ofList he)
        exact refersOnly_bodyProperty reg hp
      · exact refersOnly_definitionRef reg.classes (reg.bodyProperties x hx)

/-- An inline parameter refers to nothing. -/
theorem refersOnly_inline {a : Action} {p : Parameter} {q : InlineParameter}
    (hq : ctx.QueryPartOf a p (.inline q)) : q.toJson.RefersOnly ok := by
  cases hq with
  | inline named literal =>
    unfold InlineParameter.toJson
    rw [refersOnly_fields]
    simp only [List.forall_mem_append]
    exact ⟨⟨by simp, fieldRefersOnly_constraints reg literal⟩, by simp [-Prod.forall]⟩

/-- **Answers** refer to the class of the result. -/
theorem refersOnly_responses {r : Responses}
    (hr : ∀ t, r.success = some t → t.ForValues ctx.hierarchy) : r.toJson.RefersOnly ok := by
  have hschema : ∀ e ∈ optional "schema" (r.success.map TypeSchema.toJson),
      FieldRefersOnly ok e := by
    rw [forall_mem_optional]
    intro j hj
    obtain ⟨t, ht, rfl⟩ := Option.map_eq_some_iff.1 hj
    have href := refersOnly_typeSchema reg.classes (hr t ht)
    simpa using href
  have herrors : ∀ e ∈ optional "x-errors" (r.errors.map fun text =>
      fields [("description", .string text)]), FieldRefersOnly ok e := by
    rw [forall_mem_optional]
    intro j hj
    obtain ⟨text, -, rfl⟩ := Option.map_eq_some_iff.1 hj
    simp
  unfold Responses.toJson
  rw [refersOnly_fields, List.forall_mem_append, List.forall_mem_singleton, fieldRefersOnly_fields,
    refersOnly_fields, List.forall_mem_append]
  exact ⟨⟨by simp, hschema⟩, herrors⟩

omit reg in
/-- The written form of an operation refers where its parts refer. -/
theorem refersOnly_operationToJson {o : Operation}
    (hparameters : ∀ p ∈ o.parameters, p.toJson.RefersOnly ok)
    (hgroups : ParameterGroup.AllLead ok o.groups) (hresponses : o.responses.toJson.RefersOnly ok) :
    o.toJson.RefersOnly ok := by
  have hgroups' : ∀ e ∈ (if o.groups.isEmpty then []
      else [("x-parameterGroups", array (ParameterGroup.allToJson o.groups))]),
      FieldRefersOnly ok e := by
    split
    · exact fun _ h => nomatch h
    · rw [List.forall_mem_singleton, fieldRefersOnly_array, refersOnly_array]
      exact hgroups.toJson
  have hsecurity : ∀ e ∈ (if o.sessionRequired then [] else [("security", array [])]),
      FieldRefersOnly ok e := by
    split
    · exact fun _ h => nomatch h
    · simp
  unfold Operation.toJson
  rw [refersOnly_fields]
  simp only [List.forall_mem_append]
  refine ⟨⟨⟨⟨⟨⟨⟨⟨?_, by simp⟩, ?_⟩, ?_⟩, by simp⟩, hgroups'⟩, ?_⟩, hsecurity⟩, ?_⟩
  · simp [-Prod.forall]
  · simp [-Prod.forall]
  · simp [-Prod.forall]
  · simpa using hparameters
  · simpa using hresponses

omit reg in
/-- **The schemas of the groups of a query** are the classes that are flattened. -/
theorem allEach_groupsOf {P : Json → Prop}
    (known : ∀ name, ctx.hierarchy.isKnown name = true → P (definitionRef name)) {a : Action}
    {ps : List Parameter} {parts : List OperationContext.QueryPart}
    (each : List.Forall₂ (ctx.QueryPartOf a) ps parts) :
    ParameterGroup.AllEach P (OperationContext.groupsOf parts) := by
  have hensure (names : List String) : ∀ gs, ParameterGroup.AllEach P gs →
      ParameterGroup.AllEach P
        (names.foldl (fun gs name => ParameterGroup.ensure name gs) gs) := by
    induction names with
    | nil => exact fun gs h => h
    | cons name rest ih => exact fun gs h => ih _ (h.ensure name)
  have hall : ∀ gs, ParameterGroup.AllEach P gs →
      ParameterGroup.AllEach P (parts.foldl OperationContext.QueryPart.addGroups gs) := by
    induction each with
    | nil => exact fun gs h => h
    | cons hpart _ ih =>
      refine fun gs h => ih _ ?_
      cases hpart with
      | omitted => exact h
      | inline => exact h
      | @flattened e reference expanded =>
        refine hensure _ _ (ParameterGroup.allEach_append.2 ⟨h, ?_⟩)
        rw [ParameterGroup.AllEach, ParameterGroup.AllEach]
        unfold OperationContext.QueryPart.rootGroup
        rw [ParameterGroup.Each, ParameterGroup.AllEach]
        refine ⟨⟨fun j hj => ?_, trivial⟩, trivial⟩
        rw [← Option.some.inj hj]
        exact known _ (ctx.hierarchy.isReference_iff.1 reference).2
  unfold OperationContext.groupsOf
  exact hall [] (by rw [ParameterGroup.AllEach]; trivial)

/-- **An operation** refers to what is registered, and to the shared parameters that
it brings along. -/
theorem refersOnly_operation {s : Service} {a : Action} {o : PlacedOperation}
    (ho : ctx.OperationOf s a o) (hshared : ∀ e ∈ o.shared, ok (parametersPrefix ++ e.1)) :
    o.operation.toJson.RefersOnly ok := by
  have hkey {key : String} (hkey : key = ctx.requestParameters.session ∨
      key ∈ ctx.requestParameters.attached) :
      (OperationParameter.shared key).toJson.RefersOnly ok := by
    refine refersOnly_reference.2 ?_
    rcases hkey with rfl | hkey
    · exact reg.session
    · exact reg.attached key hkey
  cases ho with
  | @body parameters responses style each answers =>
    refine refersOnly_operationToJson (fun p hp => ?_) ?_
      (refersOnly_responses reg fun t => ctx.forValues_of_responses answers)
    · rcases ctx.mem_bodyParameters each hp with ⟨key, rfl, h⟩ | ⟨b, rfl, hb⟩
      · exact hkey h
      · exact refersOnly_body reg hb
    · show ParameterGroup.AllLead ok []
      rw [ParameterGroup.AllLead]
      trivial
  | @query parts responses style each answers =>
    refine refersOnly_operationToJson (fun p hp => ?_) 
      (ParameterGroup.allLead_iff.2 (allEach_groupsOf
        (fun _ => refersOnly_definitionRef reg.classes) each))
      (refersOnly_responses reg fun t => ctx.forValues_of_responses answers)
    rcases ctx.mem_queryParameters hp with ⟨key, rfl, h⟩ | ⟨part, hpart, hp⟩
    · exact hkey h
    · obtain ⟨q, -, hq⟩ := exists_left_of_forall₂ each hpart
      cases hq with
      | omitted => cases hp
      | inline named literal =>
        rw [List.mem_singleton.1 hp]
        exact refersOnly_inline reg (.inline named literal)
      | flattened =>
        obtain ⟨flat, hflat, rfl⟩ := List.mem_map.1 hp
        exact refersOnly_reference.2 (hshared _ (List.mem_flatMap.2
          ⟨_, hpart, List.mem_map.2 ⟨flat, hflat, rfl⟩⟩))

/-- **The shared parameters of an operation** lead to known classes. -/
theorem refersOnly_shared (hb : ctx.flattening.Built) {s : Service} {a : Action}
    {o : PlacedOperation} (ho : ctx.OperationOf s a o) :
    ∀ e ∈ o.shared, e.2.toJson.RefersOnly ok := by
  cases ho with
  | body => exact fun _ h => nomatch h
  | @query parts responses style each answers =>
    intro e he
    obtain ⟨part, hpart, he⟩ := List.mem_flatMap.1 he
    obtain ⟨q, -, hq⟩ := exists_left_of_forall₂ each hpart
    cases hq with
    | omitted => cases he
    | inline => cases he
    | flattened reference expanded =>
      obtain ⟨flat, hflat, rfl⟩ := List.mem_map.1 he
      have known := (ctx.hierarchy.isReference_iff.1 reference).2
      obtain ⟨p, hp, rfl⟩ := List.mem_map.1 hflat
      exact refersOnly_flatParameter
        (refersOnly_items_of_expand reg.classes rfl hb known expanded p hp)
        (hb.forall_mem_enums (fun _ _ => EnumValues.Plain.union) (fun _ h => h.plain reg.plain) known
          expanded p hp)

end Operations

/-! ## The section of definitions -/

section Definitions

variable {env : Declarations} {defs : DefinitionSet} (hb : env.defineAll.result = .ok defs)
include hb

/-- **The definitions of the classes** refer to known classes. -/
theorem refersOnly_toTable {ok : String → Prop} (hplain : env.enums.Plain)
    (known : ∀ name, env.hierarchy.isKnown name = true → ok (definitionsPrefix ++ name)) :
    (object defs.toTable).RefersOnly ok := by
  refine refersOnly_object.2 fun e he => ?_
  rcases Table.mem_entries_insertAll he with he | he
  · cases he
  · rcases List.mem_cons.1 he with rfl | he
    · exact fieldRefersOnly_fields.2 (refersOnly_fields.2 fun _ h => nomatch h)
    · obtain ⟨d, hd, hjson⟩ := Table.mem_entries_map.1 he
      obtain ⟨-, entries, hentries, hdefs⟩ := Declarations.defineAll_eq_ok hb
      rw [hdefs] at hd
      obtain ⟨c, hc, hname, hdef⟩ := exists_left_of_forall₂ hentries (Table.mem_entries_ofList hd)
      rw [show e = (e.1, d.toJson) from Prod.ext rfl hjson]
      refine fieldRefersOnly_fields.2 (refersOnly_definition known (fun p hp => ?_)
        (fun b hbase => ?_) fun v hv => ?_)
      · exact refersOnly_definedProperty known (Declarations.plain_of_mem_properties hplain hdef hp)
          fun target ht => Declarations.isKnown_target hdef hp ht
      · rw [env.base_eq hdef] at hbase
        exact env.hierarchy.isKnown_of_base hc hbase
      · rw [env.variants_eq hdef] at hv
        rcases env.mem_variants hv with rfl | hv
        · exact env.hierarchy.isKnown_of_mem_names (List.mem_map_of_mem hc)
        · exact env.hierarchy.isKnown_of_mem_names (env.hierarchy.mem_names_of_mem_concrete hv)

end Definitions

/-! ## Documents -/

section Documents

variable {ok : String → Prop}

theorem refersOnly_addOperation {paths : Table Json} (hpaths : (object paths).RefersOnly ok)
    {o : PlacedOperation} (ho : o.operation.toJson.RefersOnly ok) :
    (object (addOperation paths o)).RefersOnly ok := by
  have hfield : FieldRefersOnly ok (o.method, o.operation.toJson) := fieldRefersOnly_fields.2 ho
  refine refersOnly_insert hpaths (fieldRefersOnly_object.2 (refersOnly_insert ?_ hfield))
  split
  · next methods h => exact (refersOnly_object.1 hpaths _ (Table.mem_entries_of_get? h)).1
  · exact refersOnly_object.2 (List.forall_mem_nil _)

theorem refersOnly_addShared {parameters : Table Json}
    (hparameters : (object parameters).RefersOnly ok) {o : PlacedOperation}
    (ho : ∀ e ∈ o.shared, e.2.toJson.RefersOnly ok) :
    (object (addShared parameters o)).RefersOnly ok := by
  refine refersOnly_object.2 fun e he => ?_
  rcases Table.mem_entries_insertAll he with he | he
  · exact refersOnly_object.1 hparameters e he
  · obtain ⟨x, hx, rfl⟩ := List.mem_map.1 he
    exact fieldRefersOnly_fields.2 (ho x hx)

/-- A request-wide parameter refers to nothing. -/
theorem fieldRefersOnly_entry {settings : List RequestSetting} {e : String × Json}
    (he : RequestParameters.EntryOf settings e) : FieldRefersOnly ok e := by
  cases he with
  | session name =>
    unfold RequestParameters.sessionEntry
    simp
  | format =>
    unfold RequestParameters.formatEntry
    simp
  | clientTag =>
    unfold RequestParameters.clientTagEntry
    simp
  | setting =>
    unfold RequestParameters.settingEntry
    simp

/-- What is registered stays, and the shared parameters of every operation are
added. -/
theorem mem_keys_foldl_addShared {operations : List PlacedOperation} {t : Table Json}
    {key : String} : key ∈ (operations.foldl addShared t).keys ↔
      key ∈ t.keys ∨ ∃ o ∈ operations, ∃ e ∈ o.shared, key = e.1 := by
  induction operations generalizing t with
  | nil => exact ⟨Or.inl, fun h => h.elim id fun ⟨_, ho, _⟩ => nomatch ho⟩
  | cons o rest ih =>
    have hadd : key ∈ (addShared t o).keys ↔ key ∈ t.keys ∨ ∃ e ∈ o.shared, key = e.1 := by
      unfold addShared
      rw [Table.mem_keys_insertAll, List.map_map]
      refine or_congr_right ⟨fun h => ?_, fun ⟨e, he, hkey⟩ => ?_⟩
      · obtain ⟨e, he, rfl⟩ := List.mem_map.1 h
        exact ⟨e, he, rfl⟩
      · exact List.mem_map.2 ⟨e, he, hkey.symm⟩
    rw [List.foldl_cons, ih, hadd, or_assoc]
    refine or_congr_right ⟨fun h => ?_, fun ⟨o', ho', h⟩ => ?_⟩
    · rcases h with h | ⟨o', ho', h⟩
      · exact ⟨o, List.mem_cons_self, h⟩
      · exact ⟨o', List.mem_cons_of_mem _ ho', h⟩
    · rcases List.mem_cons.1 ho' with rfl | ho'
      · exact Or.inl h
      · exact Or.inr ⟨o', ho', h⟩

end Documents

/-! ## Compilation -/

section Compilation

variable {config : Config} {schema : Schema} {ctx : OperationContext} {definitions : Table Json}
  {operations : List PlacedOperation}
  (hctx : OperationContext.Of config schema ctx)
  (hdefs : definitionSection config schema.apiVersion ctx.flattening.definitions = .ok definitions)
include hctx hdefs

/-- The section of definitions has every known name, and the envelope if there is
one. -/
theorem mem_keys_definitionSection {name : String}
    (hn : ctx.hierarchy.isKnown name = true ∨
      config.profile = .enveloped ∧ name = envelopeName) : name ∈ definitions.keys := by
  unfold definitionSection at hdefs
  dsimp only at hdefs
  split at hdefs
  · next hprofile =>
    obtain rfl := Except.ok.inj hdefs
    rcases hn with hn | ⟨henveloped, -⟩
    · exact (Declarations.mem_keys_toTable hctx.built).2 hn
    · exact nomatch hprofile.symm.trans henveloped
  · split at hdefs
    · cases hdefs
    · obtain rfl := Except.ok.inj hdefs
      rw [Table.mem_keys_insert]
      exact hn.symm.imp And.right (Declarations.mem_keys_toTable hctx.built).2

theorem refersOnly_definitionSection {ok : String → Prop}
    (known : ∀ name, ctx.hierarchy.isKnown name = true → ok (definitionsPrefix ++ name)) :
    (object definitions).RefersOnly ok := by
  have htable := refersOnly_toTable hctx.built (EnumCatalog.plain_of_ofDecls hctx.enums) known
  unfold definitionSection at hdefs
  dsimp only at hdefs
  split at hdefs
  · obtain rfl := Except.ok.inj hdefs
    exact htable
  · split at hdefs
    · cases hdefs
    · obtain rfl := Except.ok.inj hdefs
      exact refersOnly_insert htable (fieldRefersOnly_fields.2 (refersOnly_envelope _ _))

/-- The assembled document registers what its operations may refer to. -/
theorem registered_assemble : ctx.Registered
    (SwaggerForge.assemble schema ctx definitions operations).HasTarget := by
  have hvalid := RequestParameters.valid_of_ofSettings hctx.requestParameters
  have hkey {key : String} (hkey : key ∈ ctx.requestParameters.entries.map Prod.fst) :
      (SwaggerForge.assemble schema ctx definitions operations).HasTarget
        (parametersPrefix ++ key) := by
    refine Or.inr ⟨key, ?_, rfl⟩
    show key ∈ (operations.foldl addShared _).keys
    rw [mem_keys_foldl_addShared, Table.mem_keys_insertAll]
    exact Or.inl (Or.inr hkey)
  exact {
    classes := fun name hn => Or.inl ⟨name, mem_keys_definitionSection hctx hdefs (Or.inl hn), rfl⟩
    envelope := fun hprofile => Or.inl ⟨envelopeName,
      mem_keys_definitionSection hctx hdefs (Or.inr ⟨hctx.config_eq ▸ hprofile, rfl⟩), rfl⟩
    session := hkey hvalid.session
    attached := fun key h => hkey (hvalid.attached key h)
    bodyProperties := hvalid.bodyProperties
    plain := EnumCatalog.plain_of_ofDecls hctx.enums }

section Sections

variable {ok : String → Prop} (reg : ctx.Registered ok)
  (hops : List.Forall₂ (fun e o => ctx.OperationOf e.1 e.2 o)
    (includedActions config schema.services) operations)
include reg hops

omit hdefs in
/-- Shared parameters refer to what is registered. -/
theorem refersOnly_foldl_addShared :
    (object (operations.foldl addShared
      ((∅ : Table Json).insertAll ctx.requestParameters.entries))).RefersOnly ok := by
  have hvalid := RequestParameters.valid_of_ofSettings hctx.requestParameters
  have hentries : (object ((∅ : Table Json).insertAll ctx.requestParameters.entries)).RefersOnly
      ok := by
    refine refersOnly_object.2 fun e he => ?_
    exact fieldRefersOnly_entry (hvalid.entries e
      ((Table.mem_entries_insertAll he).resolve_left List.not_mem_nil))
  refine List.foldlRecOn (motive := fun t => (object t).RefersOnly ok) operations addShared
    hentries fun t ht o ho => ?_
  obtain ⟨e, -, h⟩ := exists_left_of_forall₂ hops ho
  exact refersOnly_addShared ht (refersOnly_shared reg hctx.built h)

omit hctx hdefs in
/-- Operations refer to what is registered, if what they share is. -/
theorem refersOnly_foldl_addOperation
    (hkeys : ∀ o ∈ operations, ∀ e ∈ o.shared, ok (parametersPrefix ++ e.1)) :
    (object (operations.foldl addOperation ∅)).RefersOnly ok := by
  have hempty : (object ∅).RefersOnly ok := refersOnly_object.2 fun _ h => (nomatch h)
  refine List.foldlRecOn (motive := fun t => (object t).RefersOnly ok) operations addOperation
    hempty fun t ht o ho => ?_
  obtain ⟨e, -, h⟩ := exists_left_of_forall₂ hops ho
  exact refersOnly_addOperation ht (refersOnly_operation reg h (hkeys o ho))

end Sections

/-- **An assembled document** refers only to what it has. -/
theorem refersOnly_assemble (hops : List.Forall₂ (fun e o => ctx.OperationOf e.1 e.2 o)
      (includedActions config schema.services) operations) :
    (SwaggerForge.assemble schema ctx definitions operations).RefersOnly
      (SwaggerForge.assemble schema ctx definitions operations).HasTarget := by
  have reg : ctx.Registered (SwaggerForge.assemble schema ctx definitions operations).HasTarget :=
    registered_assemble hctx hdefs
  have hkeys : ∀ o ∈ operations, ∀ e ∈ o.shared,
      (SwaggerForge.assemble schema ctx definitions operations).HasTarget
        (parametersPrefix ++ e.1) := by
    intro o ho e he
    refine Or.inr ⟨e.1, ?_, rfl⟩
    show e.1 ∈ (operations.foldl addShared _).keys
    rw [mem_keys_foldl_addShared]
    exact Or.inr ⟨o, ho, e, he, rfl⟩
  exact {
    header := refersOnly_header _ _
    parameters := refersOnly_foldl_addShared hctx reg hops
    enums := refersOnly_catalog reg.plain
    definitions := refersOnly_definitionSection hctx hdefs reg.classes
    paths := refersOnly_foldl_addOperation reg hops hkeys
    tags := by
      intro t ht
      obtain ⟨⟨_, _⟩, hmem, rfl⟩ := List.mem_map.1 ht
      obtain ⟨s, -, hs⟩ := List.mem_map.1 (List.mem_mergeSort.1 hmem)
      rw [← (Prod.mk.inj hs).2]
      exact refersOnly_tag s
    errors := by
      intro e he
      obtain ⟨error, -, rfl⟩ := List.mem_map.1 he
      exact refersOnly_error error }

end Compilation

/-- **Compiled documents have no dangling references.** Every reference in the document
that a schema is compiled to leads to one of its definitions or shared parameters. -/
theorem dangling_compile {config : Config} {schema : Schema} {d : Document}
    (h : (compile config schema).result = .ok d) :
    d.dangling = [] ∧ ∀ target ∈ d.toJson.references,
      (∃ name ∈ d.definitions.keys, target = definitionsPrefix ++ name) ∨
        ∃ key ∈ d.parameters.keys, target = parametersPrefix ++ key := by
  obtain ⟨ctx, definitions, operations, hctx, hdefs, hops, rfl⟩ := compile_eq_ok h
  have hrefers :=
    ((refersOnly_assemble (OperationContext.of_ofSchema hctx) hdefs hops).finish config).toJson
  have hall : ∀ target ∈ ((SwaggerForge.assemble schema ctx definitions operations).finish
      config).toJson.references,
      ((SwaggerForge.assemble schema ctx definitions operations).finish config).HasTarget
        target := by
    intro target ht
    unfold Document.HasTarget
    rw [Document.keys_definitions_finish, Document.keys_parameters_finish]
    exact hrefers target ht
  refine ⟨List.filter_eq_nil_iff.2 fun target ht => ?_, hall⟩
  rw [(hall target ht).resolves]
  decide

theorem dangling_compile_petSchema : ∃ d, (compile petConfig petSchema).result = .ok d ∧
    d.dangling = [] ∧ ∀ target ∈ d.toJson.references,
      (∃ name ∈ d.definitions.keys, target = definitionsPrefix ++ name) ∨
        ∃ key ∈ d.parameters.keys, target = parametersPrefix ++ key := by
  obtain ⟨d, hd⟩ := compile_petSchema
  exact ⟨d, hd, dangling_compile hd⟩

end SwaggerForge
