import SwaggerForge.Proofs.Sharing

/-!
# Which schemas have uploads in forms only

Whether a compiled document has uploads in forms only is decided by its shared
parameters. They come from two sides: the settings of all requests, and the values
inside the classes that actions take in query style. Both may be uploads, and both start
out in the query; the elements of a flattened array may be uploads as well.

So the document is right exactly when no shared parameter is an array of uploads and each
that is an upload is listed by an action in query style that no later one replaces
(`OperationContext.SendsUploads`). A schema whose request settings are no uploads, whose
classes have no arrays of uploads and whose actions have paths of their own always
compiles to such a document (`onlyFormFiles_of_distinct_paths`).
-/

namespace SwaggerForge

open Json

/-! ## The elements of flattened parameters -/

namespace Flattening

variable (f : Flattening)

/-- **What the elements of a flattened parameter are**: objects of a class and those
below it, or of the primitive type that a declared array has. -/
inductive ElementsOf : Option Json → Prop
  | none : ElementsOf none
  | objects (target : String) : ElementsOf (some (f.elementSchema target))
  | values {c : ClassDecl} {p : Property} {item : Primitive} (declared : c ∈ f.hierarchy.classes)
      (mem : p ∈ c.properties) (array : Primitive.ofName? p.type = some .array)
      (named : p.arrayType.bind Primitive.ofName? = some item) :
      ElementsOf (some item.itemSchema)

variable {f}

theorem elementsOf_input (hb : f.Built) {member : String} {p : DefinedProperty}
    (hp : p ∈ f.inputsOf member) {orderBy : Option EnumValues} {path : String}
    {condition : Option ShowCondition} {leaf : FlatParameter}
    (hin : f.input orderBy path condition p = .value leaf) : f.ElementsOf leaf.items := by
  unfold input at hin
  cases hshape : p.shape with
  | reference target =>
    rw [hshape] at hin
    cases hin
  | referenceArray target =>
    rw [hshape] at hin
    obtain rfl := FlatInput.value.inj hin
    exact .objects target
  | value type items default enum =>
    rw [hshape] at hin
    obtain rfl := FlatInput.value.inj hin
    cases items with
    | none => exact .none
    | some item =>
      obtain ⟨c, hc, d, hdef, hmem⟩ := hb.exists_define_of_mem_inputsOf hp
      have hitem : p.shape.items? = some item := by
        rw [hshape]
        rfl
      obtain ⟨q, hq, harray, hnamed⟩ := Declarations.exists_array_of_items? hdef hmem hitem
      exact .values hc hq harray hnamed

/-- **The elements of the parameters of an expansion.** -/
theorem elementsOf_of_expand (hb : f.Built) {name : String}
    (hk : f.hierarchy.isKnown name = true) {e : Expansion} (he : f.expand name = .ok e) :
    ∀ p ∈ e.parameters, f.ElementsOf p.items :=
  hb.forall_mem_parameters (fun _ _ hp _ => hp)
    (fun _ _ hp _ _ _ hin => elementsOf_input hb hp hin) (fun _ _ _ => .none) hk he

/-- **Elements are free of uploads** unless they are uploads themselves. -/
theorem ElementsOf.fileFree_iff {items : Option Json} (h : f.ElementsOf items) :
    (∀ x, items = some x → x.FileFree) ↔ items ≠ some Primitive.file.itemSchema := by
  constructor
  · rintro hfree rfl
    exact hfree _ rfl _ (.self _) rfl
  · rintro hne x rfl
    cases h with
    | objects target =>
      refine fileFree_fields (List.forall_mem_cons.2 ⟨fieldFileFree_type (by decide), ?_⟩)
      exact List.forall_mem_singleton.2 (fieldFileFree_of_not_mem (by decide) _)
    | @values c p item =>
      have hitem : item ≠ .file := fun heq => hne (by rw [heq])
      exact fileFree_fields (List.forall_mem_singleton.2
        (fieldFileFree_type fun htype => hitem (Primitive.eq_file_of_toJson htype)))

end Flattening

/-! ## Shared parameters -/

/-- A field that may be left out has no other name. -/
theorem Json.lookup_optional_of_ne {key k : String} (h : key ≠ k) (value : Option Json) :
    (optional k value).lookup key = none := by
  have hnames : ∀ e ∈ optional k value, e.1 ∈ [k] := by
    rw [forall_mem_optional]
    exact fun _ _ => List.mem_singleton.2 rfl
  exact field?_fields_eq_none hnames fun hkey => h (List.mem_singleton.1 hkey)

theorem FlatParameter.field?_items (p : FlatParameter) : p.toJson.field? "items" = p.items := by
  have hitems : (optional "items" p.items).lookup "items" = p.items := by
    cases p.items <;> rfl
  have henum (e : EnumValues) : e.fields.lookup "items" = none :=
    field?_fields_eq_none e.mem_constraintKeys (by decide)
  show List.lookup "items" (_ ++ _ ++ _ ++ _ ++ _ ++ _) = _
  rw [List.lookup_append, List.lookup_append, List.lookup_append, List.lookup_append,
    List.lookup_append, hitems, lookup_optional_of_ne (by decide),
    lookup_optional_of_ne (by decide), lookup_optional_of_ne (by decide)]
  split
  · cases p.items <;> rfl
  · rw [henum]
    cases p.items <;> rfl

/-- A flattened parameter has no other fields. -/
theorem FlatParameter.field?_toJson_eq_none (p : FlatParameter) {key : String}
    (hkey : key ∉ ["name", "in", "type", "items", "description", "x-group", "x-showCondition"]
      ++ EnumValues.fieldNames) : p.toJson.field? key = none := by
  refine field?_fields_eq_none ?_ hkey
  simp only [List.forall_mem_append, List.forall_mem_cons, forall_mem_optional]
  refine ⟨⟨⟨⟨⟨⟨by decide, by decide, by decide, List.forall_mem_nil _⟩, fun _ _ => by simp⟩, ?_⟩,
    fun _ _ => by simp⟩, fun _ _ => by simp⟩, fun _ _ => by simp⟩
  split
  · exact List.forall_mem_nil _
  · next e _ => exact fun f hf => List.mem_append_right _ (e.mem_fieldNames f hf)

/-- **A flattened parameter travels in the query.** -/
theorem FlatParameter.inQuery_toJson (p : FlatParameter) : p.toJson.InQuery :=
  ⟨rfl, p.field?_toJson_eq_none (by decide), p.field?_toJson_eq_none (by decide)⟩

/-- **A request-wide parameter travels in the query**, and is no array with elements. -/
theorem RequestParameters.EntryOf.inQuery {settings : List RequestSetting} {e : String × Json}
    (h : EntryOf settings e) : e.2.InQuery ∧ e.2.field? "items" = none := by
  cases h <;> exact ⟨⟨rfl, rfl, rfl⟩, rfl⟩

namespace OperationContext

variable {ctx : OperationContext} {actions : List (Service × Action)}

/-- **A shared parameter** is one of all requests or one that an action shares. -/
theorem mem_sharedParameters {e : String × Json}
    (h : e ∈ (ctx.sharedParameters actions).entries) :
    e ∈ ctx.requestParameters.entries ∨
      ∃ x ∈ actions, ∃ flat, (e.1, flat) ∈ ctx.sharedBy x.2 ∧ e.2 = flat.toJson := by
  rcases List.mem_append.1 (Table.mem_entries_ofList h) with h | h
  · exact Or.inl h
  · obtain ⟨x, hx, h⟩ := List.mem_flatMap.1 h
    obtain ⟨⟨key, flat⟩, hflat, rfl⟩ := List.mem_map.1 h
    exact Or.inr ⟨x, hx, flat, hflat, rfl⟩

/-- **What a parameter is flattened to**: the values inside its class, each under its key. -/
theorem mem_flattened {p : Parameter} {key : String} {flat : FlatParameter} :
    (key, flat) ∈ ctx.flattened p ↔
      ctx.hierarchy.isReference p.type = true ∧ ∃ e, ctx.flattening.expand p.type = .ok e ∧
        ∃ q ∈ e.parameters, flat = q.qualified p.name ∧ key = QueryPart.sharedKey p flat := by
  unfold flattened
  split
  · next hreference =>
    rw [and_iff_right hreference]
    cases ctx.flattening.expand p.type with
    | error e => exact iff_of_false List.not_mem_nil fun ⟨_, h, _⟩ => nomatch h
    | ok e =>
      simp only [List.map_map, List.mem_map, Function.comp_apply, Prod.mk.injEq,
        Except.ok.injEq, exists_eq_left']
      refine exists_congr fun q => and_congr_right fun _ => ?_
      constructor
      · rintro ⟨rfl, rfl⟩
        exact ⟨rfl, rfl⟩
      · rintro ⟨rfl, rfl⟩
        exact ⟨rfl, rfl⟩
  · next hnot => exact iff_of_false List.not_mem_nil fun h => hnot h.1

theorem mem_sharedBy_iff_flattened {a : Action} {e : String × FlatParameter} :
    e ∈ ctx.sharedBy a ↔ ctx.styleOf a = .query ∧ ∃ p ∈ a.parameters, e ∈ ctx.flattened p := by
  unfold sharedBy
  cases ctx.styleOf a with
  | body => exact iff_of_false List.not_mem_nil fun h => nomatch h.1
  | query =>
    show _ ∈ a.parameters.flatMap ctx.flattened ↔ _
    rw [List.mem_flatMap, and_iff_right rfl]

/-- **What an action shares**: in query style, what its parameters of class types are
flattened to, each under its key. -/
theorem mem_sharedBy {a : Action} {key : String} {flat : FlatParameter} :
    (key, flat) ∈ ctx.sharedBy a ↔ ctx.styleOf a = .query ∧ ∃ p ∈ a.parameters,
      ctx.hierarchy.isReference p.type = true ∧ ∃ e, ctx.flattening.expand p.type = .ok e ∧
        ∃ q ∈ e.parameters, flat = q.qualified p.name ∧ key = QueryPart.sharedKey p flat := by
  rw [mem_sharedBy_iff_flattened]
  simp only [mem_flattened]

/-- What an action in query style shares is flattened from a class. -/
theorem exists_expand_of_mem_sharedBy {a : Action} {key : String} {flat : FlatParameter}
    (h : (key, flat) ∈ ctx.sharedBy a) :
    ctx.styleOf a = .query ∧ ∃ p ∈ a.parameters, ctx.hierarchy.isKnown p.type = true ∧
      ∃ e, ctx.flattening.expand p.type = .ok e ∧
        ∃ q ∈ e.parameters, flat = q.qualified p.name := by
  obtain ⟨hstyle, p, hp, hreference, e, he, q, hq, hflat, -⟩ := mem_sharedBy.1 h
  exact ⟨hstyle, p, hp, (ctx.hierarchy.isReference_iff.1 hreference).2, e, he, q, hq, hflat⟩

theorem elementsOf_of_mem_sharedBy (hb : ctx.flattening.Built) {a : Action} {key : String}
    {flat : FlatParameter} (h : (key, flat) ∈ ctx.sharedBy a) :
    ctx.flattening.ElementsOf flat.items := by
  obtain ⟨-, p, -, hk, e, he, q, hq, rfl⟩ := exists_expand_of_mem_sharedBy h
  exact Flattening.elementsOf_of_expand hb hk he q hq

/-- **The shape of shared parameters**: they travel in the query, and their elements are
described like those of a flattened parameter. -/
theorem inQuery_and_elementsOf {config : Config} {schema : Schema}
    (hctx : OperationContext.Of config schema ctx) {e : String × Json}
    (h : e ∈ (ctx.sharedParameters actions).entries) :
    e.2.InQuery ∧ ctx.flattening.ElementsOf (e.2.field? "items") := by
  rcases mem_sharedParameters h with h | ⟨x, -, flat, hflat, hjson⟩
  · have hentry := (RequestParameters.valid_of_ofSettings hctx.requestParameters).entries e h
    rw [hentry.inQuery.2]
    exact ⟨hentry.inQuery.1, .none⟩
  · rw [hjson, flat.field?_items]
    exact ⟨flat.inQuery_toJson, elementsOf_of_mem_sharedBy hctx.built hflat⟩

/-- **When the uploads of a schema are sent in forms**: no shared parameter is an array of
uploads, and each that is an upload is listed by an action that stands. -/
structure SendsUploads (ctx : OperationContext) (actions : List (Service × Action)) : Prop where
  elements : ∀ e ∈ (ctx.sharedParameters actions).entries,
    e.2.field? "items" ≠ some Primitive.file.itemSchema
  listed : ∀ e ∈ (ctx.sharedParameters actions).entries, e.2.field? "type" = some fileType →
    ∃ x ∈ actions, ctx.Stands actions x ∧ e.1 ∈ ctx.listedKeys x.2

end OperationContext

/-! ## Compiled documents -/

/-- **When the document made of some operations has uploads in forms only.** -/
theorem onlyFormFiles_assemble_iff {config : Config} {schema : Schema} {ctx : OperationContext}
    {definitions : Table Json} {actions : List (Service × Action)}
    {operations : List PlacedOperation} (hctx : OperationContext.Of config schema ctx)
    (hops : List.Forall₂ (fun e o => ctx.OperationOf e.1 e.2 o) actions operations) :
    ((SwaggerForge.assemble schema ctx definitions operations).finish config).OnlyFormFiles ↔
      ctx.SendsUploads actions := by
  have hparameters :
      (SwaggerForge.assemble schema ctx definitions operations).parameters
        = ctx.sharedParameters actions := parameters_assemble hops
  have hlisted : ∀ o ∈ operationsOf
      (SwaggerForge.assemble schema ctx definitions operations).paths,
      ∀ p ∈ Upload.parametersOf o, p.FormFilesOnly := by
    intro o ho p hp
    obtain ⟨placed, hplaced, rfl⟩ := exists_of_mem_operationsOf ho
    obtain ⟨e, -, hof⟩ := exists_left_of_forall₂ hops hplaced
    rw [Operation.parametersOf_toJson] at hp
    obtain ⟨q, hq, rfl⟩ := List.mem_map.1 hp
    exact OperationContext.formFilesOnly_parameters hof q hq
  -- what is left is to read the condition on shared parameters off the schema
  rw [Document.onlyFormFiles_finish_iff ?_ hlisted ?_]
  · rw [hparameters]
    constructor
    · intro h
      refine ⟨fun e he => ?_, fun e he htype => ?_⟩
      · have helements := (OperationContext.inQuery_and_elementsOf hctx he).2
        exact helements.fileFree_iff.1 (h e he).1
      · exact (mem_keysUnderGet_assemble hops).1 ((h e he).2 htype)
    · intro h e he
      have helements := (OperationContext.inQuery_and_elementsOf hctx he).2
      exact ⟨helements.fileFree_iff.2 (h.elements e he),
        fun htype => (mem_keysUnderGet_assemble hops).2 (h.listed e he htype)⟩
  · rw [hparameters]
    exact Table.nodup_keys_ofList _
  · rw [hparameters]
    exact fun e he => (OperationContext.inQuery_and_elementsOf hctx he).1

/-- **When a compiled document has uploads in forms only**: exactly when no shared
parameter is an array of uploads, and each that is an upload is listed by an action in
query style that no later one replaces. -/
theorem onlyFormFiles_compile_iff {config : Config} {schema : Schema} {ctx : OperationContext}
    {d : Document} (hctx : (OperationContext.ofSchema config schema).result = .ok ctx)
    (h : (compile config schema).result = .ok d) :
    d.OnlyFormFiles ↔ ctx.SendsUploads (includedActions config schema.services) := by
  obtain ⟨ctx', definitions, operations, hctx', -, hops, rfl⟩ := compile_eq_ok h
  obtain rfl : ctx' = ctx := Except.ok.inj (hctx'.symm.trans hctx)
  exact onlyFormFiles_assemble_iff (OperationContext.of_ofSchema hctx) hops

/-- The schema of an API whose requests carry a picture, and whose only action has no
parameters. -/
def avatarSchema : Schema where
  apiVersion := "1.0"
  services := [{ id := "system", name := "system", actions := [{ name := "ping" }] }]
  requestSettings := [{ name := "avatar", type := "file" }]

/-- In body style the picture stays in the query. -/
theorem not_onlyFormFiles_avatarSchema : ∃ ctx d,
    (OperationContext.ofSchema {} avatarSchema).result = .ok ctx ∧
    (compile {} avatarSchema).result = .ok d ∧
    (d.OnlyFormFiles ↔ ctx.SendsUploads (includedActions {} avatarSchema.services)) ∧
    ¬ d.OnlyFormFiles := by
  have hcontext : ∃ ctx, (OperationContext.ofSchema {} avatarSchema).result = .ok ctx ∧
      ctx.config.style = .body ∧
      ("avatar", RequestParameters.settingEntry { name := "avatar", type := "file" } .file)
        ∈ (ctx.sharedParameters (includedActions {} avatarSchema.services)).entries :=
    ⟨_, rfl, rfl, by decide⟩
  have hdocument : ∃ d, (compile {} avatarSchema).result = .ok d := ⟨_, rfl⟩
  obtain ⟨ctx, hctx, hstyle, havatar⟩ := hcontext
  obtain ⟨d, hd⟩ := hdocument
  refine ⟨ctx, d, hctx, hd, onlyFormFiles_compile_iff hctx hd, fun h => ?_⟩
  obtain ⟨x, hx, hstands, -⟩ := ((onlyFormFiles_compile_iff hctx hd).1 h).listed _ havatar rfl
  have hquery := (OperationContext.mem_of_standing? hstands).2.2
  rw [List.mem_singleton.1 hx] at hquery
  have hbody : ctx.styleOf { name := "ping" } = .body := hstyle
  exact nomatch hbody.symm.trans hquery

/-! ## Schemas that are safe -/

/-- Only a declared upload is one that all requests carry. -/
theorem RequestParameters.EntryOf.exists_setting {settings : List RequestSetting}
    {e : String × Json} (h : EntryOf settings e) (htype : e.2.field? "type" = some fileType) :
    ∃ s ∈ settings, s.type = "file" := by
  have hstring : ¬ some (Json.string "string") = some fileType := by decide
  have hinteger : ¬ some (Json.string "integer") = some fileType := by decide
  cases h with
  | session => exact absurd htype hstring
  | format => exact absurd htype hinteger
  | clientTag => exact absurd htype hstring
  | @setting s type declared named =>
    obtain rfl : type = .file := Primitive.eq_file_of_toJson (Option.some.inj htype)
    exact ⟨s, declared, Primitive.ofName?_eq_file named⟩

/-- Only a declared array of uploads is flattened to one. -/
theorem Flattening.ElementsOf.exists_array {f : Flattening}
    (h : f.ElementsOf (some Primitive.file.itemSchema)) :
    ∃ c ∈ f.hierarchy.classes, ∃ p ∈ c.properties,
      p.type = "array" ∧ p.arrayType = some "file" := by
  generalize hitems : some Primitive.file.itemSchema = items at h
  cases h with
  | none => cases hitems
  | objects target =>
    have htype : some fileType = some Primitive.object.toJson :=
      congrArg (·.field? "type") (Option.some.inj hitems)
    exact absurd htype (by decide)
  | @values c p item declared mem array named =>
    have htype : some fileType = some item.toJson :=
      congrArg (·.field? "type") (Option.some.inj hitems)
    obtain rfl : item = .file := Primitive.eq_file_of_toJson (Option.some.inj htype).symm
    obtain ⟨name, hname, hfile⟩ := Option.bind_eq_some_iff.1 named
    rw [Primitive.ofName?_eq_file hfile] at hname
    exact ⟨c, declared, p, mem, Primitive.ofName?_eq_array array, hname⟩

/-- **With paths of their own, all actions in query style stand.** -/
theorem OperationContext.stands_of_nodup {ctx : OperationContext}
    {actions : List (Service × Action)}
    (hpaths : (actions.map fun e => actionPath e.1.id e.2.name).Nodup) {e : Service × Action}
    (he : e ∈ actions) (hstyle : ctx.styleOf e.2 = .query) : ctx.Stands actions e := by
  unfold Stands standing?
  cases hfind : actions.reverse.find? (fun x =>
      actionPath x.1.id x.2.name == actionPath e.1.id e.2.name && ctx.styleOf x.2 == .query) with
  | none =>
    have hnot := List.find?_eq_none.1 hfind e (List.mem_reverse.2 he)
    rw [Bool.and_eq_true_iff, beq_iff_eq, beq_iff_eq] at hnot
    exact absurd ⟨rfl, hstyle⟩ hnot
  | some x =>
    obtain ⟨hx, hpath, -⟩ := mem_of_standing? hfind
    rw [List.inj_on_of_nodup_map hpaths hx he hpath]

/-- **A schema without uploads in its settings and in its arrays, whose actions have paths
of their own**, compiles to a document with uploads in forms only. -/
theorem onlyFormFiles_of_distinct_paths {config : Config} {schema : Schema} {d : Document}
    (h : (compile config schema).result = .ok d)
    (hsettings : ∀ s ∈ schema.requestSettings, s.type ≠ "file")
    (harrays : ∀ c ∈ schema.classes, ∀ p ∈ c.properties,
      p.type = "array" → p.arrayType ≠ some "file")
    (hpaths : ((includedActions config schema.services).map fun e =>
      actionPath e.1.id e.2.name).Nodup) : d.OnlyFormFiles := by
  obtain ⟨ctx, definitions, operations, hofSchema, -, hops, rfl⟩ := compile_eq_ok h
  have hctx := OperationContext.of_ofSchema hofSchema
  refine (onlyFormFiles_assemble_iff hctx hops).2 ⟨fun e he hitems => ?_, fun e he htype => ?_⟩
  · have helements := (OperationContext.inQuery_and_elementsOf hctx he).2
    rw [hitems] at helements
    obtain ⟨c, hc, p, hp, harray, hfile⟩ := helements.exists_array
    have hclasses : ctx.flattening.hierarchy.classes = schema.classes :=
      (Hierarchy.root_and_classes_of_ofClasses hctx.hierarchy).2
    exact harrays c (hclasses ▸ hc) p hp harray hfile
  · rcases OperationContext.mem_sharedParameters he with hentry | ⟨x, hx, flat, hflat, -⟩
    · have hvalid := RequestParameters.valid_of_ofSettings hctx.requestParameters
      obtain ⟨s, hs, hfile⟩ := (hvalid.entries e hentry).exists_setting htype
      exact absurd hfile (hsettings s hs)
    · obtain ⟨hstyle, -⟩ := OperationContext.exists_expand_of_mem_sharedBy hflat
      refine ⟨x, hx, OperationContext.stands_of_nodup hpaths hx hstyle, ?_⟩
      exact List.mem_append_right _ (List.mem_map.2 ⟨(e.1, flat), hflat, rfl⟩)

end SwaggerForge
