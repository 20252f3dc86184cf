import SwaggerForge.Document.OfSchema
import SwaggerForge.Proofs.Cache
import SwaggerForge.Proofs.Walk

/-!
# What operations are made of

A successful compilation, taken apart. Each definition here says in full what one
step of it can yield – the schema of a named type, a parameter in a query or in a
body, an operation – and the lemma beside it that the step yields nothing else. At
the top, `compile_eq_ok` says what a compilation as a whole succeeds with: the
context made from the schema, one operation for each action that is included, and
the document that is assembled from them and finished.

The cache of expansions does not show: an operation is what it would be if every
class were flattened anew.
-/

namespace SwaggerForge

/-! ## Types in places for values -/

/-- **A type in a place for values**: it refers only to known classes, and it is no
upload. -/
def TypeSchema.ForValues (h : Hierarchy) : TypeSchema → Prop
  | .reference target => h.isKnown target = true
  | .value type => type ≠ .file
  | .arrayOf items => items.ForValues h

theorem Primitive.valueType_ne_file (type : Primitive) : type.valueType ≠ .file := by
  cases type <;> exact fun h => nomatch h

namespace OperationContext

variable (ctx : OperationContext)

/-- The hierarchy of the classes. -/
abbrev hierarchy : Hierarchy := ctx.declarations.hierarchy

theorem forValues_elementSchema {type context : String} {t : TypeSchema}
    (h : ctx.elementSchema type context = .ok t) : t.ForValues ctx.hierarchy := by
  unfold elementSchema at h
  obtain ⟨meant, hmeant, h⟩ := bind_eq_ok.1 h
  cases meant with
  | reference target =>
    obtain rfl := pure_eq_ok.1 h
    exact ctx.hierarchy.isKnown_of_resolve hmeant
  | primitive ty =>
    obtain rfl := pure_eq_ok.1 h
    exact ty.valueType_ne_file

theorem forValues_itemsSchema {type : Primitive} {arrayType : Option String} {context : String}
    {t : TypeSchema} (h : ctx.itemsSchema type arrayType context = .ok (some t)) :
    t.ForValues ctx.hierarchy := by
  unfold itemsSchema at h
  split at h
  · obtain ⟨t', ht', heq⟩ := map_eq_ok.1 h
    obtain rfl := Option.some.inj heq
    exact ctx.forValues_elementSchema ht'
  · cases h

/-- **What an action returns** is described by a type in a place for values. -/
theorem forValues_resultSchema {r : ResultType} {context : String} {t : TypeSchema}
    (h : ctx.resultSchema r context = .ok t) : t.ForValues ctx.hierarchy := by
  unfold resultSchema at h
  obtain ⟨meant, hmeant, h⟩ := bind_eq_ok.1 h
  cases meant with
  | reference target =>
    obtain rfl := pure_eq_ok.1 h
    exact ctx.hierarchy.isKnown_of_resolve hmeant
  | primitive ty =>
    obtain ⟨items, hitems, h⟩ := bind_eq_ok.1 h
    cases items with
    | some items =>
      obtain rfl := pure_eq_ok.1 h
      show items.ForValues ctx.hierarchy
      exact ctx.forValues_itemsSchema hitems
    | none =>
      obtain rfl := pure_eq_ok.1 h
      exact ty.valueType_ne_file

theorem forValues_of_responses {s : Service} {a : Action} {r : Responses}
    (h : (ctx.responses s a).result = .ok r) {t : TypeSchema} (ht : r.success = some t) :
    t.ForValues ctx.hierarchy := by
  unfold responses at h
  obtain ⟨success, hsuccess, h⟩ := Report.result_bind_eq_ok.1 h
  obtain ⟨lines, -, h⟩ := Report.result_bind_eq_ok.1 h
  obtain rfl := Except.ok.inj h
  obtain rfl : success = some t := ht
  change ctx.successSchema a _ = .ok (some t) at hsuccess
  unfold successSchema at hsuccess
  split at hsuccess
  · cases hsuccess
  · split at hsuccess
    · cases hsuccess
    · obtain ⟨t', ht', heq⟩ := map_eq_ok.1 hsuccess
      obtain rfl := Option.some.inj heq
      exact ctx.forValues_resultSchema ht'

/-! ## Parameters -/

/-- **The default and the allowed values of a parameter**: its literal must be one of
its type, and its enumeration may be missing. -/
theorem constraints_eq_ok {p : Parameter} {type : Primitive} {context : String}
    {default : Option Json} {enum : Option EnumValues} :
    (ctx.constraints p type context).result = .ok (default, enum) ↔
      type.parseDefault p.default context = .ok default ∧
        enum = p.enumType.bind ctx.declarations.enums.values? := by
  unfold constraints
  rw [Report.result_bind_eq_ok]
  constructor
  · rintro ⟨d, hd, h⟩
    obtain ⟨e, he, h⟩ := Report.result_bind_eq_ok.1 h
    rw [Declarations.result_enumValues] at he
    obtain rfl := Except.ok.inj he
    obtain ⟨rfl, rfl⟩ := Prod.mk.inj (Except.ok.inj h)
    exact ⟨hd, rfl⟩
  · rintro ⟨hd, rfl⟩
    exact ⟨default, hd, Report.result_bind_eq_ok.2
      ⟨_, ctx.declarations.result_enumValues _ _, rfl⟩⟩

/-- **What a parameter becomes in a body.** -/
inductive BodyPropertyOf (a : Action) (p : Parameter) : BodyProperty → Prop
  | reference (known : ctx.hierarchy.isKnown p.type = true) :
      BodyPropertyOf a p (.reference p.type)
  | value {type : Primitive} {items : Option TypeSchema} {default : Option Json}
      (named : Primitive.ofName? p.type = some type)
      (elements : ctx.itemsSchema type p.arrayType (parameterContext a p) = .ok items)
      (literal : type.parseDefault p.default (parameterContext a p) = .ok default) :
      BodyPropertyOf a p (.value {
        type
        default
        enum := p.enumType.bind ctx.declarations.enums.values?
        description := cleanDescription p.description } items)

theorem bodyPropertyOf_of_bodyProperty {a : Action} {p : Parameter} {q : BodyProperty}
    (h : (ctx.bodyProperty a p).result = .ok q) : ctx.BodyPropertyOf a p q := by
  unfold bodyProperty at h
  obtain ⟨meant, hmeant, h⟩ := Report.result_bind_eq_ok.1 h
  rw [Report.result_liftM] at hmeant
  cases meant with
  | reference target =>
    obtain rfl := ctx.hierarchy.eq_of_resolve hmeant
    obtain rfl := Except.ok.inj h
    exact .reference (ctx.hierarchy.isKnown_of_resolve hmeant)
  | primitive type =>
    obtain ⟨items, hitems, h⟩ := Report.result_bind_eq_ok.1 h
    obtain ⟨⟨default, enum⟩, hcons, h⟩ := Report.result_bind_eq_ok.1 h
    obtain ⟨hdefault, rfl⟩ := ctx.constraints_eq_ok.1 hcons
    obtain rfl := Except.ok.inj h
    exact .value (ctx.hierarchy.ofName?_of_resolve hmeant) hitems hdefault

/-- **What a parameter becomes in a query.** -/
inductive QueryPartOf (a : Action) (p : Parameter) : QueryPart → Prop
  | flattened {e : Expansion} (reference : ctx.hierarchy.isReference p.type = true)
      (expanded : ctx.flattening.expand p.type = .ok e) :
      QueryPartOf a p (.flattened p (e.parameters.map (FlatParameter.qualified p.name)))
  | omitted (named : Primitive.ofName? p.type = some .array) : QueryPartOf a p .omitted
  | inline {type : Primitive} {default : Option Json}
      (named : Primitive.ofName? p.type = some type)
      (literal : type.parseDefault p.default (parameterContext a p) = .ok default) :
      QueryPartOf a p (.inline {
        name := p.name
        required := !p.optional
        value := {
          type
          default
          enum := p.enumType.bind ctx.declarations.enums.values?
          description := inlineDescription p (p.enumType.bind ctx.declarations.enums.values?) } })

theorem yields_queryPart (a : Action) (p : Parameter) :
    Cached.Yields ctx.flattening (ctx.queryPart a p) (ctx.QueryPartOf a p) := by
  unfold queryPart
  refine (Cached.yields_liftCheck _).bind fun meant hmeant => ?_
  split
  · next target =>
    obtain rfl := ctx.hierarchy.eq_of_resolve hmeant
    exact (Cached.yields_expansion _).bind fun e he =>
      Cached.yields_pure (.flattened (ctx.hierarchy.isReference_of_resolve hmeant) he)
  · exact Cached.yields_pure (.omitted (ctx.hierarchy.ofName?_of_resolve hmeant))
  · next type _ =>
    refine (Cached.yields_liftReport _).bind fun q hq => Cached.yields_pure ?_
    unfold inlineParameter at hq
    obtain ⟨⟨default, enum⟩, hcons, hq⟩ := Report.result_bind_eq_ok.1 hq
    obtain ⟨hdefault, rfl⟩ := ctx.constraints_eq_ok.1 hcons
    obtain rfl := Except.ok.inj hq
    exact .inline (ctx.hierarchy.ofName?_of_resolve hmeant) hdefault

/-- **The properties that every body has** come on top of those of the parameters. -/
theorem mem_entries_addRequestProperties {extra : List (String × String)}
    {t : Table BodyProperty} {e : String × BodyProperty}
    (h : e ∈ (addRequestProperties extra t).entries) :
    e ∈ t.entries ∨ ∃ x ∈ extra, e = (x.1, .reference x.2) := by
  unfold addRequestProperties at h
  induction extra generalizing t with
  | nil => exact Or.inl h
  | cons x rest ih =>
    rw [List.foldl_cons] at h
    rcases ih h with ht | ⟨y, hy, he⟩
    · split at ht
      · exact Or.inl ht
      · rcases Table.mem_entries_insert ht with rfl | ht
        · exact Or.inr ⟨x, List.mem_cons_self, rfl⟩
        · exact Or.inl ht
    · exact Or.inr ⟨y, List.mem_cons_of_mem _ hy, he⟩

/-- **What the parameters of an action become in a body**: one property for each, and
those that every body has. -/
inductive BodyOf (a : Action) : Body → Prop
  | mk {properties : List (String × BodyProperty)}
      (each : List.Forall₂ (fun p e => e.1 = p.name ∧ ctx.BodyPropertyOf a p e.2)
        a.parameters properties) :
      BodyOf a {
        extending := if ctx.config.profile = .enveloped then some envelopeName else none
        properties := addRequestProperties ctx.requestParameters.bodyProperties
          (Table.ofList properties)
        required := requiredNames a }

theorem bodyOf_of_body {a : Action} {b : Body} (h : (ctx.body a).result = .ok b) :
    ctx.BodyOf a b := by
  unfold body at h
  obtain ⟨properties, hprops, h⟩ := Report.result_bind_eq_ok.1 h
  obtain rfl := Except.ok.inj h
  refine .mk ((Report.result_mapM_eq_ok.1 hprops).imp fun p e he => ?_)
  obtain ⟨q, hq, he⟩ := Report.result_bind_eq_ok.1 he
  obtain rfl := Except.ok.inj he
  exact ⟨rfl, ctx.bodyPropertyOf_of_bodyProperty hq⟩

/-! ## Operations -/

theorem mem_sessionParameter {a : Action} {p : OperationParameter}
    (hp : p ∈ ctx.sessionParameter a) : ∃ key, p = .shared key ∧
      (key = ctx.requestParameters.session ∨ key ∈ ctx.requestParameters.attached) := by
  unfold sessionParameter at hp
  split at hp
  · exact ⟨_, List.mem_singleton.1 hp, Or.inl rfl⟩
  · cases hp

theorem mem_attachedParameters {p : OperationParameter} (hp : p ∈ ctx.attachedParameters) :
    ∃ key, p = .shared key ∧
      (key = ctx.requestParameters.session ∨ key ∈ ctx.requestParameters.attached) := by
  obtain ⟨key, hkey, rfl⟩ := List.mem_map.1 hp
  exact ⟨key, rfl, Or.inr hkey⟩

/-- In front of the body there are shared parameters. -/
theorem mem_leadingParameters {a : Action} {p : OperationParameter}
    (hp : p ∈ (if ctx.config.profile = .enveloped then [] else ctx.sessionParameter a)
      ++ ctx.attachedParameters) : ∃ key, p = .shared key ∧
        (key = ctx.requestParameters.session ∨ key ∈ ctx.requestParameters.attached) := by
  rcases List.mem_append.1 hp with hsession | hattached
  · split at hsession
    · cases hsession
    · exact ctx.mem_sessionParameter hsession
  · exact ctx.mem_attachedParameters hattached

/-- **The parameters of an operation in body style**: shared ones, and at most a
body. -/
theorem mem_bodyParameters {a : Action} {ps : List OperationParameter}
    (h : (ctx.bodyParameters a).result = .ok ps) {p : OperationParameter} (hp : p ∈ ps) :
    (∃ key, p = .shared key ∧ (key = ctx.requestParameters.session ∨
      key ∈ ctx.requestParameters.attached)) ∨ ∃ b, p = .body b ∧ ctx.BodyOf a b := by
  unfold bodyParameters at h
  dsimp only at h
  split at h
  · obtain rfl := Except.ok.inj h
    exact Or.inl (ctx.mem_leadingParameters hp)
  · obtain ⟨b, hb, h⟩ := Report.result_bind_eq_ok.1 h
    obtain rfl := Except.ok.inj h
    rcases List.mem_append.1 hp with hp | hp
    · exact Or.inl (ctx.mem_leadingParameters hp)
    · exact Or.inr ⟨b, List.mem_singleton.1 hp, ctx.bodyOf_of_body hb⟩

/-- **The parameters of an operation in query style**: shared ones, and those of the
parts. -/
theorem mem_queryParameters {a : Action} {parts : List QueryPart} {p : OperationParameter}
    (hp : p ∈ ctx.queryParameters a parts) :
    (∃ key, p = .shared key ∧ (key = ctx.requestParameters.session ∨
      key ∈ ctx.requestParameters.attached)) ∨ ∃ part ∈ parts, p ∈ part.parameters := by
  unfold queryParameters at hp
  rcases List.mem_append.1 hp with hp | hp
  · rcases List.mem_append.1 hp with hp | hp
    · exact Or.inl (ctx.mem_sessionParameter hp)
    · exact Or.inl (ctx.mem_attachedParameters hp)
  · exact Or.inr (List.mem_flatMap.1 hp)

/-- **What an action becomes.** -/
inductive OperationOf (s : Service) (a : Action) : PlacedOperation → Prop
  | body {parameters : List OperationParameter} {responses : Responses}
      (style : ctx.styleOf a = .body)
      (each : (ctx.bodyParameters a).result = .ok parameters)
      (answers : (ctx.responses s a).result = .ok responses) :
      OperationOf s a {
        path := actionPath s.id a.name
        operation := ctx.assemble s a parameters [] responses
        shared := [] }
  | query {parts : List QueryPart} {responses : Responses}
      (style : ctx.styleOf a = .query)
      (each : List.Forall₂ (ctx.QueryPartOf a) a.parameters parts)
      (answers : (ctx.responses s a).result = .ok responses) :
      OperationOf s a {
        path := actionPath s.id a.name
        operation := ctx.assemble s a (ctx.queryParameters a parts) (groupsOf parts) responses
        shared := parts.flatMap QueryPart.shared }

theorem yields_operation (s : Service) (a : Action) :
    Cached.Yields ctx.flattening (ctx.operation s a) (ctx.OperationOf s a) := by
  unfold operation
  split
  · next style =>
    exact (Cached.yields_liftReport _).bind fun parameters hparameters =>
      (Cached.yields_liftReport _).bind fun responses hresponses =>
        Cached.yields_pure (.body style hparameters hresponses)
  · next style =>
    exact (Cached.yields_mapM (ctx.yields_queryPart a) _).bind fun parts hparts =>
      (Cached.yields_liftReport _).bind fun responses hresponses =>
        Cached.yields_pure (.query style hparts hresponses)

end OperationContext

/-! ## Request-wide parameters -/

namespace RequestParameters

/-- **A request-wide parameter**: one of the three that every schema has, or one that
the schema declares with a primitive type. -/
inductive EntryOf (settings : List RequestSetting) : String × Json → Prop
  | session (name : String) : EntryOf settings (name, sessionEntry name)
  | format : EntryOf settings (formatKey, formatEntry)
  | clientTag : EntryOf settings (clientTagKey, clientTagEntry)
  | setting {s : RequestSetting} {type : Primitive} (declared : s ∈ settings)
      (named : Primitive.ofName? s.type = some type) :
      EntryOf settings (s.name, settingEntry s type)

/-- **What holds of the request-wide parameters of a schema**: what operations refer
to is there, and what bodies get is of known classes. -/
structure Valid (h : Hierarchy) (settings : List RequestSetting) (g : RequestParameters) :
    Prop where
  session : g.session ∈ g.entries.map Prod.fst
  attached : ∀ key ∈ g.attached, key ∈ g.entries.map Prod.fst
  bodyProperties : ∀ e ∈ g.bodyProperties, h.isKnown e.2 = true
  entries : ∀ e ∈ g.entries, EntryOf settings e

variable {h : Hierarchy} {settings : List RequestSetting}

theorem valid_initial (session : String) : Valid h settings (initial session) where
  session := List.mem_cons_self
  attached := fun _ hkey => List.mem_cons_of_mem _ hkey
  bodyProperties := fun _ he => nomatch he
  entries := by
    show ∀ e ∈ [_, _, _], EntryOf settings e
    rw [List.forall_mem_cons, List.forall_mem_cons, List.forall_mem_singleton]
    exact ⟨.session session, .format, .clientTag⟩

/-- A declared parameter keeps all that. -/
theorem Valid.add {g g' : RequestParameters} (hg : Valid h settings g) {s : RequestSetting}
    (hs : s ∈ settings) (hadd : add h g s = .ok g') : Valid h settings g' := by
  unfold RequestParameters.add at hadd
  split at hadd
  · obtain rfl := Except.ok.inj hadd
    exact hg
  · obtain ⟨meant, hmeant, hadd⟩ := bind_eq_ok.1 hadd
    cases meant with
    | reference target =>
      obtain rfl := pure_eq_ok.1 hadd
      refine { hg with bodyProperties := ?_ }
      exact List.forall_mem_append.2 ⟨hg.bodyProperties,
        List.forall_mem_singleton.2 (h.isKnown_of_resolve hmeant)⟩
    | primitive type =>
      obtain rfl := pure_eq_ok.1 hadd
      have hmap : (g.entries ++ [(s.name, settingEntry s type)]).map Prod.fst
          = g.entries.map Prod.fst ++ [s.name] := List.map_append
      refine ⟨?_, ?_, hg.bodyProperties, ?_⟩
      · show g.session ∈ (g.entries ++ [(s.name, settingEntry s type)]).map Prod.fst
        rw [hmap]
        exact List.mem_append_left _ hg.session
      · show ∀ key ∈ g.attached ++ [s.name],
          key ∈ (g.entries ++ [(s.name, settingEntry s type)]).map Prod.fst
        rw [hmap, List.forall_mem_append, List.forall_mem_singleton]
        exact ⟨fun key hkey => List.mem_append_left _ (hg.attached key hkey),
          List.mem_append_right _ (List.mem_singleton.2 rfl)⟩
      · exact List.forall_mem_append.2 ⟨hg.entries, List.forall_mem_singleton.2
          (.setting hs (h.ofName?_of_resolve hmeant))⟩

theorem valid_of_ofSettings {config : Config} {g : RequestParameters}
    (hg : ofSettings config h settings = .ok g) : Valid h settings g :=
  foldlM_ok_induction hg (valid_initial config.sessionParameter)
    fun _ hs _ _ hvalid hadd => hvalid.add hs hadd

end RequestParameters

/-! ## The whole compilation -/

/-- **The context made from a schema.** -/
structure OperationContext.Of (config : Config) (schema : Schema) (ctx : OperationContext) :
    Prop where
  config_eq : ctx.config = config
  errors_eq : ctx.errors = schema.errors
  maxDepth_eq : ctx.flattening.maxDepth = config.maxDepth
  hierarchy : Hierarchy.ofClasses config.rootClass schema.classes = .ok ctx.hierarchy
  requestParameters : RequestParameters.ofSettings config ctx.hierarchy schema.requestSettings
    = .ok ctx.requestParameters
  enums : EnumCatalog.ofDecls schema.enums = .ok ctx.declarations.enums
  built : ctx.declarations.defineAll.result = .ok ctx.flattening.definitions

theorem OperationContext.of_ofSchema {config : Config} {schema : Schema} {ctx : OperationContext}
    (h : (OperationContext.ofSchema config schema).result = .ok ctx) :
    OperationContext.Of config schema ctx := by
  unfold ofSchema at h
  obtain ⟨hierarchy, hhierarchy, h⟩ := Report.result_bind_eq_ok.1 h
  obtain ⟨requestParameters, hrequest, h⟩ := Report.result_bind_eq_ok.1 h
  obtain ⟨enums, henums, h⟩ := Report.result_bind_eq_ok.1 h
  obtain ⟨definitions, hdefinitions, h⟩ := Report.result_bind_eq_ok.1 h
  obtain rfl := Except.ok.inj h
  exact ⟨rfl, rfl, rfl, hhierarchy, hrequest, henums, hdefinitions⟩

/-- The style that a configuration has an action made in. -/
def Config.styleOf (config : Config) (a : Action) : Style :=
  if a.hasFile then .query else config.style

theorem OperationContext.Of.styleOf_eq {config : Config} {schema : Schema}
    {ctx : OperationContext} (h : OperationContext.Of config schema ctx) (a : Action) :
    ctx.styleOf a = config.styleOf a := by
  unfold styleOf Config.styleOf
  rw [h.config_eq]

/-- **A successful compilation**: the context of the schema, the section of definitions,
the operations that the included actions become in a row, and the document that is
assembled from them and finished. -/
theorem exists_row_of_compile {config : Config} {schema : Schema} {d : Document}
    (h : (compile config schema).result = .ok d) :
    ∃ ctx definitions operations, (OperationContext.ofSchema config schema).result = .ok ctx ∧
      definitionSection config schema.apiVersion ctx.flattening.definitions = .ok definitions ∧
      ((includedActions config schema.services).mapM fun e => ctx.operation e.1 e.2).fresh
        = .ok operations ∧
      d = (SwaggerForge.assemble schema ctx definitions operations).finish config := by
  unfold compile at h
  obtain ⟨ctx, hctx, h⟩ := Report.result_bind_eq_ok.1 h
  obtain ⟨definitions, hdefinitions, h⟩ := Report.result_bind_eq_ok.1 h
  obtain ⟨operations, hoperations, h⟩ := Report.result_bind_eq_ok.1 h
  exact ⟨ctx, definitions, operations, hctx, hdefinitions, hoperations, (Except.ok.inj h).symm⟩

/-- **What actions become in a row** are their operations, one by one. -/
theorem OperationContext.operationOf_of_row {ctx : OperationContext}
    {actions : List (Service × Action)} {operations : List PlacedOperation}
    (h : (actions.mapM fun e => ctx.operation e.1 e.2).fresh = .ok operations) :
    List.Forall₂ (fun e o => ctx.OperationOf e.1 e.2 o) actions operations :=
  (Cached.yields_mapM (fun e : Service × Action => ctx.yields_operation e.1 e.2)
    actions).of_fresh operations h

/-- Each action becomes an operation of its own. -/
theorem compile_eq_ok {config : Config} {schema : Schema} {d : Document}
    (h : (compile config schema).result = .ok d) :
    ∃ ctx definitions operations, (OperationContext.ofSchema config schema).result = .ok ctx ∧
      definitionSection config schema.apiVersion ctx.flattening.definitions = .ok definitions ∧
      List.Forall₂ (fun e o => ctx.OperationOf e.1 e.2 o)
        (includedActions config schema.services) operations ∧
      d = (SwaggerForge.assemble schema ctx definitions operations).finish config := by
  obtain ⟨ctx, definitions, operations, hctx, hdefinitions, hrow, hd⟩ := exists_row_of_compile h
  exact ⟨ctx, definitions, operations, hctx, hdefinitions,
    OperationContext.operationOf_of_row hrow, hd⟩

/-! ## An example

One action over the pets of `Flattening.pets`: it takes an animal and a list of its
sitters, and a person travels with every request. -/

open Flattening in
/-- The schema of the example. -/
def petSchema : Schema where
  apiVersion := "1.0"
  classes := pets.classes
  services := [{
    id := "pet"
    name := "pet"
    actions := [{
      name := "add"
      parameters := [
        { name := "pet", type := "Animal" },
        { name := "sitters", type := "array", arrayType := some "Person" }]
      result := some { type := "Animal" } }] }]
  requestSettings := [{ name := "profile", type := "Person" }]

/-- The configuration of the example. -/
def petConfig : Config := { rootClass := "Object", maxDepth := 2 }

/-- What the operations of the example are made from. -/
def petContext : OperationContext where
  config := petConfig
  flattening := Flattening.petWalk
  errors := []
  requestParameters := {
    session := "ks"
    entries := [("ks", RequestParameters.sessionEntry "ks"),
      ("format", RequestParameters.formatEntry), ("clientTag", RequestParameters.clientTagEntry)]
    attached := ["format", "clientTag"]
    bodyProperties := [("profile", "Person")] }

theorem ofSchema_petSchema :
    (OperationContext.ofSchema petConfig petSchema).result = .ok petContext := by
  have hclasses : Hierarchy.ofClasses "Object" Flattening.pets.classes = .ok Flattening.pets := rfl
  have hrequest : RequestParameters.ofSettings petConfig Flattening.pets petSchema.requestSettings
      = .ok petContext.requestParameters := by decide +kernel
  have henums : EnumCatalog.ofDecls [] = .ok ⟨∅⟩ := rfl
  unfold OperationContext.ofSchema
  exact Report.result_bind_eq_ok.2 ⟨_, hclasses, Report.result_bind_eq_ok.2 ⟨_, hrequest,
    Report.result_bind_eq_ok.2 ⟨_, henums,
      Report.result_bind_eq_ok.2 ⟨_, Flattening.built_petWalk, rfl⟩⟩⟩⟩

theorem compile_petSchema : ∃ d, (compile petConfig petSchema).result = .ok d := by
  have hdefinitions : ∃ definitions, definitionSection petConfig petSchema.apiVersion
      petContext.flattening.definitions = .ok definitions := ⟨_, rfl⟩
  have hoperations : ∃ operations, (((includedActions petConfig petSchema.services).mapM
      fun e => petContext.operation e.1 e.2).run ∅).1.result = .ok operations := ⟨_, rfl⟩
  obtain ⟨definitions, hdefinitions⟩ := hdefinitions
  obtain ⟨operations, hoperations⟩ := hoperations
  unfold compile
  exact ⟨_, Report.result_bind_eq_ok.2 ⟨_, ofSchema_petSchema,
    Report.result_bind_eq_ok.2 ⟨_, hdefinitions, Report.result_bind_eq_ok.2 ⟨_, hoperations, rfl⟩⟩⟩⟩

end SwaggerForge
