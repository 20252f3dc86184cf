import SwaggerForge.Proofs.Exposure

/-!
# The body mirrors the declared parameters

In body style the parameters of an action are the properties of one object, in the order in which
they are declared. Settings of the schema that every request accepts come behind them if their type
is a class, which cannot travel in a query. Such a setting is left out where its name is taken: by
a request-wide parameter in front of it, or by a declared parameter or a setting that is in the body
already (`OperationContext.mirrors_of_operation`). What has to be there is told by the declared
parameters alone.

The settings are judged one by one, each against those in front of it, and what is written into the
body is kept in order by `FirstSeen.addAll`: names that are there already stay where they are.
-/

namespace SwaggerForge

open Json

/-! ## Names in order -/

/-- What is taken in behind a list are the items that it does not have, each once. -/
theorem FirstSeen.addAll_eq_append {α : Type} [DecidableEq α] (xs ys : List α) :
    addAll xs ys = xs ++ addAll [] (ys.filter (· ∉ xs)) := by
  induction ys using List.reverseRecOn with
  | nil => exact (List.append_nil xs).symm
  | append_singleton ys y ih =>
    rw [addAll_concat, ih, List.filter_append]
    by_cases hy : y ∈ xs
    · have hnone : [y].filter (· ∉ xs) = [] := by simp [hy]
      rw [hnone, List.append_nil, add, if_pos (List.mem_append_left _ hy)]
    · have hself : [y].filter (· ∉ xs) = [y] := by simp [hy]
      rw [hself, addAll_concat, add, add]
      by_cases hseen : y ∈ addAll [] (ys.filter (· ∉ xs))
      · rw [if_pos (List.mem_append_right _ hseen), if_pos hseen]
      · rw [if_neg fun hmem => (List.mem_append.1 hmem).elim hy hseen, if_neg hseen,
          List.append_assoc]

/-! ## The settings that go into bodies -/

namespace RequestParameters

instance (names : List String) (before : List RequestSetting) (name : String) :
    Decidable (Taken names before name) :=
  inferInstanceAs (Decidable (_ ∨ ∃ s ∈ before, _))

/-- **The settings that go into bodies**, behind some that are dealt with: those whose type is a
class, unless their name is taken by one of the given names or by a setting of a primitive type in
front. -/
def bodySettings (h : Hierarchy) (names : List String) :
    List RequestSetting → List RequestSetting → List RequestSetting
  | _, [] => []
  | before, s :: rest =>
    (if h.isReference s.type ∧ ¬ Taken names before s.name then [s] else [])
      ++ bodySettings h names (before ++ [s]) rest

variable {h : Hierarchy}

theorem taken_concat {names : List String} {before : List RequestSetting} {s : RequestSetting}
    {name : String} : Taken names (before ++ [s]) name ↔
      Taken names before name ∨ s.name = name ∧ Primitive.isName s.type = true := by
  unfold Taken
  simp only [List.mem_append, List.mem_singleton, or_and_right, exists_or, exists_eq_left, or_assoc]

/-- **One setting**: it goes into bodies exactly if its type is a class and its name is not taken,
and takes its name exactly if it is of a primitive type. -/
theorem bodyProperties_of_add {g g' : RequestParameters} {s : RequestSetting}
    (hadd : add h g s = .ok g') :
    g'.bodyProperties = g.bodyProperties
      ++ (if h.isReference s.type ∧ s.name ∉ g.names then [(s.name, s.type)] else []) := by
  unfold add at hadd
  split at hadd
  · next htaken =>
    obtain rfl := Except.ok.inj hadd
    rw [if_neg fun hnew => hnew.2 (any_fst_eq_iff.1 htaken), List.append_nil]
  · next hfree =>
    obtain ⟨meant, hmeant, hadd⟩ := bind_eq_ok.1 hadd
    cases meant with
    | reference target =>
      obtain rfl := h.eq_of_resolve hmeant
      obtain rfl := pure_eq_ok.1 hadd
      rw [if_pos ⟨h.isReference_of_resolve hmeant, fun hmem => hfree (any_fst_eq_iff.2 hmem)⟩]
    | primitive type =>
      obtain rfl := pure_eq_ok.1 hadd
      have hnot : ¬ h.isReference s.type = true := fun hclass =>
        nomatch (h.isReference_iff.1 hclass).1.symm.trans (h.ofName?_of_resolve hmeant)
      rw [if_neg fun hnew => hnot hnew.1]
      exact (List.append_nil _).symm

/-- **What goes into bodies** of the settings from one on, where the names that are taken so far
are known. -/
theorem bodyProperties_of_foldlM {names : List String} {settings before : List RequestSetting}
    {g g' : RequestParameters} (hg : settings.foldlM (add h) g = .ok g')
    (htaken : ∀ name, name ∈ g.names ↔ Taken names before name) :
    g'.bodyProperties = g.bodyProperties
      ++ (bodySettings h names before settings).map fun s => (s.name, s.type) := by
  induction settings generalizing g before with
  | nil =>
    obtain rfl := pure_eq_ok.1 hg
    exact (List.append_nil _).symm
  | cons s rest ih =>
    rw [List.foldlM_cons] at hg
    obtain ⟨next, hadd, hrest⟩ := bind_eq_ok.1 hg
    have hnext (name : String) : name ∈ next.names ↔ Taken names (before ++ [s]) name := by
      rw [← taken_nil, taken_add hadd, taken_concat, ← htaken, ← taken_nil]
      exact @taken_concat g.names [] s name
    have hnew : (h.isReference s.type = true ∧ s.name ∉ g.names) ↔
        (h.isReference s.type = true ∧ ¬ Taken names before s.name) :=
      and_congr_right fun _ => not_congr (htaken s.name)
    rw [ih hrest hnext, bodyProperties_of_add hadd, bodySettings, List.map_append,
      List.append_assoc, if_congr hnew rfl rfl]
    split <;> rfl

/-- **The properties that every body gets** beside those that an action declares. -/
theorem bodyProperties_of_ofSettings {config : Config} {settings : List RequestSetting}
    {g : RequestParameters} (hg : ofSettings config h settings = .ok g) :
    g.bodyProperties = (bodySettings h [config.sessionParameter, formatKey, clientTagKey] []
      settings).map fun s => (s.name, s.type) :=
  bodyProperties_of_foldlM hg fun _ => taken_nil.symm

end RequestParameters

/-! ## What is written into a body -/

namespace OperationContext

theorem keys_addRequestProperties (extra : List (String × String)) (t : Table BodyProperty) :
    (addRequestProperties extra t).keys = FirstSeen.addAll t.keys (extra.map Prod.fst) := by
  unfold addRequestProperties
  induction extra generalizing t with
  | nil => rfl
  | cons e rest ih =>
    rw [List.foldl_cons, ih]
    show _ = FirstSeen.addAll (FirstSeen.add t.keys e.1) _
    refine congrArg (FirstSeen.addAll · _) ?_
    unfold FirstSeen.add
    split
    · next hthere => rw [if_pos (Table.contains_iff.1 hthere)]
    · exact Table.keys_insert t e.1 _

/-- **Of several classes for a name the first one counts.** -/
theorem get?_addRequestProperties_of_find? {extra : List (String × String)}
    {t : Table BodyProperty} {name : String} (hnew : name ∉ t.keys) {e : String × String}
    (h : extra.find? (·.1 == name) = some e) :
    (addRequestProperties extra t).get? name = some (.reference e.2) := by
  induction extra generalizing t with
  | nil => cases h
  | cons x rest ih =>
    have hstep (t : Table BodyProperty) : addRequestProperties (x :: rest) t
        = addRequestProperties rest
            (if t.contains x.1 then t else t.insert x.1 (.reference x.2)) := rfl
    rw [hstep]
    rw [List.find?_cons] at h
    split at h
    · next hname =>
      obtain rfl := Option.some.inj h
      obtain rfl := beq_iff_eq.1 hname
      rw [if_neg fun hthere => hnew (Table.contains_iff.1 hthere)]
      refine get?_addRequestProperties ?_
      rw [Table.get?_insert, if_pos rfl]
    · next hname =>
      refine ih (fun hmem => ?_) h
      split at hmem
      · exact hnew hmem
      · rcases Table.mem_keys_insert.1 hmem with rfl | hmem
        · exact Bool.false_ne_true (hname.symm.trans (beq_self_eq_true _))
        · exact hnew hmem

variable {ctx : OperationContext} {s : Service} {a : Action}

/-- A parameter in a body refers to its class, or is a value of its type. -/
theorem bodyProperty_cases {p : Parameter} {q : BodyProperty}
    (hq : (ctx.bodyProperty a p).result = .ok q) :
    (ctx.hierarchy.isReference p.type = true ∧ q = .reference p.type) ∨
      ∃ type v items, Primitive.ofName? p.type = some type ∧ q = .value v items ∧ v.type = type := by
  cases htype : Primitive.ofName? p.type with
  | some type =>
    obtain ⟨v, items, rfl, hv⟩ := exists_value_of_bodyProperty htype hq
    exact Or.inr ⟨type, v, items, rfl, rfl, hv⟩
  | none =>
    cases ctx.bodyPropertyOf_of_bodyProperty hq with
    | reference known => exact Or.inl ⟨ctx.hierarchy.isReference_iff.2 ⟨htype, known⟩, rfl⟩
    | value named => exact nomatch htype.symm.trans named

end OperationContext

/-! ## Bodies that mirror an action -/

/-- The names that settings add to the body of an action: those that it does not declare, each where
it first comes. -/
def Action.addedNames (a : Action) (settings : List RequestSetting) : List String :=
  FirstSeen.addAll [] ((settings.map (·.name)).filter (· ∉ a.parameters.map (·.name)))

open OperationContext in
/-- **A schema that mirrors an action** for the given settings, with the given properties. -/
structure Json.Mirrors (h : Hierarchy) (a : Action) (settings : List RequestSetting)
    (schema : Json) (properties : Table Json) : Prop where
  /-- They are its properties. -/
  written : schema.field? "properties" = some (.object properties)
  /-- The declared parameters come first, in order, and then what the settings add. -/
  keys_eq : properties.keys = a.parameters.map (·.name) ++ a.addedNames settings
  /-- A parameter is a bare reference to its class or has the type that its name means. -/
  declared : ∀ p ∈ a.parameters, ∃ q, properties.get? p.name = some q ∧
    ((h.isReference p.type = true ∧ q = definitionRef p.type) ∨
      ∃ type, Primitive.ofName? p.type = some type ∧ q.field? "type" = some type.toJson)
  /-- What is added is a bare reference to the class of the first setting of its name. -/
  added : ∀ name ∈ a.addedNames settings, ∃ s, settings.find? (·.name == name) = some s ∧
    properties.get? name = some (definitionRef s.type)
  /-- What has to be there are the parameters that are not optional, in order. -/
  required : schema.field? "required"
    = if requiredNames a = [] then none else some (.strings (requiredNames a))
  required_nodup : (requiredNames a).Nodup
  /-- It is there, and none of it is added. -/
  required_mem : ∀ name ∈ requiredNames a, name ∈ properties.keys ∧ name ∉ a.addedNames settings

/-- **A listed parameter that is shared by all requests** and travels in the query. -/
def Json.InEveryQuery (g : RequestParameters) (j : Json) : Prop :=
  ∃ key entry, j = parameterRef key ∧ (key, entry) ∈ g.entries ∧
    entry.field? "in" = some (.string "query")

/-- **What an action in body style lists**: nothing but parameters that are shared by all requests
if it has no parameters, and else one body behind them, which mirrors it. -/
inductive Json.ListsMirror (g : RequestParameters) (h : Hierarchy) (a : Action)
    (settings : List RequestSetting) : List Json → Prop
  | plain {leading : List Json} (parameters : a.parameters = [])
      (shared : ∀ j ∈ leading, j.InEveryQuery g) : ListsMirror g h a settings leading
  | body {leading : List Json} {body content : Json} {properties : Table Json}
      (parameters : a.parameters ≠ []) (shared : ∀ j ∈ leading, j.InEveryQuery g)
      (location : body.field? "in" = some (.string "body"))
      (schema : body.field? "schema" = some content)
      (mirrors : content.Mirrors h a settings properties) :
      ListsMirror g h a settings (leading ++ [body])

theorem Action.mem_addedNames {a : Action} {settings : List RequestSetting} {name : String} :
    name ∈ a.addedNames settings ↔
      name ∈ settings.map (·.name) ∧ name ∉ a.parameters.map (·.name) := by
  unfold addedNames
  rw [FirstSeen.mem_addAll, or_iff_right List.not_mem_nil, List.mem_filter, decide_eq_true_iff]

/-- A body says what has to be there unless nothing has to. -/
theorem Body.get?_required (b : Body) {s : Table Json}
    (hs : b.toJson.field? "schema" = some (.object s)) :
    s.get? "required" = if b.required = [] then none else some (.strings b.required) := by
  cases hs
  split <;> cases b.extending <;> rfl

namespace OperationContext

variable {ctx : OperationContext} {s : Service} {a : Action}

theorem keys_of_body {b : Body} (hb : (ctx.body a).result = .ok b)
    (hnames : (a.parameters.map (·.name)).Nodup) {settings : List RequestSetting}
    (hsettings : ctx.requestParameters.bodyProperties = settings.map fun s => (s.name, s.type)) :
    b.properties.keys = a.parameters.map (·.name) ++ a.addedNames settings := by
  cases ctx.bodyOf_of_body hb with
  | @mk properties each =>
    have hdeclared : a.parameters.map (·.name) = properties.map Prod.fst :=
      map_eq_of_forall₂ each fun _ _ h => h.1.symm
    have hkeys : (Table.ofList properties).keys = a.parameters.map (·.name) := by
      rw [Table.ofList_of_nodup (hdeclared ▸ hnames), hdeclared]
      rfl
    have hextra : ctx.requestParameters.bodyProperties.map Prod.fst = settings.map (·.name) := by
      rw [hsettings, List.map_map]
      rfl
    show (addRequestProperties ctx.requestParameters.bodyProperties
      (Table.ofList properties)).keys = _
    rw [keys_addRequestProperties, FirstSeen.addAll_eq_append, hkeys, hextra]
    rfl

theorem get?_of_mem_addedNames {b : Body} (hb : (ctx.body a).result = .ok b)
    {settings : List RequestSetting}
    (hsettings : ctx.requestParameters.bodyProperties = settings.map fun s => (s.name, s.type))
    {name : String} (hname : name ∈ a.addedNames settings) :
    ∃ s, settings.find? (·.name == name) = some s ∧
      b.properties.get? name = some (.reference s.type) := by
  obtain ⟨hmem, hnew⟩ := Action.mem_addedNames.1 hname
  have hfound : (settings.find? (·.name == name)).isSome := by
    obtain ⟨s, hs, hsname⟩ := List.mem_map.1 hmem
    exact List.find?_isSome.2 ⟨s, hs, beq_iff_eq.2 hsname⟩
  obtain ⟨s, hs⟩ := Option.isSome_iff_exists.1 hfound
  refine ⟨s, hs, ?_⟩
  cases ctx.bodyOf_of_body hb with
  | @mk properties each =>
    have hdeclared : a.parameters.map (·.name) = properties.map Prod.fst :=
      map_eq_of_forall₂ each fun _ _ h => h.1.symm
    have hentry : ctx.requestParameters.bodyProperties.find? (·.1 == name)
        = some (s.name, s.type) := by
      rw [hsettings, List.find?_map]
      exact congrArg (Option.map _) hs
    refine get?_addRequestProperties_of_find? (fun hthere => hnew ?_) hentry
    rw [hdeclared]
    exact Table.mem_keys_ofList.1 hthere

/-- **The body of an action mirrors it.** -/
theorem mirrors_of_body {b : Body} (hb : (ctx.body a).result = .ok b)
    (hnames : (a.parameters.map (·.name)).Nodup) {settings : List RequestSetting}
    (hsettings : ctx.requestParameters.bodyProperties = settings.map fun s => (s.name, s.type)) :
    ∃ schema, b.toJson.field? "schema" = some schema ∧
      schema.Mirrors ctx.hierarchy a settings (b.properties.map BodyProperty.toJson) := by
  have hrequired : b.required = requiredNames a := by
    cases ctx.bodyOf_of_body hb
    rfl
  have hdeclared {name : String} (hname : name ∈ requiredNames a) :
      name ∈ a.parameters.map (·.name) := by
    obtain ⟨p, hp, rfl⟩ := List.mem_map.1 hname
    exact List.mem_map_of_mem (List.mem_filter.1 hp).1
  have hkeys : (b.properties.map BodyProperty.toJson).keys
      = a.parameters.map (·.name) ++ a.addedNames settings :=
    (Table.keys_map _ _).trans (keys_of_body hb hnames hsettings)
  obtain ⟨schema, hschema, hwritten⟩ := b.exists_schema
  refine ⟨.object schema, hschema, hwritten, hkeys, fun p hp => ?_, fun name hname => ?_, ?_, ?_,
    fun name hname => ⟨?_, fun hadded => ?_⟩⟩
  · obtain ⟨q, hq, hget⟩ := exists_property_of_body hb hnames hp
    refine ⟨q.toJson, by rw [Table.get?_map, hget]; rfl, ?_⟩
    rcases bodyProperty_cases hq with ⟨hclass, heq⟩ | ⟨type, v, items, htype, heq, hv⟩
    · rw [heq]
      exact Or.inl ⟨hclass, rfl⟩
    · rw [heq]
      exact Or.inr ⟨type, htype, hv ▸ rfl⟩
  · obtain ⟨s, hs, hget⟩ := get?_of_mem_addedNames hb hsettings hname
    exact ⟨s, hs, by rw [Table.get?_map, hget]; rfl⟩
  · rw [← hrequired]
    exact b.get?_required hschema
  · exact hnames.sublist (List.filter_sublist.map _)
  · rw [hkeys]
    exact List.mem_append_left _ (hdeclared hname)
  · exact (Action.mem_addedNames.1 hadded).2 (hdeclared hname)

theorem listsMirror_of_operationOf {config : Config} {schema : Schema}
    (hof : OperationContext.Of config schema ctx) (hstyle : ctx.styleOf a = .body)
    (hnames : (a.parameters.map (·.name)).Nodup) {o : PlacedOperation}
    (ho : ctx.OperationOf s a o) :
    ListsMirror ctx.requestParameters ctx.hierarchy a
      (RequestParameters.bodySettings ctx.hierarchy
        [config.sessionParameter, RequestParameters.formatKey, RequestParameters.clientTagKey] []
        schema.requestSettings)
      (Upload.parametersOf o.operation.toJson) := by
  have hvalid := RequestParameters.valid_of_ofSettings hof.requestParameters
  have hsettings := RequestParameters.bodyProperties_of_ofSettings hof.requestParameters
  have hshared : ∀ j ∈ ((if ctx.config.profile = .enveloped then [] else ctx.sessionParameter a)
      ++ ctx.attachedParameters).map OperationParameter.toJson,
      j.InEveryQuery ctx.requestParameters := by
    rw [List.forall_mem_map]
    intro q hq
    obtain ⟨key, rfl, hkey⟩ := ctx.mem_leadingParameters hq
    have hthere : key ∈ ctx.requestParameters.entries.map Prod.fst :=
      hkey.elim (fun h => h ▸ hvalid.session) (hvalid.attached key)
    obtain ⟨⟨_, entry⟩, hentry, rfl⟩ := List.mem_map.1 hthere
    exact ⟨_, entry, rfl, hentry, (hvalid.entries _ hentry).inQuery.1.location⟩
  rw [Operation.parametersOf_toJson]
  cases ho with
  | query style => exact nomatch hstyle.symm.trans style
  | @body ps responses style each answers =>
    show ListsMirror _ _ _ _ (ps.map OperationParameter.toJson)
    unfold bodyParameters at each
    dsimp only at each
    split at each
    · next hnone =>
      obtain rfl := Except.ok.inj each
      exact .plain hnone hshared
    · next hsome =>
      obtain ⟨b, hb, each⟩ := Report.result_bind_eq_ok.1 each
      obtain rfl := Except.ok.inj each
      obtain ⟨content, hcontent, hmirrors⟩ := mirrors_of_body hb hnames hsettings
      rw [List.map_append]
      exact .body hsome hshared rfl hcontent hmirrors

/-- **The body mirrors the declared parameters.** In body style an operation lists references to
request-wide parameters, which travel in the query. Behind them there is nothing if the action has
no parameters, and else one body, which mirrors the action for the settings that go into bodies. -/
theorem listsMirror_of_operation {config : Config} {schema : Schema}
    (hctx : (OperationContext.ofSchema config schema).result = .ok ctx)
    (hstyle : ctx.styleOf a = .body) (hnames : (a.parameters.map (·.name)).Nodup)
    {cache : ExpansionCache} (hcache : ExpansionCache.Sound ctx.flattening cache)
    {o : PlacedOperation} (ho : ((ctx.operation s a).run cache).1.result = .ok o) :
    ListsMirror ctx.requestParameters ctx.hierarchy a
      (RequestParameters.bodySettings ctx.hierarchy
        [config.sessionParameter, RequestParameters.formatKey, RequestParameters.clientTagKey] []
        schema.requestSettings)
      (Upload.parametersOf o.operation.toJson) := by
  have hyields := ctx.yields_operation s a
  rw [hyields.transparent.result cache hcache] at ho
  exact listsMirror_of_operationOf (OperationContext.of_ofSchema hctx) hstyle hnames
    (hyields.of_fresh o ho)

end OperationContext

/-! ## An example

Two settings of the schema are of a class, and one of them has the name of a request-wide
parameter. -/

/-- The schema of the example. -/
def profileSchema : Schema where
  apiVersion := "1.0"
  classes := Flattening.pets.classes
  requestSettings := [{ name := "profile", type := "Person" }, { name := "format", type := "Person" }]

/-- Its operations are made from the same as those of `petSchema`: the second setting is left
out. -/
theorem ofSchema_profileSchema :
    (OperationContext.ofSchema petConfig profileSchema).result = .ok petContext := by
  have hclasses : Hierarchy.ofClasses "Object" Flattening.pets.classes = .ok Flattening.pets := rfl
  have hrequest : RequestParameters.ofSettings petConfig Flattening.pets
      profileSchema.requestSettings = .ok petContext.requestParameters := by decide +kernel
  have henums : EnumCatalog.ofDecls [] = .ok ⟨∅⟩ := rfl
  unfold OperationContext.ofSchema
  exact Report.result_bind_eq_ok.2 ⟨_, hclasses, Report.result_bind_eq_ok.2 ⟨_, hrequest,
    Report.result_bind_eq_ok.2 ⟨_, henums,
      Report.result_bind_eq_ok.2 ⟨_, Flattening.built_petWalk, rfl⟩⟩⟩⟩

/-- An action that takes a pet and, if one likes, how long to walk it. -/
def walkPet : Action where
  name := "walk"
  parameters := [{ name := "pet", type := "Animal" },
    { name := "minutes", type := "int", optional := true }]

/-- The service of the action. -/
def walker : Service := { id := "walker", name := "walker", actions := [walkPet] }

namespace OperationContext

theorem listsMirror_walkPet : ∃ o,
    ((petContext.operation walker walkPet).run ∅).1.result = .ok o ∧
    ListsMirror petContext.requestParameters Flattening.pets walkPet
      [{ name := "profile", type := "Person" }] (Upload.parametersOf o.operation.toJson) := by
  have hsettings : RequestParameters.bodySettings Flattening.pets ["ks", "format", "clientTag"] []
      profileSchema.requestSettings = [{ name := "profile", type := "Person" }] := by decide +kernel
  have hoperation : ∃ o, ((petContext.operation walker walkPet).run ∅).1.result = .ok o := ⟨_, rfl⟩
  obtain ⟨o, ho⟩ := hoperation
  refine ⟨o, ho, ?_⟩
  rw [← hsettings]
  exact listsMirror_of_operation ofSchema_profileSchema rfl (by decide)
    (ExpansionCache.sound_empty _) ho

/-- **A setting whose name is taken is in no body**, though its type is a class. -/
theorem format_not_mem_walkPet : ∃ o body content properties,
    (OperationContext.ofSchema petConfig profileSchema).result = .ok petContext ∧
    ((petContext.operation walker walkPet).run ∅).1.result = .ok o ∧
    body ∈ Upload.parametersOf o.operation.toJson ∧
    body.field? "in" = some (.string "body") ∧ body.field? "schema" = some content ∧
    content.field? "properties" = some (.object properties) ∧
    properties.keys = ["pet", "minutes", "profile"] ∧
    properties.keys ≠ walkPet.parameters.map (·.name) ++ walkPet.addedNames
      (profileSchema.requestSettings.filter fun s => petContext.hierarchy.isReference s.type) := by
  have hoperation : ∃ o, ((petContext.operation walker walkPet).run ∅).1.result = .ok o := ⟨_, rfl⟩
  obtain ⟨o, ho⟩ := hoperation
  have hlists := listsMirror_of_operationOf (of_ofSchema ofSchema_profileSchema) rfl (by decide)
    ((petContext.yields_operation walker walkPet).of_fresh o ho)
  generalize hlisted : Upload.parametersOf o.operation.toJson = listed at hlists
  cases hlists with
  | plain parameters => cases parameters
  | @body leading body content properties parameters shared location schema mirrors =>
    have hkeys : properties.keys = ["pet", "minutes", "profile"] := by
      rw [mirrors.keys_eq]
      decide +kernel
    refine ⟨o, body, content, properties, ofSchema_profileSchema, ho, ?_, location, schema,
      mirrors.written, hkeys, ?_⟩
    · rw [hlisted]
      exact List.mem_append_right _ (List.mem_singleton.2 rfl)
    · rw [hkeys]
      decide +kernel

end OperationContext

end SwaggerForge
