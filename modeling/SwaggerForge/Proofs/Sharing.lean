import SwaggerForge.Proofs.Uploads

/-!
# What actions list and share

What an operation lists itself is right from the start
(`OperationContext.formFilesOnly_parameters`): an upload that is written inline is form
data at once, and a body is made only of an action that takes no uploads.

The shared parameters of an assembled document are those of all requests and those that
the actions share, of which a later one takes the place of an earlier one with its key
(`parameters_assemble`). An operation takes the place of an earlier one with its path
and method in the same way, so what is listed under `get` is listed by an action in
query style that no later one replaces (`mem_keysUnderGet_assemble`).
-/

namespace SwaggerForge

open Json

/-! ## What operations list -/

theorem Primitive.eq_file_of_toJson {type : Primitive} (h : type.toJson = fileType) :
    type = .file := by
  cases type with
  | file => rfl
  | _ => exact absurd h (by decide)

/-- The names of the fields for allowed values. -/
def EnumValues.fieldNames : List String := ["enum", "x-enumLabels", "x-enumType"]

theorem EnumValues.mem_fieldNames (e : EnumValues) : ∀ f ∈ e.fields, f.1 ∈ fieldNames := by
  unfold EnumValues.fields fieldNames
  simp only [List.forall_mem_append, forall_mem_optional, List.forall_mem_singleton]
  refine ⟨⟨?_, by decide⟩, fun _ _ => by decide⟩
  split
  · exact List.forall_mem_nil _
  · exact List.forall_mem_singleton.2 (by simp)

/-- The names of the fields for default and allowed values. -/
def ValueSchema.constraintKeys : List String := ["default", "enum", "x-enumLabels", "x-enumType"]

theorem EnumValues.mem_constraintKeys (e : EnumValues) :
    ∀ f ∈ e.fields, f.1 ∈ ValueSchema.constraintKeys :=
  fun f hf => List.mem_cons_of_mem _ (e.mem_fieldNames f hf)

theorem ValueSchema.mem_constraintKeys (v : ValueSchema) :
    ∀ f ∈ v.constraintFields, f.1 ∈ constraintKeys := by
  unfold constraintFields
  rw [List.forall_mem_append, forall_mem_optional]
  refine ⟨fun _ _ => List.mem_cons_self, ?_⟩
  split
  · exact List.forall_mem_nil _
  · next e _ => exact e.mem_constraintKeys

/-- A parameter that is written where it is used has no other fields. -/
theorem InlineParameter.field?_toJson_eq_none (p : InlineParameter) {key : String}
    (hkey : key ∉ ["name", "in", "type", "required", "description"] ++ ValueSchema.constraintKeys) :
    p.toJson.field? key = none := by
  refine field?_fields_eq_none ?_ hkey
  simp only [List.forall_mem_append, List.forall_mem_cons]
  refine ⟨⟨⟨by decide, by decide, by decide, by decide, List.forall_mem_nil _⟩, fun f hf => ?_⟩, ?_⟩
  · exact List.mem_append_right _ (p.value.mem_constraintKeys f hf)
  · rw [forall_mem_optional]
    exact fun _ _ => by simp

/-- A value in a body has no other fields. -/
theorem BodyProperty.field?_toJson_eq_none (v : ValueSchema) (items : Option TypeSchema)
    {key : String} (hkey : key ∉ ["type", "items", "description"] ++ ValueSchema.constraintKeys) :
    (BodyProperty.value v items).toJson.field? key = none := by
  refine field?_fields_eq_none ?_ hkey
  simp only [List.forall_mem_append, List.forall_mem_singleton, forall_mem_optional]
  exact ⟨⟨⟨by decide, fun _ _ => by decide⟩,
    fun f hf => List.mem_append_right _ (v.mem_constraintKeys f hf)⟩, fun _ _ => by decide⟩

/-- **A parameter that is written where it is used** is right from the start. -/
theorem InlineParameter.formFilesOnly_toJson (p : InlineParameter) : p.toJson.FormFilesOnly := by
  refine formFilesOnly_of_eq_none ?_ ?_ ?_ fun htype => ?_
  · exact p.field?_toJson_eq_none (by decide)
  · exact p.field?_toJson_eq_none (by decide)
  · exact p.field?_toJson_eq_none (by decide)
  · have hfile : p.value.type = .file := Primitive.eq_file_of_toJson (Option.some.inj htype)
    show some (Json.string p.location) = _
    rw [location, if_pos hfile]

theorem ValueSchema.fieldFileFree_constraintFields (v : ValueSchema) :
    ∀ f ∈ v.constraintFields, FieldFileFree f := by
  intro f hf
  have hdisjoint : ∀ key ∈ constraintKeys, key ∉ schemaKeys := by decide
  exact fieldFileFree_of_not_mem (hdisjoint _ (v.mem_constraintKeys f hf)) f.2

/-- **A type in a place for values** is written without uploads. -/
theorem TypeSchema.fileFree_toJson {h : Hierarchy} {t : TypeSchema} (ht : t.ForValues h) :
    t.toJson.FileFree := by
  induction t with
  | reference target => exact fileFree_reference _
  | value type =>
    exact fileFree_fields (List.forall_mem_singleton.2
      (fieldFileFree_type fun htype => ht (Primitive.eq_file_of_toJson htype)))
  | arrayOf items ih =>
    refine fileFree_fields (List.forall_mem_cons.2 ⟨fieldFileFree_type (by decide), ?_⟩)
    exact List.forall_mem_singleton.2 (fieldFileFree_items (ih ht))

namespace OperationContext

variable {ctx : OperationContext} {a : Action}

/-- An action in body style takes no uploads. -/
theorem hasFile_of_styleOf (h : ctx.styleOf a = .body) : a.hasFile = false := by
  unfold styleOf at h
  split at h
  · cases h
  · next hnot => exact Bool.eq_false_iff.2 hnot

/-- **A property of a body** is no upload where the action takes none. -/
theorem fileFree_bodyProperty (ha : a.hasFile = false) {p : Parameter} (hp : p ∈ a.parameters)
    {q : BodyProperty} (hq : ctx.BodyPropertyOf a p q) : q.toJson.FileFree := by
  cases hq with
  | reference => exact fileFree_reference _
  | @value type items default named elements =>
    have htype : type ≠ .file := by
      rintro rfl
      have hfile : a.hasFile = true :=
        List.any_eq_true.2 ⟨p, hp, beq_iff_eq.2 (Primitive.ofName?_eq_file named)⟩
      exact Bool.false_ne_true (ha.symm.trans hfile)
    have hitems : ∀ f ∈ optional "items" (items.map TypeSchema.toJson), FieldFileFree f := by
      rw [forall_mem_optional]
      intro j hj
      obtain ⟨t, rfl, rfl⟩ := Option.map_eq_some_iff.1 hj
      exact fieldFileFree_items (TypeSchema.fileFree_toJson (ctx.forValues_itemsSchema elements))
    refine fileFree_fields ?_
    simp only [List.forall_mem_append]
    refine ⟨⟨⟨?_, hitems⟩, ValueSchema.fieldFileFree_constraintFields _⟩, ?_⟩
    · refine List.forall_mem_singleton.2 (fieldFileFree_type fun h => ?_)
      exact htype (Primitive.eq_file_of_toJson h)
    · rw [forall_mem_optional]
      exact fun j _ => fieldFileFree_of_not_mem (by decide) j

/-- **The schema of a body** is free of uploads where the action takes none. -/
theorem formFilesOnly_body (ha : a.hasFile = false) {b : Body} (hb : ctx.BodyOf a b) :
    b.toJson.FormFilesOnly := by
  have hproperties : ∀ e ∈ b.properties.entries, e.2.toJson.FileFree := by
    cases hb with
    | mk each =>
      intro e he
      rcases mem_entries_addRequestProperties he with he | ⟨x, -, rfl⟩
      · obtain ⟨p, hp, -, hprop⟩ := exists_left_of_forall₂ each (Table.mem_entries_ofList he)
        exact fileFree_bodyProperty ha hp hprop
      · exact fileFree_reference _
  refine ⟨fun h => (nomatch h), fun x hx => ?_, fun _ h => (nomatch h), fun _ h => nomatch h⟩
  rw [← Option.some.inj hx]
  refine fileFree_fields ?_
  simp only [List.forall_mem_append, List.forall_mem_singleton, forall_mem_optional]
  refine ⟨⟨⟨?_, fun j _ => ?_⟩, ?_⟩, ?_⟩
  · exact fieldFileFree_type (by decide)
  · exact fieldFileFree_of_not_mem (by decide) j
  · refine fieldFileFree_properties ?_
    intro t ht e he
    obtain rfl := object.inj ht
    obtain ⟨q, hq, hjson⟩ := Table.mem_entries_map.1 he
    rw [hjson]
    exact hproperties _ hq
  · split
    · exact List.forall_mem_nil _
    · exact List.forall_mem_singleton.2 (fieldFileFree_of_not_mem (by decide) _)

/-- **What an operation lists** is right from the start: references, inline parameters,
and a body only if the action takes no uploads. -/
theorem formFilesOnly_parameters {s : Service} {o : PlacedOperation} (ho : ctx.OperationOf s a o) :
    ∀ p ∈ o.operation.parameters, p.toJson.FormFilesOnly := by
  intro p hp
  cases ho with
  | body style each answers =>
    rcases ctx.mem_bodyParameters each hp with ⟨key, rfl, -⟩ | ⟨b, rfl, hb⟩
    · exact formFilesOnly_reference _
    · exact formFilesOnly_body (hasFile_of_styleOf style) hb
  | query style each answers =>
    rcases ctx.mem_queryParameters hp with ⟨key, rfl, -⟩ | ⟨part, -, hpart⟩
    · exact formFilesOnly_reference _
    · cases part with
      | inline q =>
        rw [List.mem_singleton.1 hpart]
        exact q.formFilesOnly_toJson
      | omitted => cases hpart
      | flattened p flats =>
        obtain ⟨flat, -, rfl⟩ := List.mem_map.1 hpart
        exact formFilesOnly_reference _

end OperationContext

/-! ## Which shared parameters operations list -/

/-- The key of a shared parameter, where it is one. -/
def OperationParameter.key? : OperationParameter → Option String
  | .shared key => some key
  | .inline _ | .body _ => none

theorem OperationParameter.sharedKey?_toJson (p : OperationParameter) :
    Upload.sharedKey? p.toJson = p.key? := by
  unfold Upload.sharedKey? textField?
  cases p with
  | shared key => exact parameterKey?_append key
  | inline p =>
    show ((p.toJson.field? "$ref").bind string?).bind parameterKey? = none
    rw [p.field?_toJson_eq_none (by decide)]
    rfl
  | body b => rfl

/-- The field that is written behind fields of other names. -/
theorem lookup_concat_self (names : List String) {front : List (String × Json)}
    (h : ∀ e ∈ front, e.1 ∈ names) {key : String} (hkey : key ∉ names) (x : Json) :
    (front ++ [(key, x)]).lookup key = some x := by
  have hfront : front.lookup key = none := field?_fields_eq_none h hkey
  rw [List.lookup_append, hfront, List.lookup_cons, beq_self_eq_true]
  rfl

/-- The fields of a written operation in front of its parameters. -/
def Operation.front (o : Operation) : List (String × Json) :=
  optional "description" (o.description.map .string)
    ++ [("tags", .strings [o.tag]), ("operationId", .string o.id)]
    ++ flag "deprecated" o.deprecated
    ++ flag "x-beta" o.beta
    ++ [("x-requestFormat", .string o.style.method),
      ("x-actionParameters", .strings o.actionParameters)]
    ++ (if o.groups.isEmpty then []
      else [("x-parameterGroups", .array (ParameterGroup.allToJson o.groups))])

/-- The names of these fields. -/
def Operation.frontNames : List String :=
  ["description", "tags", "operationId", "deprecated", "x-beta", "x-requestFormat",
    "x-actionParameters", "x-parameterGroups"]

theorem Operation.mem_frontNames (o : Operation) : ∀ e ∈ o.front, e.1 ∈ frontNames := by
  unfold front frontNames
  simp only [List.forall_mem_append, forall_mem_optional, forall_mem_flag]
  refine ⟨⟨⟨⟨⟨fun _ _ => by simp, by simp⟩, fun _ => by simp⟩, fun _ => by simp⟩, by simp⟩, ?_⟩
  split
  · exact List.forall_mem_nil _
  · exact List.forall_mem_singleton.2 (by simp)

theorem Operation.field?_parameters (o : Operation) :
    o.toJson.field? "parameters" = some (.array (o.parameters.map OperationParameter.toJson)) := by
  show List.lookup "parameters" (o.front ++ [("parameters", _)] ++ _ ++ _) = _
  rw [List.lookup_append, List.lookup_append,
    lookup_concat_self frontNames o.mem_frontNames (by decide)]
  rfl

/-- An operation says that it asks for no credentials exactly if it needs no session. -/
theorem Operation.field?_security (o : Operation) :
    o.toJson.field? "security" = if o.sessionRequired then none else some (.array []) := by
  have hfront : ∀ e ∈ o.front ++ [("parameters", Json.array
      (o.parameters.map OperationParameter.toJson))], e.1 ∈ frontNames ++ ["parameters"] :=
    List.forall_mem_append.2 ⟨fun e he => List.mem_append_left _ (o.mem_frontNames e he),
      List.forall_mem_singleton.2 (List.mem_append_right _ List.mem_cons_self)⟩
  have hnone : (o.front ++ [("parameters", Json.array
      (o.parameters.map OperationParameter.toJson))]).lookup "security" = none :=
    field?_fields_eq_none hfront (by decide)
  show List.lookup "security" (o.front ++ [("parameters", _)] ++ _ ++ [("responses", _)]) = _
  rw [List.lookup_append, List.lookup_append, hnone]
  split <;> rfl

theorem Operation.parametersOf_toJson (o : Operation) :
    Upload.parametersOf o.toJson = o.parameters.map OperationParameter.toJson := by
  unfold Upload.parametersOf
  rw [o.field?_parameters]

/-- **The shared parameters that a written operation lists** are those of the operation. -/
theorem Operation.sharedKeys_toJson (o : Operation) :
    Upload.sharedKeys o.toJson = o.parameters.filterMap OperationParameter.key? := by
  unfold Upload.sharedKeys
  rw [o.parametersOf_toJson, List.filterMap_map]
  exact List.filterMap_congr fun p _ => p.sharedKey?_toJson

/-! ## What actions share -/

namespace OperationContext

variable (ctx : OperationContext)

/-- The shared parameters that a parameter of an action brings along in a query: if its
type is a class, one for each value inside it. -/
def flattened (p : Parameter) : List (String × FlatParameter) :=
  if ctx.hierarchy.isReference p.type then
    match ctx.flattening.expand p.type with
    | .ok e => (e.parameters.map (FlatParameter.qualified p.name)).map fun flat =>
        (QueryPart.sharedKey p flat, flat)
    | .error _ => []
  else []

/-- **What an action shares.** In body style nothing is flattened. -/
def sharedBy (a : Action) : List (String × FlatParameter) :=
  match ctx.styleOf a with
  | .query => a.parameters.flatMap ctx.flattened
  | .body => []

/-- The keys of the shared parameters that an action in query style lists. -/
def listedKeys (a : Action) : List String :=
  (if a.sessionRequired then [ctx.requestParameters.session] else [])
    ++ ctx.requestParameters.attached ++ (ctx.sharedBy a).map Prod.fst

/-- **The shared parameters of a schema** by key: those of all requests, and those of the
actions, of which a later one takes the place of an earlier one with its key. -/
def sharedParameters (actions : List (Service × Action)) : Table Json :=
  Table.ofList (ctx.requestParameters.entries
    ++ actions.flatMap fun e => (ctx.sharedBy e.2).map fun (key, p) => (key, p.toJson))

/-- The action that an operation under `get` is made from: of those in query style with
the given path, the last. -/
def standing? (actions : List (Service × Action)) (path : String) : Option (Service × Action) :=
  actions.reverse.find? fun e =>
    actionPath e.1.id e.2.name == path && ctx.styleOf e.2 == .query

/-- **An action that no later one replaces**: it is made in query style and stands under
its path. -/
def Stands (actions : List (Service × Action)) (e : Service × Action) : Prop :=
  ctx.standing? actions (actionPath e.1.id e.2.name) = some e

variable {ctx} {s : Service} {a : Action}

theorem shared_of_queryPartOf {p : Parameter} {part : QueryPart} (h : ctx.QueryPartOf a p part) :
    part.shared = ctx.flattened p := by
  unfold flattened
  cases h with
  | flattened reference expanded =>
    rw [if_pos reference, expanded]
    rfl
  | omitted named =>
    have hnot : ¬ ctx.hierarchy.isReference p.type = true := fun h =>
      nomatch (ctx.hierarchy.isReference_iff.1 h).1.symm.trans named
    rw [if_neg hnot]
    rfl
  | inline named =>
    have hnot : ¬ ctx.hierarchy.isReference p.type = true := fun h =>
      nomatch (ctx.hierarchy.isReference_iff.1 h).1.symm.trans named
    rw [if_neg hnot]
    rfl

/-- **The shared parameters that come with an operation** are those of its action. -/
theorem shared_of_operationOf {o : PlacedOperation} (h : ctx.OperationOf s a o) :
    o.shared = ctx.sharedBy a := by
  unfold sharedBy
  cases h with
  | body style =>
    rw [style]
  | query style each =>
    rw [style]
    exact (flatMap_eq_of_forall₂ each fun _ _ hpart => (shared_of_queryPartOf hpart).symm).symm

theorem path_of_operationOf {o : PlacedOperation} (h : ctx.OperationOf s a o) :
    o.path = actionPath s.id a.name := by
  cases h <;> rfl

theorem method_of_operationOf {o : PlacedOperation} (h : ctx.OperationOf s a o) :
    o.method = (ctx.styleOf a).method := by
  cases h <;> rfl

/-- The shared parameters of the parts are listed. -/
theorem keys_parameters (part : QueryPart) :
    part.parameters.filterMap OperationParameter.key? = part.shared.map Prod.fst := by
  cases part with
  | inline p => rfl
  | omitted => rfl
  | flattened p flats =>
    show (flats.map _).filterMap _ = (flats.map _).map _
    rw [List.filterMap_map, List.map_map]
    show flats.filterMap (some ∘ QueryPart.sharedKey p) = flats.map (QueryPart.sharedKey p)
    rw [List.filterMap_eq_map]

theorem keys_sessionParameter (a : Action) :
    (ctx.sessionParameter a).filterMap OperationParameter.key?
      = if a.sessionRequired then [ctx.requestParameters.session] else [] := by
  unfold sessionParameter
  split <;> rfl

theorem keys_attachedParameters :
    ctx.attachedParameters.filterMap OperationParameter.key? = ctx.requestParameters.attached := by
  unfold attachedParameters
  rw [List.filterMap_map]
  exact List.filterMap_some

/-- **An action in query style lists** the request-wide parameters and what it shares. -/
theorem keys_of_operationOf {o : PlacedOperation} (h : ctx.OperationOf s a o)
    (hstyle : ctx.styleOf a = .query) :
    o.operation.parameters.filterMap OperationParameter.key? = ctx.listedKeys a := by
  have hshared := shared_of_operationOf h
  cases h with
  | body style => exact nomatch style.symm.trans hstyle
  | @query parts responses style each answers =>
    have hparts : (parts.flatMap QueryPart.parameters).filterMap OperationParameter.key?
        = (parts.flatMap QueryPart.shared).map Prod.fst := by
      rw [List.filterMap_flatMap, List.map_flatMap]
      exact List.flatMap_congr fun part _ => keys_parameters part
    show (ctx.queryParameters a parts).filterMap _ = _
    unfold queryParameters listedKeys
    rw [List.filterMap_append, List.filterMap_append, keys_sessionParameter,
      keys_attachedParameters, hparts, ← hshared]

end OperationContext

/-! ## Assembled documents -/

section Assembled

variable {ctx : OperationContext} {actions : List (Service × Action)}
  {operations : List PlacedOperation}
  (hops : List.Forall₂ (fun e o => ctx.OperationOf e.1 e.2 o) actions operations)

theorem foldl_addShared (t : Table Json) : operations.foldl addShared t
    = t.insertAll (operations.flatMap fun o => o.shared.map fun (key, p) => (key, p.toJson)) := by
  induction operations generalizing t with
  | nil => rfl
  | cons o rest ih =>
    rw [List.foldl_cons, ih, List.flatMap_cons, Table.insertAll_append]
    rfl

/-- What is found under a path and a method once an operation is put in its place. -/
theorem field?_addOperation (paths : Table Json) (o : PlacedOperation) (path method : String) :
    ((addOperation paths o).get? path).bind (·.field? method)
      = if o.path == path && o.method == method then some o.operation.toJson
        else (paths.get? path).bind (·.field? method) := by
  unfold addOperation
  dsimp only
  rw [Table.get?_insert]
  by_cases hpath : path = o.path
  · subst hpath
    rw [if_pos rfl, beq_self_eq_true, Bool.true_and, Option.bind_some]
    change (Table.insert _ o.method o.operation.toJson).get? method = _
    rw [Table.get?_insert]
    by_cases hmethod : method = o.method
    · rw [if_pos hmethod, if_pos (beq_iff_eq.2 hmethod.symm)]
    · rw [if_neg hmethod, if_neg (fun h => hmethod (beq_iff_eq.1 h).symm)]
      -- what stood there before was an object of operations or no place for any
      cases paths.get? o.path with
      | none => rfl
      | some item => cases item <;> rfl
  · have hnot : ¬ (o.path == path && o.method == method) = true := fun h =>
      hpath (beq_iff_eq.1 (Bool.and_eq_true_iff.1 h).1).symm
    rw [if_neg hpath, if_neg hnot]

/-- **The operation under a path and a method** is the last one that was put there. -/
theorem field?_foldl_addOperation (operations : List PlacedOperation) (path method : String) :
    ((operations.foldl addOperation ∅).get? path).bind (·.field? method)
      = (operations.reverse.find? fun o => o.path == path && o.method == method).map
          (·.operation.toJson) := by
  induction operations using List.reverseRecOn with
  | nil => rfl
  | append_singleton operations o ih =>
    rw [List.foldl_append, List.reverse_append]
    show ((addOperation (operations.foldl addOperation ∅) o).get? path).bind _
      = ((o :: operations.reverse).find? _).map _
    rw [field?_addOperation, List.find?_cons]
    by_cases h : (o.path == path && o.method == method) = true
    · rw [if_pos h, h]
      rfl
    · rw [if_neg h, Bool.eq_false_iff.2 h]
      exact ih

theorem nodup_keys_foldl_addOperation (operations : List PlacedOperation) :
    (operations.foldl addOperation ∅).keys.Nodup :=
  List.foldlRecOn (motive := fun t => t.keys.Nodup) operations addOperation List.nodup_nil
    fun _ ht _ _ => Table.nodup_keys_insert ht _ _

theorem mem_operationsOf_addOperation {paths : Table Json} {o : PlacedOperation} {x : Json}
    (h : x ∈ operationsOf (addOperation paths o)) :
    x = o.operation.toJson ∨ x ∈ operationsOf paths := by
  obtain ⟨path, methods, hpath, method, hx⟩ := mem_operationsOf.1 h
  rcases Table.mem_entries_insert hpath with heq | hold
  · obtain ⟨-, hmethods⟩ := Prod.mk.inj heq
    rw [object.inj hmethods] at hx
    rcases Table.mem_entries_insert hx with hnew | hold
    · exact Or.inl (congrArg Prod.snd hnew)
    · split at hold
      · next methods' hget =>
        exact Or.inr (mem_operationsOf.2
          ⟨o.path, methods', Table.mem_entries_of_get? hget, method, hold⟩)
      · cases hold
  · exact Or.inr (mem_operationsOf.2 ⟨path, methods, hold, method, hx⟩)

/-- The operations that are put in place are among those given. -/
theorem exists_of_mem_operationsOf {x : Json}
    (h : x ∈ operationsOf (operations.foldl addOperation ∅)) :
    ∃ o ∈ operations, x = o.operation.toJson := by
  induction operations using List.reverseRecOn with
  | nil => cases h
  | append_singleton operations o ih =>
    rw [List.foldl_append] at h
    rcases mem_operationsOf_addOperation h with rfl | h
    · exact ⟨o, List.mem_append_right _ (List.mem_singleton.2 rfl), rfl⟩
    · obtain ⟨o', ho', hx⟩ := ih h
      exact ⟨o', List.mem_append_left _ ho', hx⟩

variable {schema : Schema} {definitions : Table Json}

include hops in
/-- **The shared parameters of an assembled document** are those of the schema. -/
theorem parameters_assemble :
    (SwaggerForge.assemble schema ctx definitions operations).parameters
      = ctx.sharedParameters actions := by
  have hshared : operations.flatMap (fun o => o.shared.map fun (key, p) => (key, p.toJson))
      = actions.flatMap fun e => (ctx.sharedBy e.2).map fun (key, p) => (key, p.toJson) := by
    refine (flatMap_eq_of_forall₂ hops fun e o ho => ?_).symm
    rw [OperationContext.shared_of_operationOf ho]
  show operations.foldl addShared ((∅ : Table Json).insertAll ctx.requestParameters.entries) = _
  rw [foldl_addShared, hshared]
  unfold OperationContext.sharedParameters Table.ofList
  rw [Table.insertAll_append]

include hops in
/-- What the operation under a path and `get` is made from. -/
theorem rel_standing? (path : String) :
    Option.Rel (fun e o => ctx.OperationOf e.1 e.2 o) (ctx.standing? actions path)
      (operations.reverse.find? fun o => o.path == path && o.method == "get") := by
  refine rel_find?_of_forall₂ (List.forall₂_reverse_iff.2 hops) fun e o ho => ?_
  rw [OperationContext.path_of_operationOf ho, OperationContext.method_of_operationOf ho]
  cases ctx.styleOf e.2 <;> rfl

theorem OperationContext.mem_of_standing? {path : String} {e : Service × Action}
    (h : ctx.standing? actions path = some e) :
    e ∈ actions ∧ actionPath e.1.id e.2.name = path ∧ ctx.styleOf e.2 = .query := by
  unfold standing? at h
  have hboth := List.find?_some h
  rw [Bool.and_eq_true_iff, beq_iff_eq, beq_iff_eq] at hboth
  exact ⟨List.mem_reverse.1 (List.mem_of_find?_eq_some h), hboth⟩

include hops in
/-- **What a path lists under `get`** is what the action that stands there lists. -/
theorem keysUnderGet_foldl_addOperation (path : String) :
    ((operations.foldl addOperation ∅).get? path).elim [] Upload.keysUnderGet
      = (ctx.standing? actions path).elim [] fun e => ctx.listedKeys e.2 := by
  have hget (item? : Option Json) : item?.elim [] Upload.keysUnderGet
      = (item?.bind (·.field? "get")).elim [] Upload.sharedKeys := by
    cases item? with
    | none => rfl
    | some item =>
      show Upload.keysUnderGet item = (item.field? "get").elim [] Upload.sharedKeys
      unfold Upload.keysUnderGet
      cases item.field? "get" <;> rfl
  have hrel := rel_standing? hops path
  rw [hget, field?_foldl_addOperation]
  -- both sides ask for the last operation that was put there
  generalize operations.reverse.find? (fun o => o.path == path && o.method == "get") = last
    at hrel ⊢
  generalize hstanding : ctx.standing? actions path = standing at hrel ⊢
  cases hrel with
  | none => rfl
  | @some e o ho =>
    obtain ⟨-, -, hstyle⟩ := OperationContext.mem_of_standing? hstanding
    show Upload.sharedKeys o.operation.toJson = ctx.listedKeys e.2
    rw [Operation.sharedKeys_toJson, OperationContext.keys_of_operationOf ho hstyle]

include hops in
/-- **What is listed under `get`** is listed by an action that stands. -/
theorem mem_keysUnderGet_assemble {key : String} :
    key ∈ (SwaggerForge.assemble schema ctx definitions operations).keysUnderGet ↔
      ∃ e ∈ actions, ctx.Stands actions e ∧ key ∈ ctx.listedKeys e.2 := by
  show key ∈ (operations.foldl addOperation ∅).values.flatMap Upload.keysUnderGet ↔ _
  have hkeys := nodup_keys_foldl_addOperation operations
  rw [List.mem_flatMap]
  constructor
  · rintro ⟨item, hitem, hkey⟩
    obtain ⟨path, hpath⟩ := Table.mem_values.1 hitem
    have hlisted := keysUnderGet_foldl_addOperation hops path
    rw [Table.get?_of_mem_entries hkeys hpath, Option.elim_some] at hlisted
    rw [hlisted] at hkey
    cases hstanding : ctx.standing? actions path with
    | none =>
      rw [hstanding] at hkey
      cases hkey
    | some e =>
      rw [hstanding] at hkey
      obtain ⟨hmem, rfl, -⟩ := OperationContext.mem_of_standing? hstanding
      exact ⟨e, hmem, hstanding, hkey⟩
  · rintro ⟨e, -, hstands, hkey⟩
    have hlisted := keysUnderGet_foldl_addOperation hops (actionPath e.1.id e.2.name)
    unfold OperationContext.Stands at hstands
    rw [hstands, Option.elim_some] at hlisted
    rw [← hlisted] at hkey
    cases hget : (operations.foldl addOperation ∅).get? (actionPath e.1.id e.2.name) with
    | none =>
      rw [hget] at hkey
      cases hkey
    | some item =>
      rw [hget] at hkey
      exact ⟨item, Table.mem_values.2 ⟨_, Table.mem_entries_of_get? hget⟩, hkey⟩

end Assembled

end SwaggerForge
