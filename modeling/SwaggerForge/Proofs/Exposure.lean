import SwaggerForge.Proofs.PickLists

/-!
# The same parameter in a body and in a query

An action without uploads can be compiled in either style. A parameter of a primitive type is then
a property of the body, or a parameter of its own in the query, and both are given hints by its
name: how a value is entered, and what it can be picked from.

Both are offered the same pick lists. How a value is entered is the same as well, save for one
case: a secret or a date that can be picked. In the body it is entered as a secret or as a date, in
the query as any other value, because there the pick list is offered last
(`Document.exposures_compile`).
-/

namespace SwaggerForge

open Json

/-! ## How a value is entered -/

namespace Hint

/-- A secret is no date. -/
theorem isDateProperty_of_isSecret {name : String} (h : isSecret name = true) :
    isDateProperty name = false := by
  unfold isSecret at h
  rw [Bool.or_eq_true, beq_iff_eq, beq_iff_eq] at h
  obtain rfl | rfl := h
  · decide
  · decide

/-- **A parameter is a date as a property is**, unless its name ends like a bracket path. -/
theorem isDateParameter_eq {name : String} (h : name.toList.getLast? ≠ some ']') :
    isDateParameter name = isDateProperty name := by
  have hpath : textBefore? "Date]" name = none := by
    refine if_neg fun hsuffix => h ?_
    obtain ⟨front, hfront⟩ := List.isSuffixOf_iff_suffix.1 hsuffix
    rw [← hfront, List.getLast?_append]
    rfl
  unfold isDateParameter
  rw [hpath]
  exact Bool.or_false _

/-- A value that is picked is entered neither as a secret nor as a date. -/
theorem inputType_ne (type : Option Json) :
    inputType type ≠ "password" ∧ inputType type ≠ "datetime" := by
  unfold inputType
  split <;> simp

/-- How a value of a name is entered that is not picked. -/
def plainInput (name : String) : Option Json :=
  if isSecret name then some (.string "password")
  else if isDateProperty name then some (.string "datetime")
  else none

/-- **How a property is entered**: the name decides before the pick list does. -/
def propertyInput (name : String) (picked : Bool) (type : Json) : Option Json :=
  (plainInput name).or (if picked then some (.string (inputType (some type))) else none)

/-- **How a parameter is entered**: the pick list decides before the name does. -/
def parameterInput (name : String) (picked : Bool) (type : Json) : Option Json :=
  (if picked then some (.string (inputType (some type))) else none).or (plainInput name)

/-- **Which of the two decides** matters if both do. -/
theorem propertyInput_eq_iff {name : String} {picked : Bool} {type : Json} :
    propertyInput name picked type = parameterInput name picked type ↔
      ¬ (picked = true ∧ (isSecret name = true ∨ isDateProperty name = true)) := by
  obtain ⟨hpassword, hdatetime⟩ := inputType_ne (some type)
  unfold propertyInput parameterInput plainInput
  cases picked <;> cases isSecret name <;> cases isDateProperty name <;>
    simp [hpassword.symm, hdatetime.symm]

end Hint

/-! ## What an action lists -/

namespace OperationContext

variable {ctx : OperationContext} {s : Service} {a : Action}

/-- The properties that every body has replace none of an action. -/
theorem get?_addRequestProperties {extra : List (String × String)} {t : Table BodyProperty}
    {name : String} {q : BodyProperty} (h : t.get? name = some q) :
    (addRequestProperties extra t).get? name = some q := by
  unfold addRequestProperties
  refine List.foldlRecOn (motive := fun t : Table BodyProperty => t.get? name = some q) extra _ h
    fun t ht e _ => ?_
  split
  · exact ht
  · next hnew =>
    have hne : name ≠ e.1 := by
      rintro rfl
      exact hnew (Table.contains_iff.2 (Table.mem_keys_iff_get?.2 ⟨q, ht⟩))
    rw [Table.get?_insert, if_neg hne]
    exact ht

/-- A type that is named like a primitive one is that one. -/
theorem exists_value_of_bodyProperty {p : Parameter} {type : Primitive}
    (htype : Primitive.ofName? p.type = some type) {q : BodyProperty}
    (h : (ctx.bodyProperty a p).result = .ok q) :
    ∃ v items, q = .value v items ∧ v.type = type := by
  unfold bodyProperty at h
  obtain ⟨meant, hmeant, h⟩ := Report.result_bind_eq_ok.1 h
  rw [Report.result_liftM, Hierarchy.resolve_of_ofName? _ htype] at hmeant
  obtain rfl := Except.ok.inj hmeant
  obtain ⟨items, -, h⟩ := Report.result_bind_eq_ok.1 h
  obtain ⟨⟨default, enum⟩, -, h⟩ := Report.result_bind_eq_ok.1 h
  obtain rfl := Except.ok.inj h
  exact ⟨_, items, rfl, rfl⟩

/-- **Each parameter is a property of the body.** -/
theorem exists_property_of_body {b : Body} (h : (ctx.body a).result = .ok b)
    (hnames : (a.parameters.map (·.name)).Nodup) {p : Parameter} (hp : p ∈ a.parameters) :
    ∃ q, (ctx.bodyProperty a p).result = .ok q ∧ b.properties.get? p.name = some q := by
  unfold body at h
  obtain ⟨properties, hprops, h⟩ := Report.result_bind_eq_ok.1 h
  obtain rfl := Except.ok.inj h
  have heach : List.Forall₂ (fun p e => e.1 = p.name ∧ (ctx.bodyProperty a p).result = .ok e.2)
      a.parameters properties := by
    refine (Report.result_mapM_eq_ok.1 hprops).imp fun p e he => ?_
    obtain ⟨q, hq, he⟩ := Report.result_bind_eq_ok.1 he
    obtain rfl := Except.ok.inj he
    exact ⟨rfl, hq⟩
  rw [map_eq_of_forall₂ (g := Prod.fst) heach fun _ _ h => h.1.symm] at hnames
  obtain ⟨⟨name, q⟩, he, rfl, hq⟩ := exists_right_of_forall₂ heach hp
  exact ⟨q, hq, get?_addRequestProperties (Table.get?_ofList_of_mem hnames he)⟩

/-- **A parameter of a primitive type in a body** is a value, and all else that is listed is
shared. -/
theorem exists_value_of_bodyParameters {ps : List OperationParameter}
    (h : (ctx.bodyParameters a).result = .ok ps) (hnames : (a.parameters.map (·.name)).Nodup)
    {p : Parameter} (hp : p ∈ a.parameters) {type : Primitive}
    (htype : Primitive.ofName? p.type = some type) : ∃ b v items, .body b ∈ ps ∧
      b.properties.get? p.name = some (.value v items) ∧ v.type = type ∧
      ∀ q ∈ ps, (∃ key, q = .shared key) ∨ q = .body b := by
  unfold bodyParameters at h
  dsimp only at h
  split at h
  · next hnone =>
    rw [hnone] at hp
    cases hp
  · obtain ⟨b, hb, h⟩ := Report.result_bind_eq_ok.1 h
    obtain rfl := Except.ok.inj h
    obtain ⟨q, hq, hproperty⟩ := exists_property_of_body hb hnames hp
    obtain ⟨v, items, rfl, hvalue⟩ := exists_value_of_bodyProperty htype hq
    refine ⟨b, v, items, List.mem_append_right _ (List.mem_singleton.2 rfl), hproperty, hvalue,
      fun q hq => ?_⟩
    rcases List.mem_append.1 hq with hq | hq
    · obtain ⟨key, hkey, -⟩ := ctx.mem_leadingParameters hq
      exact .inl ⟨key, hkey⟩
    · exact .inr (List.mem_singleton.1 hq)

/-- **A parameter of a primitive type in a query** is written where it is used, unless it is an
array, and nothing else of its name is. -/
theorem exists_inline_of_queryParts {parts : List QueryPart}
    (each : List.Forall₂ (ctx.QueryPartOf a) a.parameters parts)
    (hnames : (a.parameters.map (·.name)).Nodup) {p : Parameter} (hp : p ∈ a.parameters)
    {type : Primitive} (htype : Primitive.ofName? p.type = some type) (harray : type ≠ .array) :
    (∃ q, .inline q ∈ ctx.queryParameters a parts ∧ q.name = p.name ∧ q.value.type = type) ∧
      ∀ q ∈ ctx.queryParameters a parts, (∃ key, q = .shared key) ∨
        ∃ q', q = .inline q' ∧ (q'.name = p.name → q'.value.type = type) := by
  -- a parameter of the name is the parameter, which is neither flattened nor left out
  have hvalue {part : QueryPart} (hpart : ctx.QueryPartOf a p part) :
      ∃ q, part = .inline q ∧ q.name = p.name ∧ q.value.type = type := by
    cases hpart with
    | flattened reference =>
      exact nomatch (ctx.hierarchy.isReference_iff.1 reference).1.symm.trans htype
    | omitted named => exact absurd (Option.some.inj (htype.symm.trans named)) harray
    | inline named => exact ⟨_, rfl, rfl, Option.some.inj (named.symm.trans htype)⟩
  constructor
  · obtain ⟨part, hpart, hof⟩ := exists_right_of_forall₂ each hp
    obtain ⟨q, rfl, hname, htype⟩ := hvalue hof
    refine ⟨q, List.mem_append_right _ (List.mem_flatMap.2 ⟨_, hpart, ?_⟩), hname, htype⟩
    exact List.mem_singleton.2 rfl
  · intro q hq
    rcases ctx.mem_queryParameters hq with ⟨key, rfl, -⟩ | ⟨part, hpart, hq⟩
    · exact .inl ⟨key, rfl⟩
    · obtain ⟨p', hp', hof⟩ := exists_left_of_forall₂ each hpart
      cases hof with
      | flattened =>
        obtain ⟨flat, -, rfl⟩ := List.mem_map.1 hq
        exact .inl ⟨_, rfl⟩
      | omitted => cases hq
      | inline named literal =>
        refine .inr ⟨_, List.mem_singleton.1 hq, fun hname => ?_⟩
        obtain rfl : p' = p := List.inj_on_of_nodup_map hnames hp' hp hname
        exact Option.some.inj (named.symm.trans htype)

end OperationContext

/-! ## The one operation under a path -/

/-- **What is listed under a path with one operation**: its parameters, each perhaps marked, with
hints. -/
theorem Document.exists_listed_alone {d : Document} {path : String} {o : PlacedOperation}
    (h : d.paths.get? path = some (fields [(o.method, o.operation.toJson)])) (config : Config) :
    ∃ f : OperationParameter → Json, (∀ q, f q = q.toJson ∨ f q = Upload.markInline q.toJson) ∧
      ∀ p, (∃ method i, (d.finish config).toJson.at? (listedAt path method i) = some p) ↔
        ∃ q ∈ o.operation.parameters,
          p = Hint.parameter (d.pickSources config) (some path) (f q) := by
  obtain ⟨method, operation, hitem, hform⟩ := exists_finished_alone config h
  have hlisted : ∃ f : OperationParameter → Json,
      (∀ q, f q = q.toJson ∨ f q = Upload.markInline q.toJson) ∧ Upload.parametersOf operation
        = o.operation.parameters.map fun q =>
            Hint.parameter (d.pickSources config) (some path) (f q) := by
    obtain rfl | rfl := hform
    · refine ⟨OperationParameter.toJson, fun q => .inl rfl, ?_⟩
      rw [parametersOf_hints, Operation.parametersOf_toJson, List.map_map]
      rfl
    · refine ⟨fun q => Upload.markInline q.toJson, fun q => .inr rfl, ?_⟩
      rw [parametersOf_hints_promoted, Operation.parametersOf_toJson, List.map_map]
      rfl
  obtain ⟨f, hf, hparameters⟩ := hlisted
  refine ⟨f, hf, fun p => ?_⟩
  have hlist : (∃ method i, (d.finish config).toJson.at? (listedAt path method i) = some p) ↔
      p ∈ Upload.parametersOf operation := by
    constructor
    · rintro ⟨method', i, hp⟩
      rw [at?_listedAt] at hp
      obtain ⟨o', ho', hp⟩ := Option.bind_eq_some_iff.1 hp
      unfold operation? at ho'
      rw [hitem] at ho'
      obtain ⟨-, rfl⟩ := Prod.mk.inj (List.mem_singleton.1 (Table.mem_entries_of_get? ho'))
      exact List.mem_of_getElem? hp
    · intro hp
      obtain ⟨i, hi⟩ := List.mem_iff_getElem?.1 hp
      refine ⟨method, i, ?_⟩
      have hoperation : (d.finish config).operation? path method = some operation := by
        unfold operation?
        rw [hitem]
        exact List.lookup_cons_self
      rw [at?_listedAt, hoperation]
      exact hi
  rw [hlist, hparameters, List.mem_map]
  exact exists_congr fun q => and_congr_right fun _ => eq_comm

/-! ## Hints on entries -/

namespace Hint

variable (sources : List Source) (scope : Option String)

/-- **A value in a body** is entered as a property. -/
theorem field?_inputType_hinted (v : ValueSchema) (items : Option TypeSchema) (name : String) :
    (hinted sources scope name (BodyProperty.value v items).toJson).field? "x-inputType"
      = propertyInput name (found sources scope name).isSome v.type.toJson := by
  obtain ⟨t, ht⟩ := (BodyProperty.value v items).exists_object
  have hread (key : String) : t.get? key = (BodyProperty.value v items).toJson.field? key := by
    rw [ht]
    rfl
  have href : t.get? "$ref" = none :=
    (hread "$ref").trans (BodyProperty.field?_toJson_eq_none v items (by decide))
  have hinput : t.get? "x-inputType" = none :=
    (hread "x-inputType").trans (BodyProperty.field?_toJson_eq_none v items (by decide))
  have htype : t.get? "type" = some v.type.toJson := hread "type"
  rw [ht, hinted_object sources scope href]
  show (annotateProperty sources name scope _).get? "x-inputType" = _
  rw [get?_inputType_annotateProperty, Table.get?_mapEntries, Table.get?_mapEntries, hinput, htype]
  unfold propertyInput plainInput
  cases found sources scope name <;> cases isSecret name <;> cases isDateProperty name <;> rfl

/-- **What is written where it is used** is entered as a parameter. -/
theorem field?_inputType_parameter {j : Json} {name : String} {type : Json}
    (hname : j.textField? "name" = some name) (href : j.field? "$ref" = none)
    (hschema : j.field? "schema" = none) (hinput : j.field? "x-inputType" = none)
    (htype : j.field? "type" = some type) (hbracket : name.toList.getLast? ≠ some ']') :
    (parameter sources scope j).field? "x-inputType"
      = parameterInput name (found sources scope name).isSome type := by
  obtain ⟨t, rfl, hannotated⟩ := exists_annotated sources scope hname href hschema
  rw [hannotated]
  show (annotateParameter sources name scope t).get? "x-inputType" = _
  rw [get?_inputType_annotateParameter, isDateParameter_eq hbracket,
    show t.get? "x-inputType" = none from hinput, show t.get? "type" = some type from htype]
  unfold parameterInput plainInput
  cases hsecret : isSecret name with
  | true =>
    rw [isDateProperty_of_isSecret hsecret]
    cases found sources scope name <;> rfl
  | false => cases found sources scope name <;> cases isDateProperty name <;> rfl

end Hint

/-! ## Exposures -/

namespace Document

/-- **The two exposures of a parameter**: a property of a body in one document, and a parameter in
the query in another. -/
structure Exposures (inBody inQuery : Document) (path name : String) : Prop where
  /-- It is a property of a body. -/
  body : ∃ method i x, inBody.Entry
    (listedAt path method i ++ [.field "schema", .field "properties", .field name]) path name x
  /-- It is a parameter of its own. -/
  query : ∃ method i y, inQuery.Entry (listedAt path method i) path name y ∧
    y.field? "in" = some (.string "query")
  /-- **Both are offered a pick list or neither is.** -/
  lists {a b : Address} {x y : Json} (hx : inBody.Entry a path name x)
    (hy : inQuery.Entry b path name y) :
    (x.field? "x-dynamicEnum").isSome = (y.field? "x-dynamicEnum").isSome
  /-- **Both are entered alike**, unless it is a secret or a date that can be picked. -/
  inputs {a b : Address} {x y : Json} (hx : inBody.Entry a path name x)
    (hy : inQuery.Entry b path name y) :
    x.field? "x-inputType" = y.field? "x-inputType" ↔
      ¬ ((x.field? "x-dynamicEnum").isSome = true ∧
        (Hint.isSecret name = true ∨ Hint.isDateProperty name = true))

section Alone

variable (config : Config) {d : Document} {path name : String} {o : PlacedOperation}
  (h : d.paths.get? path = some (fields [(o.method, o.operation.toJson)]))
include h

/-- **The entry of a value in a body.** -/
theorem entry_of_body {b : Body} {v : ValueSchema} {items : Option TypeSchema}
    (hb : .body b ∈ o.operation.parameters) (hget : b.properties.get? name = some (.value v items))
    (hothers : ∀ q ∈ o.operation.parameters, (∃ key, q = .shared key) ∨ q = .body b) :
    (∃ method i x, (d.finish config).Entry
      (listedAt path method i ++ [.field "schema", .field "properties", .field name]) path name x) ∧
    ∀ a x, (d.finish config).Entry a path name x →
      x = Hint.hinted (d.pickSources config) (some path) name
        (BodyProperty.value v items).toJson := by
  obtain ⟨f, hf, hlisted⟩ := exists_listed_alone h config
  have hbody : f (.body b) = b.toJson := ((OperationParameter.body b).passed (hf _)).body b rfl
  have hinside : (Hint.parameter (d.pickSources config) (some path) b.toJson).at?
      [.field "schema", .field "properties", .field name] = some (Hint.hinted (d.pickSources config)
        (some path) name (BodyProperty.value v items).toJson) := by
    rw [Hint.at?_property_parameter, hget]
    rfl
  have hplace : (Hint.parameter (d.pickSources config) (some path) b.toJson).field? "in"
      = some (.string "body") :=
    Hint.field?_parameter _ _ (by decide) (by decide) _
  have hplain : (Hint.hinted (d.pickSources config) (some path) name
      (BodyProperty.value v items).toJson).field? "$ref" = none :=
    (Hint.field?_hinted _ _ (by decide) _ _).trans
      (BodyProperty.field?_toJson_eq_none v items (by decide))
  constructor
  · obtain ⟨method, i, hi⟩ := (hlisted _).2 ⟨_, hb, rfl⟩
    rw [hbody] at hi
    exact ⟨method, i, _, .property hi hplace hinside hplain⟩
  · intro a x hentry
    cases hentry with
    | parameter there plain place =>
      obtain ⟨q, hq, rfl⟩ := (hlisted _).1 ⟨_, _, there⟩
      obtain ⟨key, rfl⟩ | rfl := hothers q hq
      · rw [parameter_of_shared _ _ (hf _)] at plain
        cases plain
      · rw [hbody] at place
        exact absurd hplace place
    | property there place inside =>
      obtain ⟨q, hq, rfl⟩ := (hlisted _).1 ⟨_, _, there⟩
      obtain ⟨key, rfl⟩ | rfl := hothers q hq
      · rw [parameter_of_shared _ _ (hf _)] at place
        cases place
      · rw [hbody] at inside
        exact Option.some.inj (inside.symm.trans hinside)

/-- **The entries of parameters in a query.** -/
theorem entry_of_query {q : InlineParameter} (hq : .inline q ∈ o.operation.parameters)
    (hname : q.name = name) (hfile : q.value.type ≠ .file)
    (hothers : ∀ r ∈ o.operation.parameters, (∃ key, r = .shared key) ∨
      ∃ r', r = .inline r' ∧ (r'.name = name → r'.value.type = q.value.type)) :
    (∃ method i y, (d.finish config).Entry (listedAt path method i) path name y ∧
      y.field? "in" = some (.string "query")) ∧
    ∀ a y, (d.finish config).Entry a path name y → ∃ r j, OperationParameter.Passed (.inline r) j ∧
      r.name = name ∧ r.value.type = q.value.type ∧
      y = Hint.parameter (d.pickSources config) (some path) j := by
  obtain ⟨f, hf, hlisted⟩ := exists_listed_alone h config
  have hpassed (r : InlineParameter) : (OperationParameter.inline r).Passed (f (.inline r)) :=
    (OperationParameter.inline r).passed (hf _)
  have hplain (r : InlineParameter) : (Hint.parameter (d.pickSources config) (some path)
      (f (.inline r))).field? "$ref" = none := by
    rw [Hint.field?_parameter _ _ (by decide) (by decide), (hpassed r).field? _ (by simp)]
    exact r.field?_toJson_eq_none (by decide)
  have hplace (r : InlineParameter) : (Hint.parameter (d.pickSources config) (some path)
      (f (.inline r))).field? "in" = some (.string r.location) := by
    rw [Hint.field?_parameter _ _ (by decide) (by decide)]
    exact r.field?_in (hf _)
  have hnamed (r : InlineParameter) : (Hint.parameter (d.pickSources config) (some path)
      (f (.inline r))).field? "name" = some (.string r.name) := by
    rw [Hint.field?_parameter _ _ (by decide) (by decide), (hpassed r).field? _ (by simp)]
    rfl
  have hbody (r : InlineParameter) : (Hint.parameter (d.pickSources config) (some path)
      (f (.inline r))).field? "in" ≠ some (.string "body") := by
    rw [hplace]
    exact fun hbody => r.location_ne (Json.string.inj (Option.some.inj hbody))
  constructor
  · obtain ⟨method, i, hi⟩ := (hlisted _).2 ⟨_, hq, rfl⟩
    have hquery : q.location = "query" := if_neg hfile
    exact ⟨method, i, _, .parameter hi (hplain q) (hbody q) (hname ▸ hnamed q), hquery ▸ hplace q⟩
  · intro a y hentry
    cases hentry with
    | parameter there plain place named =>
      obtain ⟨r, hr, rfl⟩ := (hlisted _).1 ⟨_, _, there⟩
      obtain ⟨key, rfl⟩ | ⟨r, rfl, htype⟩ := hothers r hr
      · rw [parameter_of_shared _ _ (hf _)] at plain
        cases plain
      · have hsame := Json.string.inj (Option.some.inj ((hnamed r).symm.trans named))
        exact ⟨r, _, hpassed r, hsame, htype hsame, rfl⟩
    | property there place inside =>
      obtain ⟨r, hr, rfl⟩ := (hlisted _).1 ⟨_, _, there⟩
      obtain ⟨key, rfl⟩ | ⟨r, rfl, -⟩ := hothers r hr
      · rw [parameter_of_shared _ _ (hf _)] at place
        cases place
      · exact absurd place (hbody r)

end Alone

/-- **Documents with the same paths** have the same pick lists configured. -/
theorem pickList?_congr {config config' : Config} {d d' : Document}
    (hlists : config'.pickLists = config.pickLists)
    (hpaths : ∀ path, d'.paths.contains path = d.paths.contains path) (path name : String) :
    d'.pickList? config' path name = d.pickList? config path name := by
  unfold pickList?
  simp only [hlists, hpaths]

end Document

/-! ## Compiled documents -/

section Assembled

variable {config : Config} {schema : Schema} {ctx : OperationContext} {definitions : Table Json}
  {operations : List PlacedOperation} {actions : List (Service × Action)}
  (hops : List.Forall₂ (fun e o => ctx.OperationOf e.1 e.2 o) actions operations)
include hops

/-- **The paths of a document** are those of its actions, in whatever style. -/
theorem contains_paths_finish (path : String) :
    ((SwaggerForge.assemble schema ctx definitions operations).finish config).paths.contains path
      = actions.any fun e => actionPath e.1.id e.2.name == path := by
  have hkeys (t : Table Json) : path ∈ (operations.foldl addOperation t).keys ↔
      path ∈ t.keys ∨ ∃ o ∈ operations, o.path = path := by
    clear hops
    induction operations generalizing t with
    | nil => simp
    | cons o rest ih =>
      rw [List.foldl_cons, ih]
      unfold addOperation
      rw [Table.mem_keys_insert, List.exists_mem_cons_iff, or_assoc, or_left_comm, @eq_comm _ path]
  rw [Bool.eq_iff_iff, Table.contains_iff, Document.keys_paths_finish, List.any_eq_true]
  refine (hkeys ∅).trans ((or_iff_right List.not_mem_nil).trans ⟨?_, ?_⟩)
  · rintro ⟨o, ho, rfl⟩
    obtain ⟨e, he, hof⟩ := exists_left_of_forall₂ hops ho
    exact ⟨e, he, beq_iff_eq.2 (OperationContext.path_of_operationOf hof).symm⟩
  · rintro ⟨e, he, hpath⟩
    obtain ⟨o, ho, hof⟩ := exists_right_of_forall₂ hops he
    exact ⟨o, ho, (OperationContext.path_of_operationOf hof).trans (beq_iff_eq.1 hpath)⟩

end Assembled

/-- What is offered in a compiled document is what is configured, and what is listed under its
paths. -/
theorem Document.isSome_pickList_of_entry {config : Config} {schema : Schema} {d : Document}
    (h : (compile config schema).result = .ok d) {a : Address} {path name : String} {q : Json}
    (entry : d.Entry a path name q) :
    (q.field? "x-dynamicEnum").isSome = (d.pickList? config path name).isSome ∧
      ∀ path, d.paths.contains path = (includedActions config schema.services).any fun e =>
        actionPath e.1.id e.2.name == path := by
  obtain ⟨ctx, definitions, operations, hof, -, hops, rfl⟩ := compile_eq_ok h
  have hlisted : (SwaggerForge.assemble schema ctx definitions operations).ListsHinted config :=
    listsHinted_assemble (OperationContext.of_ofSchema hof) hops
  have hrel := hlisted.offered hasPathItems_assemble entry
  refine ⟨?_, contains_paths_finish hops⟩
  generalize q.field? "x-dynamicEnum" = x? at hrel
  generalize Document.pickList? config _ path name = l? at hrel
  cases hrel with
  | none => rfl
  | some => rfl

section Compiled

variable {config : Config} {schema : Schema} {before after : List (Service × Action)} {s : Service}
  {a : Action}
  (hin : includedActions config schema.services = before ++ (s, a) :: after)
  (halone : ∀ e ∈ before ++ after, actionPath e.1.id e.2.name ≠ actionPath s.id a.name)
include hin halone

/-- **An action that shares its path with no other one** has the one operation there, in the
document that is finished. -/
theorem exists_alone_of_compile {d : Document} (h : (compile config schema).result = .ok d) :
    ∃ ctx, ∃ o : PlacedOperation, ∃ written : Document, d = written.finish config ∧
      OperationContext.Of config schema ctx ∧ written.ListsHinted config ∧ ctx.OperationOf s a o ∧
      written.paths.get? (actionPath s.id a.name)
        = some (fields [(o.method, o.operation.toJson)]) := by
  obtain ⟨ctx, definitions, operations, hof, -, hops, rfl⟩ := compile_eq_ok h
  have hctx := OperationContext.of_ofSchema hof
  have hlisted : (SwaggerForge.assemble schema ctx definitions operations).ListsHinted config :=
    listsHinted_assemble hctx hops
  rw [hin] at hops
  obtain ⟨o, ho, hstands⟩ := exists_operation_alone hops halone
  exact ⟨ctx, o, _, rfl, hctx, hlisted, ho, hstands⟩

variable (hnames : (a.parameters.map (·.name)).Nodup)
  {p : Parameter} (hp : p ∈ a.parameters) {type : Primitive}
  (htype : Primitive.ofName? p.type = some type)
include hnames hp htype

/-- **In body style** the parameter is a property of the body, entered as properties are. -/
theorem Document.entered_body {d : Document} (h : (compile config schema).result = .ok d)
    (hstyle : config.styleOf a = .body) :
    (∃ method i x, d.Entry
      (listedAt (actionPath s.id a.name) method i ++
        [.field "schema", .field "properties", .field p.name]) (actionPath s.id a.name) p.name x) ∧
    ∀ b x, d.Entry b (actionPath s.id a.name) p.name x → x.field? "x-inputType"
      = Hint.propertyInput p.name (x.field? "x-dynamicEnum").isSome type.toJson := by
  obtain ⟨ctx, o, written, rfl, hctx, hlisted, ho, hstands⟩ := exists_alone_of_compile hin halone h
  have hlists : ∃ b v items, .body b ∈ o.operation.parameters ∧
      b.properties.get? p.name = some (.value v items) ∧ v.type = type ∧
      ∀ q ∈ o.operation.parameters, (∃ key, q = .shared key) ∨ q = .body b := by
    cases ho with
    | query style => exact nomatch (hctx.styleOf_eq a ▸ style).symm.trans hstyle
    | body style each =>
      exact OperationContext.exists_value_of_bodyParameters each hnames hp htype
  obtain ⟨b, v, items, hb, hget, rfl, hothers⟩ := hlists
  obtain ⟨hexists, hunique⟩ := entry_of_body config hstands hb hget hothers
  refine ⟨hexists, fun c x hx => ?_⟩
  rw [hlisted.found hx, Option.isSome_map, hunique c x hx]
  exact Hint.field?_inputType_hinted _ _ v items p.name

/-- **In query style** it is a parameter in the query, entered as parameters are. -/
theorem Document.entered_query {d : Document} (h : (compile config schema).result = .ok d)
    (hstyle : config.styleOf a = .query) (hfile : type ≠ .file) (harray : type ≠ .array)
    (hbracket : p.name.toList.getLast? ≠ some ']') :
    (∃ method i y, d.Entry (listedAt (actionPath s.id a.name) method i) (actionPath s.id a.name)
      p.name y ∧ y.field? "in" = some (.string "query")) ∧
    ∀ b y, d.Entry b (actionPath s.id a.name) p.name y → y.field? "x-inputType"
      = Hint.parameterInput p.name (y.field? "x-dynamicEnum").isSome type.toJson := by
  obtain ⟨ctx, o, written, rfl, hctx, hlisted, ho, hstands⟩ := exists_alone_of_compile hin halone h
  have hlists : (∃ q, .inline q ∈ o.operation.parameters ∧ q.name = p.name ∧ q.value.type = type) ∧
      ∀ q ∈ o.operation.parameters, (∃ key, q = .shared key) ∨
        ∃ q', q = .inline q' ∧ (q'.name = p.name → q'.value.type = type) := by
    cases ho with
    | body style => exact nomatch (hctx.styleOf_eq a ▸ style).symm.trans hstyle
    | query style each =>
      exact OperationContext.exists_inline_of_queryParts each hnames hp htype harray
  obtain ⟨⟨q, hq, hname, rfl⟩, hothers⟩ := hlists
  obtain ⟨hexists, hentries⟩ := entry_of_query config hstands hq hname hfile hothers
  refine ⟨hexists, fun b y hy => ?_⟩
  obtain ⟨r, j, hpassed, hr, hrtype, heq⟩ := hentries b y hy
  have hnone {key : String} (hkey : key ∉ ["name", "in", "type", "required", "description"] ++
      ValueSchema.constraintKeys) : j.field? key = none := by
    refine (hpassed.field? key fun hin => hkey ?_).trans (r.field?_toJson_eq_none hkey)
    rw [hin]
    decide
  have htext : j.textField? "name" = some r.name := hpassed.textField? (by simp)
  have htype : j.field? "type" = some q.value.type.toJson := by
    rw [hpassed.field? _ (by simp), ← hrtype]
    rfl
  rw [hlisted.found hy, Option.isSome_map, heq, ← hr]
  exact Hint.field?_inputType_parameter _ _ htext (hnone (by decide)) (hnone (by decide))
    (hnone (by decide)) htype (hr ▸ hbracket)

omit hin halone hnames hp htype in
/-- **An action compiled in both styles.** A parameter of a primitive type is a property of the
body in one document and a parameter in the query in the other. It is offered a pick list in both or
in neither, and it is entered alike, unless it is a secret or a date that can be picked. -/
theorem Document.exposures_compile {inBody inQuery : Document}
    (hbody : (compile { config with style := .body } schema).result = .ok inBody)
    (hquery : (compile { config with style := .query } schema).result = .ok inQuery)
    (hin : includedActions config schema.services = before ++ (s, a) :: after)
    (halone : ∀ e ∈ before ++ after, actionPath e.1.id e.2.name ≠ actionPath s.id a.name)
    (hfile : a.hasFile = false) (hnames : (a.parameters.map (·.name)).Nodup)
    (hp : p ∈ a.parameters) (hbracket : p.name.toList.getLast? ≠ some ']')
    (htype : Primitive.ofName? p.type = some type) (harray : type ≠ .array) :
    Exposures inBody inQuery (actionPath s.id a.name) p.name := by
  have hvalue : type ≠ .file := by
    rintro rfl
    have hupload : a.hasFile = true :=
      List.any_eq_true.2 ⟨p, hp, beq_iff_eq.2 (Primitive.ofName?_eq_file htype)⟩
    exact Bool.false_ne_true (hfile.symm.trans hupload)
  have hbodyStyle : ({ config with style := .body } : Config).styleOf a = .body := by
    unfold Config.styleOf
    rw [hfile]
    rfl
  have hqueryStyle : ({ config with style := .query } : Config).styleOf a = .query := by
    unfold Config.styleOf
    rw [hfile]
    rfl
  have hinBody : includedActions { config with style := .body } schema.services
      = before ++ (s, a) :: after := hin
  have hinQuery : includedActions { config with style := .query } schema.services
      = before ++ (s, a) :: after := hin
  obtain ⟨hproperty, hx⟩ := entered_body hinBody halone hnames hp htype hbody hbodyStyle
  obtain ⟨hparameter, hy⟩ :=
    entered_query hinQuery halone hnames hp htype hquery hqueryStyle hvalue harray hbracket
  have hlists {b c : Address} {x y : Json} (hx : inBody.Entry b (actionPath s.id a.name) p.name x)
      (hy : inQuery.Entry c (actionPath s.id a.name) p.name y) :
      (x.field? "x-dynamicEnum").isSome = (y.field? "x-dynamicEnum").isSome := by
    obtain ⟨hpicked, hpaths⟩ := isSome_pickList_of_entry hbody hx
    obtain ⟨hpicked', hpaths'⟩ := isSome_pickList_of_entry hquery hy
    rw [hpicked, hpicked']
    exact congrArg Option.isSome (pickList?_congr rfl
      (fun path => (hpaths path).trans (hpaths' path).symm) _ _)
  refine ⟨hproperty, hparameter, hlists, fun hentry hentry' => ?_⟩
  rw [hx _ _ hentry, hy _ _ hentry', ← hlists hentry hentry']
  exact Hint.propertyInput_eq_iff

end Compiled

/-- The schema of an API whose users log in with a password, and can be listed. -/
def loginSchema : Schema where
  apiVersion := "1.0"
  services := [{
    id := "user"
    name := "user"
    actions := [{ name := "login", parameters := [{ name := "password", type := "string" }] },
      { name := "list" }] }]

/-- A configuration that has passwords picked. -/
def pickedPasswords : Config where
  pickLists := [{ parameter := "password", service := "user", action := "login", label := "name" }]

/-- **A password that can be picked** is hidden in the body and shown in the query. -/
theorem exposures_loginSchema : ∃ inBody inQuery a b x y,
    (compile { pickedPasswords with style := .body } loginSchema).result = .ok inBody ∧
    (compile { pickedPasswords with style := .query } loginSchema).result = .ok inQuery ∧
    Document.Exposures inBody inQuery (actionPath "user" "login") "password" ∧
    inBody.Entry a (actionPath "user" "login") "password" x ∧
    inQuery.Entry b (actionPath "user" "login") "password" y ∧
    x.field? "x-inputType" = some (.string "password") ∧
    y.field? "x-inputType" = some (.string "text") := by
  have hinBody : ∃ d p x,
      (compile { pickedPasswords with style := .body } loginSchema).result = .ok d ∧
      d.toJson.at? (Document.listedAt (actionPath "user" "login") "post" 3) = some p ∧
      p.field? "in" = some (.string "body") ∧
      p.at? [.field "schema", .field "properties", .field "password"] = some x ∧
      x.field? "$ref" = none ∧ x.field? "x-inputType" = some (.string "password") :=
    ⟨_, _, _, rfl, rfl, rfl, rfl, rfl, rfl⟩
  have hinQuery : ∃ d y,
      (compile { pickedPasswords with style := .query } loginSchema).result = .ok d ∧
      d.toJson.at? (Document.listedAt (actionPath "user" "login") "get" 3) = some y ∧
      y.field? "$ref" = none ∧ y.field? "in" = some (.string "query") ∧
      y.field? "name" = some (.string "password") ∧
      y.field? "x-inputType" = some (.string "text") :=
    ⟨_, _, rfl, rfl, rfl, rfl, rfl, rfl⟩
  obtain ⟨inBody, p, x, hbody, hp, place, inside, plain, hx⟩ := hinBody
  obtain ⟨inQuery, y, hquery, hy, plain', place', named, hinput⟩ := hinQuery
  have hexposures := @Document.exposures_compile pickedPasswords loginSchema [] _ _ _ _ .string
    inBody inQuery hbody hquery rfl (by decide) rfl (by decide) (List.mem_singleton.2 rfl)
    (by decide) rfl (by simp)
  have hquery' : y.field? "in" ≠ some (.string "body") := by
    rw [place']
    simp
  exact ⟨inBody, inQuery, _, _, x, y, hbody, hquery, hexposures, .property hp place inside plain,
    .parameter hy plain' hquery' named, hx, hinput⟩

end SwaggerForge
