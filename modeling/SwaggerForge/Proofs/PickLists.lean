import SwaggerForge.Proofs.Credentials
import SwaggerForge.Proofs.Unannotated

/-!
# Where pick lists are offered

In a finished document a pick list is offered at two kinds of places: at a parameter that an
operation lists, and at a property of the body that it lists (`Document.Entry`). Everywhere else
the field for it is missing, unless it is a name that a schema or a configuration gave to something
(`Document.NamesAt`).

At these places it is offered exactly if one is configured for the operation and the name, and the
document has the operation that lists the objects to pick from. So all that is offered can be
picked.
-/

namespace SwaggerForge

open Json

namespace Document

/-- The address of a parameter that an operation lists. -/
def listedAt (path method : String) (i : Nat) : Address :=
  [.field "paths", .field path, .field method, .field "parameters", .item i]

/-- **The address of an object whose keys are names**, of parameters, enumerations, definitions,
properties or credentials. -/
inductive NamesAt : Address → Prop
  | parameters : NamesAt [.field "parameters"]
  | enums : NamesAt [.field "x-enums"]
  | definitions : NamesAt [.field "definitions"]
  | properties (name : String) :
      NamesAt [.field "definitions", .field name, .field "properties"]
  | body (path method : String) (i : Nat) :
      NamesAt (listedAt path method i ++ [.field "schema", .field "properties"])
  | credentials : NamesAt [.field "securityDefinitions"]
  | required (i : Nat) : NamesAt [.field "security", .item i]

/-- **An entry of an operation**, with its address, the path of the operation and its own name: a
parameter that is written where it is listed, or a property of a body. -/
inductive Entry (d : Document) : Address → String → String → Json → Prop
  | parameter {path method name : String} {i : Nat} {p : Json}
      (there : d.toJson.at? (listedAt path method i) = some p) (plain : p.field? "$ref" = none)
      (place : p.field? "in" ≠ some (.string "body"))
      (named : p.field? "name" = some (.string name)) :
      d.Entry (listedAt path method i) path name p
  | property {path method name : String} {i : Nat} {p q : Json}
      (there : d.toJson.at? (listedAt path method i) = some p)
      (place : p.field? "in" = some (.string "body"))
      (inside : p.at? [.field "schema", .field "properties", .field name] = some q)
      (plain : q.field? "$ref" = none) :
      d.Entry (listedAt path method i ++ [.field "schema", .field "properties", .field name])
        path name q

/-- **Where the field for pick lists may stand**: as a name, or at an entry of an operation. -/
def PickListAt (d : Document) (a : Address) : Prop :=
  NamesAt a ∨ ∃ path name q, d.Entry a path name q

/-- **A document with the pick lists of a configuration**, at the entries of operations and nowhere
else. -/
structure PickListsExact (config : Config) (d : Document) : Prop where
  /-- What stands anywhere else is a name. -/
  placed : d.toJson.FieldsAt "x-dynamicEnum" d.PickListAt
  /-- An entry has the pick list that is configured for it, or none. -/
  offered {a : Address} {path name : String} {q : Json} (entry : d.Entry a path name q) :
    Option.Rel (fun x l => d.Offers l x) (q.field? "x-dynamicEnum") (d.pickList? config path name)
  /-- What is no name leads to an operation of the document. -/
  resolves {a : Address} {x : Json} (there : d.toJson.at? (a ++ [.field "x-dynamicEnum"]) = some x)
    (entry : ¬ NamesAt a) : ∃ path method o, x.textField? "path" = some path ∧
      x.textField? "method" = some method ∧ d.operation? path method = some o

/-- An entry is what stands at its address. -/
theorem Entry.at?_eq {d : Document} {a : Address} {path name : String} {q : Json}
    (h : d.Entry a path name q) : d.toJson.at? a = some q := by
  cases h with
  | parameter there => exact there
  | property there _ inside =>
    rw [at?_append, there]
    exact inside

/-- **All pick lists lead somewhere**, as the configured ones do. -/
theorem pickListsExact_of {config : Config} {d : Document}
    (placed : d.toJson.FieldsAt "x-dynamicEnum" d.PickListAt)
    (offered : ∀ {a path name q}, d.Entry a path name q → Option.Rel (fun x l => d.Offers l x)
      (q.field? "x-dynamicEnum") (d.pickList? config path name)) : d.PickListsExact config where
  placed := placed
  offered := offered
  resolves {a x} there entry := by
    obtain ⟨path, name, q, hq⟩ := (placed a x there).resolve_left entry
    rw [at?_append, hq.at?_eq, Option.bind_some, at?_field] at there
    obtain ⟨y, hy, heq⟩ := Option.bind_eq_some_iff.1 there
    obtain rfl := Option.some.inj heq
    have hrel := offered hq
    rw [hy] at hrel
    cases hlist : d.pickList? config path name with
    | none =>
      rw [hlist] at hrel
      cases hrel
    | some l =>
      rw [hlist] at hrel
      cases hrel with
      | some hoffers =>
        obtain ⟨method, o, -, ho, rfl⟩ := hoffers
        exact ⟨_, method, o, rfl, rfl, ho⟩

/-! ## Sections -/

/-- **The sections of a document** stand in front of what its header has under their names. -/
theorem field?_toJson (d : Document) (key : String) : d.toJson.field? key
    = if key = "x-errors" then some (.array d.errors)
      else if key = "tags" then some (.array d.tags)
      else if key = "paths" then some (.object d.paths)
      else if key = "definitions" then some (.object d.definitions)
      else if key = "x-enums" then some d.enums
      else if key = "parameters" then some (.object d.parameters)
      else d.header.get? key := by
  show (d.header.insertAll _).get? key = _
  simp only [Table.insertAll, List.foldl_cons, List.foldl_nil, Table.get?_insert]

/-- **What is listed** under a method of a path. -/
theorem at?_listedAt (d : Document) (path method : String) (i : Nat) :
    d.toJson.at? (listedAt path method i)
      = (d.operation? path method).bind fun o => (Upload.parametersOf o)[i]? := by
  have hpaths : d.toJson.field? "paths" = some (.object d.paths) := by simp [field?_toJson]
  unfold listedAt operation?
  rw [at?_field, hpaths, Option.bind_some, at?_field, Option.bind_assoc]
  refine congrArg _ (funext fun item => congrArg _ (funext fun o => ?_))
  unfold Upload.parametersOf
  rw [at?_field]
  cases o.field? "parameters" with
  | none => rfl
  | some ps => cases ps <;> simp [item?]

theorem lists_of_at?_listedAt {d : Document} {path method : String} {i : Nat} {p : Json}
    (h : d.toJson.at? (listedAt path method i) = some p) : d.Lists path p := by
  rw [at?_listedAt] at h
  obtain ⟨o, ho, hp⟩ := Option.bind_eq_some_iff.1 h
  obtain ⟨item, hitem, hmethod⟩ := Option.bind_eq_some_iff.1 ho
  cases item with
  | object methods =>
    exact ⟨methods, hitem, o, Table.mem_values.2 ⟨method, Table.mem_entries_of_get? hmethod⟩,
      List.mem_of_getElem? hp⟩
  | _ => cases hmethod

end Document

/-! ## What is listed -/

/-- A parameter that is written where it is used travels where it did, marked or not. -/
theorem InlineParameter.field?_in (p : InlineParameter) {j : Json}
    (hj : j = p.toJson ∨ j = Upload.markInline p.toJson) :
    j.field? "in" = some (.string p.location) := by
  obtain rfl | rfl := hj
  · rfl
  · have hmark : Upload.markInline p.toJson = Upload.mark p.toJson := by
      unfold Upload.markInline
      rw [show Upload.sharedKey? p.toJson = none from
        (OperationParameter.inline p).sharedKey?_toJson]
    rw [hmark]
    by_cases hupload : p.toJson.field? "type" = some fileType
    · have hfile : p.value.type = .file := Primitive.eq_file_of_toJson (Option.some.inj hupload)
      rw [Upload.field?_mark_in hupload]
      unfold location
      rw [if_pos hfile]
    · unfold Upload.mark
      rw [if_neg fun h => hupload (Upload.isUpload_iff.1 h)]
      rfl

theorem InlineParameter.location_ne (p : InlineParameter) : p.location ≠ "body" := by
  unfold location
  split <;> simp

/-- Nothing is marked of a reference, and it gets no hints. -/
theorem parameter_of_shared (sources : List Hint.Source) (scope : Option String) {key : String}
    {j : Json} (hj : j = (OperationParameter.shared key).toJson ∨
      j = Upload.markInline (OperationParameter.shared key).toJson) :
    Hint.parameter sources scope j = parameterRef key := by
  obtain rfl | rfl := hj
  · rfl
  · unfold Upload.markInline
    rw [(OperationParameter.shared key).sharedKey?_toJson]
    rfl

theorem BodyProperty.exists_object (q : BodyProperty) : ∃ t, q.toJson = .object t := by
  cases q <;> exact ⟨_, rfl⟩

namespace Hint

variable (sources : List Source) (scope : Option String)

/-- **A body with hints**: nothing but its schema changes, and there nothing but the properties. -/
theorem exists_schema_of_body (b : Body) :
    (parameter sources scope b.toJson).LacksOutside "schema" "x-dynamicEnum" ∧
      ∃ s, (parameter sources scope b.toJson).field? "schema" = some s ∧
        s.LacksOutside "properties" "x-dynamicEnum" ∧ s.field? "properties"
          = some (properties sources scope (.object (b.properties.map BodyProperty.toJson))) := by
  obtain ⟨hbody, hinside⟩ := b.lacksOutside
  obtain ⟨s, hs, hproperties⟩ := b.exists_schema
  have hhinted : parameter sources scope b.toJson
      = setField "schema" (.object (schema sources scope s)) b.toJson :=
    parameter_of_schema sources scope rfl hs
  rw [hhinted, schema_eq]
  refine ⟨hbody.setField (by simp) (.inl rfl), _, rfl, (hinside _ hs).mapEntries ?_, ?_⟩
  · exact fun key x hkey hx => lacks_schemaField sources hkey scope hx
  · show (s.mapEntries _).get? "properties" = _
    rw [Table.get?_mapEntries, hproperties]
    rfl

/-- The properties of a body with hints, one by one. -/
theorem at?_property_parameter (b : Body) (name : String) : (parameter sources scope b.toJson).at?
      [.field "schema", .field "properties", .field name]
    = (b.properties.get? name).map fun q => hinted sources scope name q.toJson := by
  obtain ⟨-, s, hs, -, hproperties⟩ := exists_schema_of_body sources scope b
  rw [at?_field, hs, Option.bind_some, at?_field, hproperties, Option.bind_some, at?_field,
    field?_properties]
  show ((Table.get? (Table.map _ _) name).map _).bind _ = _
  rw [Table.get?_map, Option.map_map]
  cases b.properties.get? name <;> rfl

/-- A property that is no reference is offered what is found for it. -/
theorem field?_dynamicEnum_hinted {q : Json} {t : Table Json} (hobject : q = .object t)
    (hq : q.Lacks "x-dynamicEnum") (plain : q.field? "$ref" = none) (name : String) :
    (hinted sources scope name q).field? "x-dynamicEnum"
      = (found sources scope name).map Source.toJson := by
  subst hobject
  have hnone : (t.mapEntries (schemaField sources none)).get? "x-dynamicEnum" = none := by
    rw [Table.get?_mapEntries, Option.map_eq_none_iff]
    exact hq.field?_eq_none
  rw [hinted_object sources scope plain]
  show (annotateProperty sources name scope _).get? "x-dynamicEnum" = _
  rw [get?_dynamicEnum_annotateProperty, hnone, Option.or_none]

/-- **A parameter that is listed with its hints**: a reference, one that is written where it is
listed, or a body. None had a pick list before. -/
inductive Listed (path : String) : Json → Prop
  | shared (key : String) : Listed path (parameterRef key)
  | inline {t : Table Json} {name : String} (lacks : (Json.object t).Lacks "x-dynamicEnum")
      (plain : t.get? "$ref" = none) (place : t.get? "in" ≠ some (.string "body"))
      (named : t.get? "name" = some (.string name)) :
      Listed path (.object (annotateParameter sources name (some path) t))
  | body {b : Body} (lacks : ∀ e ∈ b.properties.entries, e.2.toJson.Lacks "x-dynamicEnum") :
      Listed path (parameter sources (some path) b.toJson)

end Hint

/-! ## What is offered -/

namespace Document

/-- **A document all of whose operations list parameters with hints.** -/
def ListsHinted (config : Config) (d : Document) : Prop :=
  ∀ path p, (d.finish config).Lists path p → Hint.Listed (d.pickSources config) path p

variable {config : Config} {d : Document}

/-- **An entry is offered what is found for it.** -/
theorem ListsHinted.found (hlisted : d.ListsHinted config) {a : Address} {path name : String}
    {q : Json} (entry : (d.finish config).Entry a path name q) : q.field? "x-dynamicEnum"
      = (Hint.found (d.pickSources config) (some path) name).map Hint.Source.toJson := by
  cases entry with
  | @parameter _ method _ i _ there plain place named =>
    cases hlisted path q (lists_of_at?_listedAt there) with
    | shared key => cases plain
    | @inline t name' lacks _ _ named' =>
      have hname : name' = name := by
        change (Hint.annotateParameter _ name' _ t).get? "name" = _ at named
        rw [Hint.get?_annotateParameter _ _ (by decide), named'] at named
        exact Json.string.inj (Option.some.inj named)
      subst hname
      show (Hint.annotateParameter _ name' _ t).get? "x-dynamicEnum" = _
      rw [Hint.get?_dynamicEnum_annotateParameter,
        show t.get? "x-dynamicEnum" = none from lacks.field?_eq_none, Option.or_none]
    | body => exact absurd rfl place
  | @property _ method _ i p _ there place inside plain =>
    cases hlisted path p (lists_of_at?_listedAt there) with
    | shared key => cases place
    | @inline t name' lacks _ place' _ =>
      change (Hint.annotateParameter _ name' _ t).get? "in" = _ at place
      rw [Hint.get?_annotateParameter _ _ (by decide)] at place
      exact absurd place place'
    | @body b lacks =>
      rw [Hint.at?_property_parameter] at inside
      obtain ⟨y, hy, rfl⟩ := Option.map_eq_some_iff.1 inside
      obtain ⟨t, ht⟩ := y.exists_object
      rw [Hint.field?_hinted _ _ (by decide)] at plain
      have hlacks := lacks _ (Table.mem_entries_of_get? hy)
      exact Hint.field?_dynamicEnum_hinted _ _ ht hlacks plain name

/-- **An entry has the pick list that is configured for it**, or none. -/
theorem ListsHinted.offered (hlisted : d.ListsHinted config) (hitems : d.HasPathItems)
    {a : Address} {path name : String} {q : Json} (entry : (d.finish config).Entry a path name q) :
    Option.Rel (fun x l => (d.finish config).Offers l x) (q.field? "x-dynamicEnum")
      ((d.finish config).pickList? config path name) := by
  rw [hlisted.found entry, pickSources_eq]
  exact (hitems.finish config).rel_found path name

/-! ## Where it is offered -/

/-- **At what is listed** a pick list is offered to entries only. -/
theorem ListsHinted.fieldsAt (hlisted : d.ListsHinted config) {path method : String} {i : Nat}
    {p : Json} (there : (d.finish config).toJson.at? (listedAt path method i) = some p) :
    p.FieldsAt "x-dynamicEnum" fun a =>
      (d.finish config).PickListAt (listedAt path method i ++ a) := by
  cases hlisted path p (lists_of_at?_listedAt there) with
  | shared key => exact (lacks_reference _).fieldsAt
  | @inline t name lacks plain place named =>
    have hkept {key : String} (hkey : key ∉ Hint.hintKeys) : (Json.object
        (Hint.annotateParameter (d.pickSources config) name (some path) t)).field? key
          = t.get? key :=
      Hint.get?_annotateParameter _ _ hkey name t
    have hentry : (d.finish config).Entry (listedAt path method i) path name _ :=
      .parameter there ((hkept (by decide)).trans plain)
        (fun h => place ((hkept (by decide)).symm.trans h))
        ((hkept (by decide)).trans named)
    rw [Hint.annotateParameter_eq]
    refine Hint.fieldsAt_insertAll lacks
      (fun _ he => Hint.isHint_of_mem_parameterHints _ _ he) (.inr ?_)
    rw [List.append_nil]
    exact ⟨path, name, _, hentry⟩
  | @body b lacks =>
    have hplace : (Hint.parameter (d.pickSources config) (some path) b.toJson).field? "in"
        = some (.string "body") := by
      rw [Hint.field?_parameter _ _ (by decide) (by decide)]
      rfl
    obtain ⟨houtside, s, hs, hschema, hproperties⟩ :=
      Hint.exists_schema_of_body (d.pickSources config) (some path) b
    refine houtside.fieldsAt fun x hx => ?_
    obtain rfl := Option.some.inj (hs.symm.trans hx)
    refine hschema.fieldsAt fun x hx => ?_
    obtain rfl := Option.some.inj (hproperties.symm.trans hx)
    rw [Hint.properties_object]
    refine fieldsAt_object (fun _ _ => .inl (.body path method i)) fun name x hx => ?_
    rw [Table.get?_mapEntries, Table.get?_map, Option.map_map] at hx
    obtain ⟨q, hq, rfl⟩ := Option.map_eq_some_iff.1 hx
    refine Hint.fieldsAt_hinted _ _ (lacks _ (Table.mem_entries_of_get? hq)) name fun plain => ?_
    have hinside := Hint.at?_property_parameter (d.pickSources config) (some path) b name
    rw [hq] at hinside
    refine .inr ⟨path, name, _, .property there hplace hinside ?_⟩
    rw [Hint.field?_hinted _ _ (by decide)]
    exact plain

/-- **An operation that offers no pick list** outside the list of its parameters. -/
structure Silent (o : Json) : Prop where
  outside : o.LacksOutside "parameters" "x-dynamicEnum"
  list : ∃ ps, o.field? "parameters" = some (.array ps)

/-- Finishing an operation puts pick lists nowhere but in that list. -/
theorem Silent.operation {o : Json} (h : Silent o) (sources : List Hint.Source) (path : String) :
    Silent (Hint.operation sources path (responsesWithoutFiles o)) ∧
      Silent (Hint.operation sources path (Upload.promoted (responsesWithoutFiles o))) := by
  obtain ⟨ps, hps⟩ := h.list
  have hfree : (responsesWithoutFiles o).field? "parameters" = some (.array ps) := by
    unfold responsesWithoutFiles
    rw [field?_modifyField, if_neg (by decide), hps]
  have hpromoted : (Upload.promoted (responsesWithoutFiles o)).field? "parameters"
      = some (.array (ps.map Upload.markInline)) := by
    unfold Upload.promoted
    rw [field?_setField_of_ne (by decide), field?_modifyField, if_pos rfl, hfree]
    rfl
  have hhinted {o : Json} {ps : List Json} (houtside : o.LacksOutside "parameters" "x-dynamicEnum")
      (hps : o.field? "parameters" = some (.array ps)) :
      Silent (Hint.operation sources path o) := by
    refine ⟨houtside.modifyField (.inl rfl), ps.map (Hint.parameter sources (some path)), ?_⟩
    unfold Hint.operation
    rw [field?_modifyField, if_pos rfl, hps]
    rfl
  have houtside := lacksOutside_responsesWithoutFiles h.outside
  exact ⟨hhinted houtside hfree, hhinted (lacksOutside_promoted houtside) hpromoted⟩

/-- **Under paths** a pick list is offered to entries of operations only. -/
theorem ListsHinted.fieldsAt_paths (hlisted : d.ListsHinted config) (hitems : d.HasPathItems)
    (hnames : "x-dynamicEnum" ∉ d.paths.keys) (hoperations : ∀ o ∈ operationsOf d.paths, Silent o) :
    (object (d.finish config).paths).FieldsAt "x-dynamicEnum" fun a =>
      (d.finish config).PickListAt (.field "paths" :: a) := by
  refine fieldsAt_object (fun x hx => ?_) fun path item hitem => ?_
  · rw [← keys_paths_finish d config] at hnames
    exact absurd (Table.mem_keys_iff_get?.2 ⟨x, hx⟩) hnames
  · obtain ⟨query?, body?, hform⟩ := hitems.finish config path item hitem
    obtain ⟨methods, rfl⟩ := hform.exists_object
    refine fieldsAt_object (fun x hx => ?_) fun method o ho => ?_
    · exact nomatch (hform.field?_eq_none (by simp) (by simp)).symm.trans hx
    · have hmem : o ∈ methods.values :=
        Table.mem_values.2 ⟨method, Table.mem_entries_of_get? ho⟩
      obtain ⟨o', ho', hfinished⟩ := exists_of_mem_finished hitems hitem hmem
      have hsilent : Silent o := by
        have hboth := (hoperations o' ho').operation (d.pickSources config) path
        obtain rfl | rfl := hfinished
        · exact hboth.1
        · exact hboth.2
      obtain ⟨ps, hps⟩ := hsilent.list
      refine hsilent.outside.fieldsAt fun x hx => ?_
      obtain rfl := Option.some.inj (hps.symm.trans hx)
      refine fieldsAt_array fun i p hp => hlisted.fieldsAt ?_
      have hoperation : (d.finish config).operation? path method = some o := by
        unfold operation?
        rw [hitem]
        exact ho
      rw [at?_listedAt, hoperation, Option.bind_some]
      unfold Upload.parametersOf
      rw [hps]
      exact hp

end Document

section Assembled

variable {config : Config} {schema : Schema} {ctx : OperationContext} {definitions : Table Json}
  {operations : List PlacedOperation}
  (hctx : OperationContext.Of config schema ctx)
  (hops : List.Forall₂ (fun e o => ctx.OperationOf e.1 e.2 o)
    (includedActions config schema.services) operations)
include hctx hops

/-- **The operations of an assembled document** list parameters with hints. -/
theorem listsHinted_assemble :
    (SwaggerForge.assemble schema ctx definitions operations).ListsHinted config := by
  intro path p h
  have hplain := EnumCatalog.plain_of_ofDecls hctx.enums
  obtain ⟨s, a, placed, hof, q, hq, j, hj, rfl⟩ := exists_hinted_of_lists hops h
  have hoffered := OperationContext.offered_parameters hof q hq
  cases q with
  | shared key =>
    rw [parameter_of_shared _ _ hj]
    exact .shared key
  | inline p =>
    have hpassed := (OperationParameter.inline p).passed hj
    have hname : j.textField? "name" = some p.name := hpassed.textField? (by simp)
    have href : j.field? "$ref" = none :=
      (hpassed.field? _ (by simp)).trans (p.field?_toJson_eq_none (by decide))
    have hschema : j.field? "schema" = none :=
      (hpassed.field? _ (by simp)).trans (p.field?_toJson_eq_none (by decide))
    have hlacks : j.Lacks "x-dynamicEnum" := by
      have hwritten := lacks_inline hplain hoffered
      obtain rfl | rfl := hj
      · exact hwritten
      · exact lacks_markInline hwritten
    obtain ⟨t, rfl, hannotated⟩ := Hint.exists_annotated
      ((SwaggerForge.assemble schema ctx definitions operations).pickSources config) (some path)
      hname href hschema
    rw [hannotated]
    have hplace := p.field?_in hj
    exact .inline hlacks href (fun hbody => p.location_ne (Json.string.inj
        (Option.some.inj (hplace.symm.trans hbody))))
      ((hpassed.field? "name" (by simp)).trans rfl)
  | body b =>
    rw [((OperationParameter.body b).passed hj).body b rfl]
    exact .body fun e he => lacks_bodyProperty hplain (hoffered e he)

omit hctx hops in
theorem hasPathItems_assemble :
    (SwaggerForge.assemble schema ctx definitions operations).HasPathItems :=
  fun _ _ hitem => exists_pathItem hitem

omit hctx in
/-- The operations of actions offer no pick list by themselves. -/
theorem silent_of_operationOf {o : Json}
    (ho : o ∈ operationsOf (SwaggerForge.assemble schema ctx definitions operations).paths) :
    Document.Silent o := by
  obtain ⟨placed, hplaced, rfl⟩ := exists_of_mem_operationsOf ho
  obtain ⟨e, -, hof⟩ := exists_left_of_forall₂ hops hplaced
  exact ⟨lacksOutside_operation hof, _, placed.operation.field?_parameters⟩

omit hctx in
/-- No action has the name of the field for a path. -/
theorem not_mem_keys_paths :
    "x-dynamicEnum" ∉ (SwaggerForge.assemble schema ctx definitions operations).paths.keys := by
  refine Table.get?_eq_none_iff.1 (get?_foldl_addOperation_of_ne (fun o ho hpath => ?_) ∅)
  obtain ⟨e, -, hof⟩ := exists_left_of_forall₂ hops ho
  have hslash := congrArg (String.toList · |>.head?)
    ((OperationContext.path_of_operationOf hof).symm.trans hpath)
  simp [actionPath] at hslash

omit hctx hops in
/-- **In the header** the names of credentials are left open. -/
theorem fieldsAt_header {ok : Address → Prop} (apiVersion : String)
    (credentials : ok [.field "securityDefinitions"])
    (required : ∀ i, ok [.field "security", .item i]) {key : String} {x : Json}
    (hx : (Header.ofConfig config apiVersion).get? key = some x) :
    key ≠ "x-dynamicEnum" ∧ x.FieldsAt "x-dynamicEnum" fun a => ok (.field key :: a) := by
  -- an object with one field, whose name is that of the credential
  have hnamed {ok : Address → Prop} (self : ok []) {name : String} {x : Json}
      (hlacks : x.Lacks "x-dynamicEnum") :
      (fields [(name, x)]).FieldsAt "x-dynamicEnum" ok := by
    refine fieldsAt_object (fun _ _ => self) fun k y hy => ?_
    obtain ⟨-, rfl⟩ := Prod.mk.inj (List.mem_singleton.1 (Table.mem_entries_of_get? hy))
    exact hlacks.fieldsAt
  have hmem := Table.mem_entries_of_get? hx
  simp only [Header.ofConfig, List.mem_cons, Prod.mk.injEq, List.not_mem_nil, or_false] at hmem
  obtain ⟨rfl, rfl⟩ | ⟨rfl, rfl⟩ | ⟨rfl, rfl⟩ | ⟨rfl, rfl⟩ | ⟨rfl, rfl⟩ | ⟨rfl, rfl⟩ | ⟨rfl, rfl⟩ |
    ⟨rfl, rfl⟩ := hmem
  · exact ⟨by simp, (lacks_string _).fieldsAt⟩
  · exact ⟨by simp, (lacks_strings _).fieldsAt⟩
  · exact ⟨by simp, (lacks_string _).fieldsAt⟩
  · exact ⟨by simp, (lacks_string _).fieldsAt⟩
  · exact ⟨by simp, (lacks_info _ _).fieldsAt⟩
  · exact ⟨by simp, (lacks_strings _).fieldsAt⟩
  · refine ⟨by simp, fieldsAt_array fun i y hy => ?_⟩
    obtain rfl := List.mem_singleton.1 (List.mem_of_getElem? hy)
    exact hnamed (required i) (by simp)
  · exact ⟨by simp, hnamed credentials (lacks_securityScheme config)⟩

/-- **Shared parameters** are not offered pick lists. -/
theorem lacks_of_get?_parameters {key : String} {p : Json}
    (hp : ((SwaggerForge.assemble schema ctx definitions operations).finish
      config).parameters.get? key = some p) : p.Lacks "x-dynamicEnum" := by
  obtain ⟨sources, hfinish⟩ := Document.get?_parameters_finish
    (SwaggerForge.assemble schema ctx definitions operations) config
  rw [hfinish, parameters_assemble hops] at hp
  obtain ⟨q, hq, rfl⟩ := Option.map_eq_some_iff.1 hp
  have hwritten := lacks_sharedParameters hctx (Table.mem_entries_of_get? hq)
  refine Hint.lacks_parameter sources ?_
  split
  · exact lacks_mark hwritten
  · exact hwritten

omit hops in
/-- **In a definition** the names of properties are left open. -/
theorem fieldsAt_definition {ok : Address → Prop}
    (hdefs : definitionSection config schema.apiVersion ctx.flattening.definitions
      = .ok definitions) {name : String} {s : Json}
    (hs : ((SwaggerForge.assemble schema ctx definitions operations).finish
      config).definitions.get? name = some s) (properties : ok [.field "properties"]) :
    s.FieldsAt "x-dynamicEnum" ok := by
  rw [Document.get?_definitions_finish] at hs
  obtain ⟨j, hj, rfl⟩ := Option.map_eq_some_iff.1 hs
  have hwritten := Declarations.writesDefinition_of_get?_definitionSection hctx.built hdefs hj
  refine (Hint.lacksOutside_nested _ hwritten.lacksOutside).fieldsAt fun x hx => ?_
  rw [Hint.field?_nested, field?_withoutFiles, Option.map_map] at hx
  obtain ⟨y, hy, rfl⟩ := Option.map_eq_some_iff.1 hx
  obtain ⟨ps, rfl, hps⟩ :=
    hwritten.exists_properties (EnumCatalog.plain_of_ofDecls hctx.enums) hy
  show (Hint.properties _ none (propertiesWithoutFiles (.object ps))).FieldsAt _ _
  rw [propertiesWithoutFiles_object, Hint.properties_object]
  refine fieldsAt_object (fun _ _ => properties) fun k x hx => ?_
  rw [Table.get?_mapEntries, Table.get?_map, Option.map_map] at hx
  obtain ⟨z, hz, rfl⟩ := Option.map_eq_some_iff.1 hx
  have hlacks := lacks_withoutFiles (hps _ (Table.mem_entries_of_get? hz))
  exact (Hint.lacks_hinted_of_nested _ hlacks (Hint.lacks_nested _ hlacks) k).fieldsAt

/-- **In an assembled document** that is finished, pick lists are offered to entries only. -/
theorem placed_assemble
    (hdefs : definitionSection config schema.apiVersion ctx.flattening.definitions
      = .ok definitions) :
    ((SwaggerForge.assemble schema ctx definitions operations).finish config).toJson.FieldsAt
      "x-dynamicEnum"
      ((SwaggerForge.assemble schema ctx definitions operations).finish config).PickListAt := by
  have hplain := EnumCatalog.plain_of_ofDecls hctx.enums
  set d := SwaggerForge.assemble schema ctx definitions operations with hd
  have hsections : ∀ key x, (d.finish config).toJson.field? key = some x → key ≠ "x-dynamicEnum" ∧
      x.FieldsAt "x-dynamicEnum" fun a => (d.finish config).PickListAt (.field key :: a) := by
    intro key x hx
    rw [Document.field?_toJson] at hx
    split_ifs at hx with herrors htags hpaths hdefinitions henums hparameters
    · obtain rfl := Option.some.inj hx
      refine ⟨by simp [herrors], (lacks_array.2 fun e he => ?_).fieldsAt⟩
      obtain ⟨error, -, rfl⟩ := List.mem_map.1 he
      exact lacks_error error
    · obtain rfl := Option.some.inj hx
      refine ⟨by simp [htags], (lacks_array.2 fun t ht => ?_).fieldsAt⟩
      obtain ⟨⟨_, _⟩, hmem, rfl⟩ := List.mem_map.1 ht
      obtain ⟨s, -, hs⟩ := List.mem_map.1 (List.mem_mergeSort.1 hmem)
      rw [← (Prod.mk.inj hs).2]
      exact lacks_tag s
    · obtain rfl := Option.some.inj hx
      subst hpaths
      exact ⟨by simp, (listsHinted_assemble hctx hops).fieldsAt_paths hasPathItems_assemble
        (not_mem_keys_paths hops) fun o ho => silent_of_operationOf hops ho⟩
    · obtain rfl := Option.some.inj hx
      subst hdefinitions
      refine ⟨by simp, fieldsAt_object (fun _ _ => .inl .definitions) fun name s hs => ?_⟩
      exact fieldsAt_definition hctx hdefs hs (.inl (.properties name))
    · obtain rfl := Option.some.inj hx
      subst henums
      refine ⟨by simp, fieldsAt_object (fun _ _ => .inl .enums) fun name e he => ?_⟩
      obtain ⟨entry, hentry, rfl⟩ :=
        Option.map_eq_some_iff.1 ((Table.get?_mapEntries _ _ _).symm.trans he)
      exact (lacks_catalog hplain (Table.mem_entries_of_get? hentry)).fieldsAt
    · obtain rfl := Option.some.inj hx
      subst hparameters
      refine ⟨by simp, fieldsAt_object (fun _ _ => .inl .parameters) fun key p hp => ?_⟩
      exact (lacks_of_get?_parameters hctx hops hp).fieldsAt
    · exact fieldsAt_header schema.apiVersion (.inl .credentials) (fun i => .inl (.required i)) hx
  exact fieldsAt_object (fun x hx => absurd rfl (hsections _ x hx).1) fun key x hx =>
    (hsections key x hx).2

end Assembled

/-- **Compiled documents have the pick lists of their configuration.** The field for a pick list
stands at an entry of an operation, or it is a name. An entry has one exactly if the configuration
has one for its path and name whose objects the document lists, and it is made from the first such
one and leads to the operation that lists them. -/
theorem pickListsExact_compile {config : Config} {schema : Schema} {d : Document}
    (h : (compile config schema).result = .ok d) : d.PickListsExact config := by
  obtain ⟨ctx, definitions, operations, hof, hdefs, hops, rfl⟩ := compile_eq_ok h
  have hctx := OperationContext.of_ofSchema hof
  exact Document.pickListsExact_of (placed_assemble hctx hops hdefs)
    ((listsHinted_assemble hctx hops).offered hasPathItems_assemble)

/-- The schema of an API whose media are got by an identifier, and can be listed. -/
def mediaSchema : Schema where
  apiVersion := "1.0"
  services := [{
    id := "media"
    name := "media"
    actions := [{ name := "get", parameters := [{ name := "entryId", type := "string" }] },
      { name := "list" }] }]

/-- **Media are picked by their names**, which is configured unless it is changed. -/
theorem offers_mediaSchema : ∃ d a q x, (compile {} mediaSchema).result = .ok d ∧
    d.PickListsExact {} ∧ d.Entry a (actionPath "media" "get") "entryId" q ∧
    q.field? "x-dynamicEnum" = some x ∧
    d.Offers { parameter := "entryId", service := "media", label := "name" } x := by
  have hdocument : ∃ d p q l, (compile {} mediaSchema).result = .ok d ∧
      d.toJson.at? (Document.listedAt (actionPath "media" "get") "post" 3) = some p ∧
      p.field? "in" = some (.string "body") ∧
      p.at? [.field "schema", .field "properties", .field "entryId"] = some q ∧
      q.field? "$ref" = none ∧
      d.pickList? {} (actionPath "media" "get") "entryId" = some l ∧
      l = { parameter := "entryId", service := "media", label := "name" } :=
    ⟨_, _, _, _, rfl, rfl, rfl, rfl, rfl, rfl, rfl⟩
  obtain ⟨d, p, q, l, hd, there, place, inside, plain, hl, rfl⟩ := hdocument
  have hexact := pickListsExact_compile hd
  have hentry := Document.Entry.property there place inside plain
  have hrel := hexact.offered hentry
  rw [hl] at hrel
  cases hx : q.field? "x-dynamicEnum" with
  | none =>
    rw [hx] at hrel
    cases hrel
  | some x =>
    rw [hx] at hrel
    cases hrel with
    | some hoffers => exact ⟨d, _, q, x, hd, hexact, hentry, hx, hoffers⟩

end SwaggerForge
