import SwaggerForge.Proofs.Credentials
import SwaggerForge.Proofs.FormFiles
import SwaggerForge.Proofs.PathItems

/-!
# What parameters take up in a request

A parameter takes up a name in one part of a request, its slot: a query, a form or a body.
An operation whose parameters do not have slots of their own cannot be called as it is
described (`Document.WithoutClashes`).

The finishing passes move uploads from the query to the form, also shared ones that other
operations refer to, and they move operations in the place of others. What is left can be
told from the schema all the same: `OperationContext.slots` has the slots of the operation
of an action, `OperationContext.Remains` the actions whose operations are left, and
`withoutClashes_assemble_iff` puts the two together.
-/

namespace SwaggerForge

open Json

/-! ## Slots -/

/-- **What a parameter takes up in a request**: its name, in the part where it travels. -/
def Json.slot? (p : Json) : Option (String × String) :=
  (p.textField? "name").bind fun name => (p.textField? "in").map (name, ·)

namespace Document

/-- The slot of a listed parameter, its own or that of the shared one that it refers to. -/
def slot? (d : Document) (p : Json) : Option (String × String) :=
  match Upload.sharedKey? p with
  | some key => (d.parameters.get? key).bind Json.slot?
  | none => p.slot?

/-- **A document without clashes**: the parameters of each operation have slots of their
own. -/
def WithoutClashes (d : Document) : Prop :=
  ∀ o ∈ operationsOf d.paths, ((Upload.parametersOf o).filterMap d.slot?).Nodup

end Document

namespace OperationParameter

/-- The slot of a parameter of an operation, given those of the shared parameters. -/
def slot? (shared : String → Option (String × String)) :
    OperationParameter → Option (String × String)
  | .shared key => shared key
  | .inline p => some (p.name, p.location)
  | .body _ => some ("body", "body")

theorem slot?_toJson (d : Document) (p : OperationParameter) :
    d.slot? p.toJson = p.slot? fun key => (d.parameters.get? key).bind Json.slot? := by
  unfold Document.slot?
  rw [p.sharedKey?_toJson]
  cases p <;> rfl

end OperationParameter

/-! ## What finishing does to slots -/

theorem Hint.slot?_parameter (sources : List Hint.Source) (scope : Option String) (p : Json) :
    (Hint.parameter sources scope p).slot? = p.slot? := by
  unfold Json.slot? textField?
  rw [Hint.field?_parameter sources scope (by decide) (by decide),
    Hint.field?_parameter sources scope (by decide) (by decide)]

/-- Hints leave the slots of listed parameters alone. -/
theorem Document.slot?_hints (d : Document) (sources : List Hint.Source) (scope : Option String)
    (p : Json) : d.slot? (Hint.parameter sources scope p) = d.slot? p := by
  unfold slot? Upload.sharedKey? textField?
  rw [Hint.field?_parameter sources scope (by decide) (by decide), Hint.slot?_parameter]

/-- **A parameter that is marked** goes to the form if it is an upload. -/
theorem Upload.slot?_mark (p : Json) : (Upload.mark p).slot? =
    if Upload.isUpload p then (p.textField? "name").map (·, "formData") else p.slot? := by
  split
  · next hupload =>
    unfold Json.slot? textField?
    rw [Upload.field?_mark_of_ne (by decide), Upload.field?_mark_in (Upload.isUpload_iff.1 hupload)]
    cases (p.field? "name").bind string? <;> rfl
  · next hupload =>
    unfold Upload.mark
    rw [if_neg hupload]

/-- An upload that is written inline is form data already. -/
theorem InlineParameter.slot?_mark (p : InlineParameter) :
    (Upload.mark p.toJson).slot? = p.toJson.slot? := by
  rw [Upload.slot?_mark]
  split
  · next hupload =>
    have hfile : p.value.type = .file :=
      Primitive.eq_file_of_toJson (Option.some.inj (Upload.isUpload_iff.1 hupload))
    have hlocation : p.location = "formData" := if_pos hfile
    show some (p.name, "formData") = some (p.name, p.location)
    rw [hlocation]
  · rfl

/-- Neither references nor bodies are uploads. -/
theorem OperationParameter.slot?_markInline (d : Document) (p : OperationParameter) :
    d.slot? (Upload.markInline p.toJson) = d.slot? p.toJson := by
  unfold Upload.markInline
  rw [p.sharedKey?_toJson]
  cases p with
  | shared key => rfl
  | body b => rfl
  | inline p =>
    have hkey : Upload.sharedKey? p.toJson = none := (OperationParameter.inline p).sharedKey?_toJson
    have hmarked : Upload.sharedKey? (Upload.mark p.toJson) = none := by
      unfold Upload.sharedKey? textField?
      rw [Upload.field?_mark_of_ne (by decide), p.field?_toJson_eq_none (by decide)]
      rfl
    show d.slot? (Upload.mark p.toJson) = d.slot? p.toJson
    unfold Document.slot?
    rw [hkey, hmarked]
    exact p.slot?_mark

/-- **The slots of a finished operation** are those that it was given, whether it stays. -/
theorem Operation.slots_hints (d : Document) (sources : List Hint.Source) (path : String)
    (o : Operation) : (Upload.parametersOf
      (Hint.operation sources path (responsesWithoutFiles o.toJson))).filterMap d.slot?
        = o.parameters.filterMap fun p => d.slot? p.toJson := by
  rw [parametersOf_hints, o.parametersOf_toJson, List.filterMap_map, List.filterMap_map]
  exact List.filterMap_congr fun p _ => d.slot?_hints sources _ _

/-- Or is moved. -/
theorem Operation.slots_hints_promoted (d : Document) (sources : List Hint.Source) (path : String)
    (o : Operation) : (Upload.parametersOf
      (Hint.operation sources path (Upload.promoted (responsesWithoutFiles o.toJson)))).filterMap
        d.slot? = o.parameters.filterMap fun p => d.slot? p.toJson := by
  rw [parametersOf_hints_promoted, o.parametersOf_toJson, List.filterMap_map, List.filterMap_map]
  refine List.filterMap_congr fun p _ => ?_
  exact (d.slot?_hints sources _ _).trans (p.slot?_markInline d)

/-! ## The slots of actions -/

namespace OperationContext

variable (ctx : OperationContext)

/-- The keys of the shared parameters that actions list in operations under `get`. -/
def keysUnderGet (actions : List (Service × Action)) : List String :=
  actions.flatMap fun e =>
    (ctx.standing? actions (actionPath e.1.id e.2.name)).elim [] fun x => ctx.listedKeys x.2

/-- **The slot of a shared parameter**: it is in the query, unless it is an upload that is
listed under `get`. -/
def sharedSlot? (actions : List (Service × Action)) (key : String) : Option (String × String) :=
  ((ctx.sharedParameters actions).get? key).bind fun p => (p.textField? "name").map fun name =>
    (name, if Upload.isUpload p ∧ key ∈ ctx.keysUnderGet actions then "formData" else "query")

/-- The keys of the request-wide parameters that the operation of an action refers to. -/
def requestKeys (a : Action) : List String :=
  (if a.sessionRequired ∧ ¬ (ctx.config.profile = .enveloped ∧ ctx.styleOf a = .body) then
    [ctx.requestParameters.session] else []) ++ ctx.requestParameters.attached

variable (shared : String → Option (String × String))

/-- **The slots of a parameter of an action** in query style: those of the values inside a
class, none of an array, and one of any other. -/
def parameterSlots (p : Parameter) : List (String × String) :=
  match Primitive.ofName? p.type with
  | none => (ctx.flattened p).filterMap fun e => shared e.1
  | some .array => []
  | some type => [(p.name, if type = .file then "formData" else "query")]

/-- **The slots of the operation of an action**, given those of the shared parameters: of the
request-wide parameters, and of its own in query style or of one body. -/
def slots (a : Action) : List (String × String) :=
  (ctx.requestKeys a).filterMap shared ++
    match ctx.styleOf a with
    | .query => a.parameters.flatMap (ctx.parameterSlots shared)
    | .body => if a.parameters = [] then [] else [("body", "body")]

variable {ctx}

theorem mem_keysUnderGet {actions : List (Service × Action)} {key : String} :
    key ∈ ctx.keysUnderGet actions ↔
      ∃ e ∈ actions, ctx.Stands actions e ∧ key ∈ ctx.listedKeys e.2 := by
  unfold keysUnderGet
  rw [List.mem_flatMap]
  constructor
  · rintro ⟨e, he, hkey⟩
    cases hstanding : ctx.standing? actions (actionPath e.1.id e.2.name) with
    | none =>
      rw [hstanding] at hkey
      cases hkey
    | some x =>
      rw [hstanding] at hkey
      obtain ⟨hx, hpath, -⟩ := mem_of_standing? hstanding
      have hstands : ctx.Stands actions x := by
        unfold Stands
        rw [hpath]
        exact hstanding
      exact ⟨x, hx, hstands, hkey⟩
  · rintro ⟨e, he, hstands, hkey⟩
    refine ⟨e, he, ?_⟩
    unfold Stands at hstands
    rw [hstands]
    exact hkey

/-- **What a parameter of an action takes up** in a query. -/
theorem yields_slots_queryPart (a : Action) (p : Parameter) :
    Cached.Yields ctx.flattening (ctx.queryPart a p) fun part =>
      part.parameters.filterMap (OperationParameter.slot? shared)
        = ctx.parameterSlots shared p := by
  unfold queryPart
  refine (Cached.yields_liftCheck _).bind fun meant hmeant => ?_
  unfold parameterSlots
  split
  · next target =>
    obtain rfl := ctx.hierarchy.eq_of_resolve hmeant
    have hreference := ctx.hierarchy.isReference_of_resolve hmeant
    rw [(ctx.hierarchy.isReference_iff.1 hreference).1]
    refine (Cached.yields_expansion _).bind fun e he => Cached.yields_pure ?_
    have hflattened := shared_of_queryPartOf (.flattened (a := a) hreference he)
    rw [← hflattened]
    show ((e.parameters.map _).map _).filterMap _ = ((e.parameters.map _).map _).filterMap _
    simp only [List.filterMap_map]
    rfl
  · rw [ctx.hierarchy.ofName?_of_resolve hmeant]
    exact Cached.yields_pure rfl
  · next type hscalar =>
    rw [ctx.hierarchy.ofName?_of_resolve hmeant]
    refine (Cached.yields_liftReport _).bind fun q hq => Cached.yields_pure ?_
    unfold inlineParameter at hq
    obtain ⟨⟨default, enum⟩, -, hq⟩ := Report.result_bind_eq_ok.1 hq
    obtain rfl := Except.ok.inj hq
    split
    · next h => cases h
    · next h => exact absurd (Option.some.inj h) hscalar
    · next type' _ h =>
      obtain rfl := Option.some.inj h
      rfl

theorem slots_sessionParameter (a : Action) :
    (ctx.sessionParameter a).filterMap (OperationParameter.slot? shared)
      = (if a.sessionRequired then [ctx.requestParameters.session] else []).filterMap shared := by
  unfold sessionParameter
  split <;> rfl

theorem slots_attachedParameters :
    ctx.attachedParameters.filterMap (OperationParameter.slot? shared)
      = ctx.requestParameters.attached.filterMap shared := by
  unfold attachedParameters
  rw [List.filterMap_map]
  rfl

/-- **The request-wide parameters in front of a body** are those that the action refers to. -/
theorem slots_leading_of_body {a : Action} (hstyle : ctx.styleOf a = .body) :
    ((if ctx.config.profile = .enveloped then [] else ctx.sessionParameter a)
      ++ ctx.attachedParameters).filterMap (OperationParameter.slot? shared)
        = (ctx.requestKeys a).filterMap shared := by
  unfold requestKeys
  rw [List.filterMap_append, List.filterMap_append, slots_attachedParameters, hstyle]
  refine congrArg (· ++ _) ?_
  by_cases henveloped : ctx.config.profile = .enveloped
  · rw [if_pos henveloped, if_neg fun h => h.2 ⟨henveloped, rfl⟩]
    rfl
  · have hiff : (a.sessionRequired = true ∧ ¬ (ctx.config.profile = .enveloped ∧
        Style.body = .body)) ↔ a.sessionRequired = true :=
      and_iff_left fun h => henveloped h.1
    rw [if_neg henveloped, slots_sessionParameter, if_congr hiff rfl rfl]

/-- So they are in front of what an action takes in query style. -/
theorem slots_leading_of_query {a : Action} (hstyle : ctx.styleOf a = .query) :
    (ctx.sessionParameter a ++ ctx.attachedParameters).filterMap (OperationParameter.slot? shared)
      = (ctx.requestKeys a).filterMap shared := by
  have hiff : (a.sessionRequired = true ∧ ¬ (ctx.config.profile = .enveloped ∧
      Style.query = .body)) ↔ a.sessionRequired = true :=
    and_iff_left fun h => nomatch h.2
  unfold requestKeys
  rw [List.filterMap_append, List.filterMap_append, slots_sessionParameter,
    slots_attachedParameters, hstyle, if_congr hiff rfl rfl]

/-- **The slots of the operation of an action** are those that the action tells. -/
theorem yields_slots_operation (s : Service) (a : Action) :
    Cached.Yields ctx.flattening (ctx.operation s a) fun o =>
      o.operation.parameters.filterMap (OperationParameter.slot? shared) = ctx.slots shared a := by
  unfold operation slots
  split
  · next style =>
    rw [style]
    refine (Cached.yields_liftReport _).bind fun ps hps =>
      (Cached.yields_liftReport _).bind fun responses _ => Cached.yields_pure ?_
    unfold bodyParameters at hps
    dsimp only at hps
    split at hps
    · next hnone =>
      obtain rfl := Except.ok.inj hps
      rw [hnone, if_pos rfl, List.append_nil]
      exact slots_leading_of_body shared style
    · next hsome =>
      obtain ⟨b, -, hps⟩ := Report.result_bind_eq_ok.1 hps
      obtain rfl := Except.ok.inj hps
      rw [if_neg hsome]
      show List.filterMap _ (_ ++ [OperationParameter.body b]) = _
      rw [List.filterMap_append, slots_leading_of_body shared style]
      rfl
  · next style =>
    rw [style]
    refine (Cached.yields_mapM (yields_slots_queryPart shared a) _).bind fun parts hparts =>
      (Cached.yields_liftReport _).bind fun responses _ => Cached.yields_pure ?_
    show (ctx.queryParameters a parts).filterMap _ = _
    unfold queryParameters
    rw [List.filterMap_append, slots_leading_of_query shared style, List.filterMap_flatMap]
    exact congrArg _ (flatMap_eq_of_forall₂ hparts fun _ _ h => h.symm).symm

end OperationContext

/-! ## Which operations remain -/

/-- **An operation lists an upload** that is written inline or one that is shared. -/
theorem Operation.listsUpload_iff (shared : Table Json) (o : Operation) :
    Upload.listsUpload shared o.toJson = true ↔
      (∃ p, .inline p ∈ o.parameters ∧ p.value.type = .file) ∨
        ∃ key ∈ o.parameters.filterMap OperationParameter.key?,
          (shared.get? key).any Upload.isUpload = true := by
  unfold Upload.listsUpload Upload.isListedUpload
  rw [o.parametersOf_toJson, List.any_map, List.any_eq_true]
  constructor
  · rintro ⟨p, hp, hupload⟩
    rw [Function.comp_apply, p.sharedKey?_toJson] at hupload
    cases p with
    | shared key => exact Or.inr ⟨key, List.mem_filterMap.2 ⟨_, hp, rfl⟩, hupload⟩
    | inline p =>
      have htype := Option.some.inj (Upload.isUpload_iff.1 hupload)
      exact Or.inl ⟨p, hp, Primitive.eq_file_of_toJson htype⟩
    | body b => cases hupload
  · rintro (⟨p, hp, hfile⟩ | ⟨key, hkey, hupload⟩)
    · refine ⟨_, hp, ?_⟩
      rw [Function.comp_apply, OperationParameter.sharedKey?_toJson]
      refine Upload.isUpload_iff.2 ?_
      show some p.value.type.toJson = _
      rw [hfile]
      rfl
    · obtain ⟨p, hp, hkey⟩ := List.mem_filterMap.1 hkey
      refine ⟨p, hp, ?_⟩
      rw [Function.comp_apply, p.sharedKey?_toJson, hkey]
      exact hupload

namespace OperationContext

/-- **An action that takes an upload**, itself or in a shared parameter that it lists. -/
def TakesUpload (ctx : OperationContext) (actions : List (Service × Action)) (a : Action) : Prop :=
  a.hasFile = true ∨
    ∃ key ∈ ctx.listedKeys a, ((ctx.sharedParameters actions).get? key).any Upload.isUpload = true

/-- The action that an operation under `post` is made from: of those in body style with the
given path, the last. -/
def standingBody? (ctx : OperationContext) (actions : List (Service × Action)) (path : String) :
    Option (Service × Action) :=
  actions.reverse.find? fun e =>
    actionPath e.1.id e.2.name == path && ctx.styleOf e.2 == .body

/-- **An action whose operation is in the finished document**: in query style, if no later
one replaces it, and in body style, if besides no upload is moved in its place. -/
inductive Remains (ctx : OperationContext) (actions : List (Service × Action))
    (e : Service × Action) : Prop
  | query (stands : ctx.Stands actions e)
  | body (last : ctx.standingBody? actions (actionPath e.1.id e.2.name) = some e)
      (unmoved : ∀ x, ctx.standing? actions (actionPath e.1.id e.2.name) = some x →
        ¬ ctx.TakesUpload actions x.2)

variable {ctx : OperationContext} {actions : List (Service × Action)}

theorem mem_of_standingBody? {path : String} {e : Service × Action}
    (h : ctx.standingBody? actions path = some e) :
    e ∈ actions ∧ actionPath e.1.id e.2.name = path ∧ ctx.styleOf e.2 = .body := by
  unfold standingBody? at h
  have hboth := List.find?_some h
  rw [Bool.and_eq_true_iff, beq_iff_eq, beq_iff_eq] at hboth
  exact ⟨List.mem_reverse.1 (List.mem_of_find?_eq_some h), hboth⟩

/-- What an operation in query style has inline is what parameters of its action became. -/
theorem inline_mem_queryParameters_iff {a : Action} {parts : List QueryPart} {p : InlineParameter} :
    .inline p ∈ ctx.queryParameters a parts ↔ .inline p ∈ parts := by
  constructor
  · intro hp
    rcases ctx.mem_queryParameters hp with ⟨key, hkey, -⟩ | ⟨part, hpart, hp⟩
    · cases hkey
    · cases part with
      | inline q =>
        obtain rfl := OperationParameter.inline.inj (List.mem_singleton.1 hp)
        exact hpart
      | omitted => cases hp
      | flattened q flats =>
        obtain ⟨flat, -, hflat⟩ := List.mem_map.1 hp
        cases hflat
  · intro hp
    unfold queryParameters
    exact List.mem_append_right _ (List.mem_flatMap.2 ⟨_, hp, List.mem_singleton.2 rfl⟩)

/-- A parameter is written inline as an upload if it is one. -/
theorem hasFile_iff_of_queryPartOf {a : Action} {parts : List QueryPart}
    (h : List.Forall₂ (ctx.QueryPartOf a) a.parameters parts) : a.hasFile = true ↔
      ∃ p, .inline p ∈ ctx.queryParameters a parts ∧ p.value.type = .file := by
  simp only [inline_mem_queryParameters_iff]
  unfold Action.hasFile
  rw [List.any_eq_true]
  constructor
  · rintro ⟨p, hp, htype⟩
    obtain ⟨part, hpart, hof⟩ := exists_right_of_forall₂ h hp
    have hnamed : Primitive.ofName? p.type = some .file := by
      rw [beq_iff_eq.1 htype]
      rfl
    cases hof with
    | flattened reference =>
      exact nomatch (ctx.hierarchy.isReference_iff.1 reference).1.symm.trans hnamed
    | omitted named => exact nomatch named.symm.trans hnamed
    | inline named => exact ⟨_, hpart, Option.some.inj (named.symm.trans hnamed)⟩
  · rintro ⟨q, hq, hfile⟩
    obtain ⟨p, hp, hof⟩ := exists_left_of_forall₂ h hq
    cases hof with
    | inline named =>
      refine ⟨p, hp, beq_iff_eq.2 (Primitive.ofName?_eq_file (named.trans ?_))⟩
      exact congrArg some hfile

/-- **The operation of an action in query style lists an upload** if the action takes one. -/
theorem listsUpload_iff_of_operationOf {s : Service} {a : Action} {o : PlacedOperation}
    (ho : ctx.OperationOf s a o) (hstyle : ctx.styleOf a = .query) :
    Upload.listsUpload (ctx.sharedParameters actions) o.operation.toJson = true ↔
      ctx.TakesUpload actions a := by
  rw [Operation.listsUpload_iff, keys_of_operationOf ho hstyle]
  unfold TakesUpload
  cases ho with
  | body style => exact nomatch style.symm.trans hstyle
  | query style each => exact or_congr_left (hasFile_iff_of_queryPartOf each).symm

end OperationContext

/-! ## What remains in a finished document -/

section Remaining

variable {config : Config} {schema : Schema} {ctx : OperationContext}
  {actions : List (Service × Action)} {operations : List PlacedOperation} {definitions : Table Json}
  {R : Service × Action → PlacedOperation → Prop}
  (hR : ∀ e o, R e o → ctx.OperationOf e.1 e.2 o) (hops : List.Forall₂ R actions operations)
include hR hops

/-- **What stands under a path and a method** is made from the last action with that path
and the style of the method. -/
theorem rel_underMethod (path : String) (style : Style) :
    Option.Rel (fun e q => ∃ o, R e o ∧ q = o.operation.toJson)
      (actions.reverse.find? fun e =>
        actionPath e.1.id e.2.name == path && ctx.styleOf e.2 == style)
      (((operations.foldl addOperation ∅).get? path).bind (·.field? style.method)) := by
  have hrel := rel_find?_of_forall₂ (List.forall₂_reverse_iff.2 hops)
    (p := fun e => actionPath e.1.id e.2.name == path && ctx.styleOf e.2 == style)
    (q := fun o => o.path == path && o.method == style.method) fun e o ho => by
      rw [OperationContext.path_of_operationOf (hR e o ho),
        OperationContext.method_of_operationOf (hR e o ho)]
      cases ctx.styleOf e.2 <;> cases style <;> rfl
  rw [field?_foldl_addOperation]
  generalize actions.reverse.find? _ = action, operations.reverse.find? _ = last at hrel ⊢
  cases hrel with
  | none => exact .none
  | some ho => exact .some ⟨_, ho, rfl⟩

theorem exists_action_of_field? {path : String} {item : Json}
    (hitem : (operations.foldl addOperation ∅).get? path = some item) (style : Style) {q : Json}
    (hq : item.field? style.method = some q) :
    ∃ e o, (actions.reverse.find? fun e =>
        actionPath e.1.id e.2.name == path && ctx.styleOf e.2 == style) = some e ∧
      R e o ∧ q = o.operation.toJson := by
  have hrel := rel_underMethod hR hops path style
  rw [hitem, Option.bind_some, hq] at hrel
  generalize actions.reverse.find? _ = action at hrel ⊢
  cases hrel with
  | some ho =>
    obtain ⟨o, ho, hjson⟩ := ho
    exact ⟨_, o, rfl, ho, hjson⟩

theorem exists_field?_of_action {path : String} {style : Style} {e : Service × Action}
    (he : (actions.reverse.find? fun e =>
      actionPath e.1.id e.2.name == path && ctx.styleOf e.2 == style) = some e) :
    ∃ item o, (operations.foldl addOperation ∅).get? path = some item ∧ R e o ∧
      item.field? style.method = some o.operation.toJson := by
  have hrel := rel_underMethod hR hops path style
  rw [he] at hrel
  generalize hunder : ((operations.foldl addOperation ∅).get? path).bind _ = under at hrel
  cases hrel with
  | some ho =>
    obtain ⟨o, ho, rfl⟩ := ho
    obtain ⟨item, hitem, hfield⟩ := Option.bind_eq_some_iff.1 hunder
    exact ⟨item, o, hitem, ho, hfield⟩

/-- **What holds of the operations of a finished document** holds of the actions that remain,
if it can be told from the action, whether its operation is moved or not. -/
theorem forall_operationsOf_finish_iff {P : Json → Prop} {Q : Service × Action → Prop}
    (hstays : ∀ e o sources path, R e o →
      (P (Hint.operation sources path (responsesWithoutFiles o.operation.toJson)) ↔ Q e))
    (hmoves : ∀ e o sources path, R e o →
      (P (Hint.operation sources path
        (Upload.promoted (responsesWithoutFiles o.operation.toJson))) ↔ Q e)) :
    (∀ x ∈ operationsOf
        ((SwaggerForge.assemble schema ctx definitions operations).finish config).paths, P x) ↔
      ∀ e ∈ actions, ctx.Remains actions e → Q e := by
  have hof := hops.imp hR
  obtain ⟨sources, hmem⟩ := Document.mem_operationsOf_finish_iff
    (d := SwaggerForge.assemble schema ctx definitions operations)
    (nodup_keys_foldl_addOperation operations) (fun _ _ h => exists_pathItem h) config
  have hlists {e : Service × Action} {o : PlacedOperation} (ho : R e o)
      (hstyle : ctx.styleOf e.2 = .query) : Upload.listsUpload
        (SwaggerForge.assemble schema ctx definitions operations).parameters o.operation.toJson
          = true ↔ ctx.TakesUpload actions e.2 := by
    rw [parameters_assemble hof]
    exact OperationContext.listsUpload_iff_of_operationOf (hR e o ho) hstyle
  constructor
  · rintro h e - (hstands | ⟨hlast, hunmoved⟩)
    · obtain ⟨item, o, hitem, ho, hq⟩ := exists_field?_of_action hR hops hstands
      have hx := h _ ((hmem _).2 ⟨_, item, hitem, Or.inl ⟨_, hq, rfl⟩⟩)
      split at hx
      · exact (hmoves e o _ _ ho).1 hx
      · exact (hstays e o _ _ ho).1 hx
    · obtain ⟨item, o, hitem, ho, hb⟩ := exists_field?_of_action hR hops hlast
      have hnone : ∀ q, item.field? "get" = some q → Upload.listsUpload
          (SwaggerForge.assemble schema ctx definitions operations).parameters q = false := by
        intro q hq
        obtain ⟨x, o', hx, ho', rfl⟩ := exists_action_of_field? hR hops hitem .query hq
        have hstyle := (OperationContext.mem_of_standing? hx).2.2
        exact Bool.eq_false_iff.2 fun hlist => hunmoved x hx ((hlists ho' hstyle).1 hlist)
      have hx := h _ ((hmem _).2 ⟨_, item, hitem, Or.inr ⟨_, hb, hnone, rfl⟩⟩)
      exact (hstays e o _ _ ho).1 hx
  · intro h x hx
    obtain ⟨path, item, hitem, ⟨q, hq, rfl⟩ | ⟨b, hb, hnone, rfl⟩⟩ := (hmem x).1 hx
    · obtain ⟨e, o, he, ho, rfl⟩ := exists_action_of_field? hR hops hitem .query hq
      obtain ⟨hin, rfl, -⟩ := OperationContext.mem_of_standing? he
      have hQ := h e hin (.query he)
      split
      · exact (hmoves e o _ _ ho).2 hQ
      · exact (hstays e o _ _ ho).2 hQ
    · obtain ⟨e, o, he, ho, rfl⟩ := exists_action_of_field? hR hops hitem .body hb
      obtain ⟨hin, rfl, -⟩ := OperationContext.mem_of_standingBody? he
      refine (hstays e o _ _ ho).2 (h e hin (.body he fun x hx huploads => ?_))
      -- an operation that is moved would stand under `get` of the same path
      have hstyle := (OperationContext.mem_of_standing? hx).2.2
      obtain ⟨item', o', hitem', ho', hq⟩ := exists_field?_of_action hR hops hx
      obtain rfl := Option.some.inj (hitem.symm.trans hitem')
      exact Bool.false_ne_true ((hnone _ hq).symm.trans ((hlists ho' hstyle).2 huploads))

end Remaining

/-! ## Documents without clashes -/

theorem Json.InQuery.slot?_eq {p : Json} (h : p.InQuery) :
    p.slot? = (p.textField? "name").map (·, "query") := by
  unfold Json.slot? textField?
  rw [h.location]
  cases (p.field? "name").bind string? <;> rfl

/-- **The operation of an action**, with the slots that the action tells. -/
def OperationContext.SlottedOperation (ctx : OperationContext) (actions : List (Service × Action))
    (e : Service × Action) (o : PlacedOperation) : Prop :=
  ctx.OperationOf e.1 e.2 o ∧
    o.operation.parameters.filterMap (OperationParameter.slot? (ctx.sharedSlot? actions))
      = ctx.slots (ctx.sharedSlot? actions) e.2

section Assembled

variable {config : Config} {schema : Schema} {ctx : OperationContext}
  {actions : List (Service × Action)} {operations : List PlacedOperation} {definitions : Table Json}

/-- **The slots of shared parameters** in the finished document. -/
theorem slot?_parameters_finish (hctx : OperationContext.Of config schema ctx)
    (hops : List.Forall₂ (fun e o => ctx.OperationOf e.1 e.2 o) actions operations) (key : String) :
    (((SwaggerForge.assemble schema ctx definitions operations).finish config).parameters.get?
      key).bind Json.slot? = ctx.sharedSlot? actions key := by
  obtain ⟨sources, hfinish⟩ := Document.get?_parameters_finish
    (SwaggerForge.assemble schema ctx definitions operations) config
  have hlisted : key ∈ (SwaggerForge.assemble schema ctx definitions operations).keysUnderGet ↔
      key ∈ ctx.keysUnderGet actions :=
    (mem_keysUnderGet_assemble hops).trans OperationContext.mem_keysUnderGet.symm
  unfold OperationContext.sharedSlot?
  rw [hfinish, parameters_assemble hops]
  cases hp : (ctx.sharedParameters actions).get? key with
  | none => rfl
  | some p =>
    have hquery := (OperationContext.inQuery_and_elementsOf hctx (Table.mem_entries_of_get? hp)).1
    show (Hint.parameter sources none _).slot? = (p.textField? "name").map _
    rw [Hint.slot?_parameter]
    simp only [hlisted]
    by_cases hkey : key ∈ ctx.keysUnderGet actions
    · rw [if_pos hkey, Upload.slot?_mark, hquery.slot?_eq]
      simp only [hkey, and_true]
      split <;> rfl
    · rw [if_neg hkey, hquery.slot?_eq]
      simp only [hkey, and_false, if_false]

/-- **The slots of a finished operation** are those of the action it is made from. -/
theorem slots_finish (hctx : OperationContext.Of config schema ctx)
    (hops : List.Forall₂ (ctx.SlottedOperation actions) actions operations)
    {e : Service × Action} {o : PlacedOperation} (ho : ctx.SlottedOperation actions e o) :
    (o.operation.parameters.filterMap fun p =>
      ((SwaggerForge.assemble schema ctx definitions operations).finish config).slot? p.toJson)
        = ctx.slots (ctx.sharedSlot? actions) e.2 := by
  rw [← ho.2]
  refine List.filterMap_congr fun p _ => ?_
  rw [p.slot?_toJson]
  exact congrArg (OperationParameter.slot? · p)
    (funext fun key => slot?_parameters_finish hctx (hops.imp fun _ _ h => h.1) key)

/-- **When the document made of some operations is without clashes**: the parameters of each
action that remains have slots of their own. -/
theorem withoutClashes_assemble_iff (hctx : OperationContext.Of config schema ctx)
    (hops : List.Forall₂ (ctx.SlottedOperation actions) actions operations) :
    ((SwaggerForge.assemble schema ctx definitions operations).finish config).WithoutClashes ↔
      ∀ e ∈ actions, ctx.Remains actions e → (ctx.slots (ctx.sharedSlot? actions) e.2).Nodup := by
  refine forall_operationsOf_finish_iff (fun _ _ h => h.1) hops (fun e o sources path ho => ?_)
    fun e o sources path ho => ?_
  · rw [Operation.slots_hints, slots_finish hctx hops ho]
  · rw [Operation.slots_hints_promoted, slots_finish hctx hops ho]

end Assembled

end SwaggerForge
