import SwaggerForge.Proofs.Placement

/-!
# How operations carry the session

An action that needs a session is only of use if its operation has a place for the
credential: a reference to the shared parameter of the session, or, in the enveloped
profile, a body that extends the request envelope. An action that needs none should say so
and leave the credential out.

`credential_exact` says for every action with a path of its own what its finished operation
does. Which parameters it lists depends on the profile, on the style the action is made in
and on whether it has parameters; the finishing passes change none of it. Two things go
wrong. Without parameters there is no body, hence no envelope. And nothing keeps the session
parameter from having the name of another shared parameter, so that a reference to the one
is a reference to the other.
-/

namespace SwaggerForge

open Json

/-! ## An operation under a path of its own -/

/-- Operations under other paths leave a path as it is. -/
theorem get?_foldl_addOperation_of_ne {operations : List PlacedOperation} {path : String}
    (h : ∀ o ∈ operations, o.path ≠ path) (paths : Table Json) :
    (operations.foldl addOperation paths).get? path = paths.get? path := by
  induction operations generalizing paths with
  | nil => rfl
  | cons o rest ih =>
    obtain ⟨hne, hrest⟩ := List.forall_mem_cons.1 h
    rw [List.foldl_cons, ih hrest]
    unfold addOperation
    rw [Table.get?_insert, if_neg (Ne.symm hne)]

/-- **An operation whose path no other one has** stands alone under it. -/
theorem get?_foldl_addOperation_alone {before after : List PlacedOperation} {o : PlacedOperation}
    (h : ∀ o' ∈ before ++ after, o'.path ≠ o.path) :
    ((before ++ o :: after).foldl addOperation ∅).get? o.path
      = some (fields [(o.method, o.operation.toJson)]) := by
  obtain ⟨hbefore, hafter⟩ := List.forall_mem_append.1 h
  have hnew : (before.foldl addOperation ∅).get? o.path = none :=
    get?_foldl_addOperation_of_ne hbefore ∅
  rw [List.foldl_append, List.foldl_cons, get?_foldl_addOperation_of_ne hafter,
    addOperation_of_not_mem (Table.get?_eq_none_iff.1 hnew)]
  show List.lookup o.path (_ ++ [_]) = _
  have hnone : (before.foldl addOperation ∅).entries.lookup o.path = none := hnew
  rw [List.lookup_append, hnone, List.lookup_cons, beq_self_eq_true]
  rfl

/-- **An action with a path of its own** becomes the one operation under it. -/
theorem exists_operation_alone {ctx : OperationContext} {before after : List (Service × Action)}
    {s : Service} {a : Action} {operations : List PlacedOperation}
    (hops : List.Forall₂ (fun e o => ctx.OperationOf e.1 e.2 o) (before ++ (s, a) :: after)
      operations)
    (halone : ∀ e ∈ before ++ after, actionPath e.1.id e.2.name ≠ actionPath s.id a.name) :
    ∃ o, ctx.OperationOf s a o ∧ (operations.foldl addOperation ∅).get? (actionPath s.id a.name)
      = some (fields [(o.method, o.operation.toJson)]) := by
  -- the operations in front of that of the action and behind it have other paths
  obtain ⟨before', o, after', rfl, hbefore, ho, hafter⟩ := exists_division_of_forall₂ hops
  have hothers : ∀ o' ∈ before' ++ after', o'.path ≠ o.path := by
    have hpath {es : List (Service × Action)} {os : List PlacedOperation}
        (hes : ∀ e ∈ es, actionPath e.1.id e.2.name ≠ actionPath s.id a.name)
        (hboth : List.Forall₂ (fun e o => ctx.OperationOf e.1 e.2 o) es os) :
        ∀ o' ∈ os, o'.path ≠ o.path := by
      intro o' ho'
      obtain ⟨e, he, heo⟩ := exists_left_of_forall₂ hboth ho'
      rw [OperationContext.path_of_operationOf heo, OperationContext.path_of_operationOf ho]
      exact hes e he
    obtain ⟨hb, ha⟩ := List.forall_mem_append.1 halone
    exact List.forall_mem_append.2 ⟨hpath hb hbefore, hpath ha hafter⟩
  have hstands := get?_foldl_addOperation_alone hothers
  rw [OperationContext.path_of_operationOf ho] at hstands
  exact ⟨o, ho, hstands⟩

/-! ## What an operation lists -/

namespace Json

/-- **An operation that refers to a shared parameter.** -/
def RefersTo (operation : Json) (key : String) : Prop :=
  ∃ p ∈ Upload.parametersOf operation,
    p.field? "$ref" = some (.string (parametersPrefix ++ key))

/-- **A body that extends the request envelope.** -/
def ExtendsEnvelope (p : Json) : Prop :=
  p.field? "in" = some (.string "body") ∧
    ∃ refs, (p.field? "schema").bind (·.field? "allOf") = some (.array refs) ∧
      definitionRef envelopeName ∈ refs

/-- **An operation with an envelope**: one of its parameters is a body that extends it. -/
def HasEnvelope (operation : Json) : Prop :=
  ∃ p ∈ Upload.parametersOf operation, p.ExtendsEnvelope

end Json

/-- The references to two definitions are the same only if the names are. -/
theorem definitionRef_inj {name name' : String} :
    definitionRef name = definitionRef name' ↔ name = name' := by
  refine ⟨fun h => ?_, congrArg definitionRef⟩
  have htarget : (definitionRef name).textField? "$ref" = (definitionRef name').textField? "$ref" :=
    congrArg (·.textField? "$ref") h
  have hname := definitionName?_append name'
  rw [← Option.some.inj htarget, definitionName?_append] at hname
  exact Option.some.inj hname

namespace OperationParameter

/-- **A reference to a shared parameter** is written for that parameter only. -/
theorem field?_ref_iff {p : OperationParameter} {key : String} :
    p.toJson.field? "$ref" = some (.string (parametersPrefix ++ key)) ↔ p.key? = some key := by
  constructor
  · intro h
    rw [← p.sharedKey?_toJson]
    unfold Upload.sharedKey? textField?
    rw [h]
    exact parameterKey?_append key
  · intro h
    cases p with
    | shared key' =>
      obtain rfl := Option.some.inj h
      rfl
    | inline p => cases h
    | body b => cases h

theorem location_inline (p : InlineParameter) :
    p.toJson.field? "in" = some (.string p.location) := rfl

/-- **Only a body that extends the envelope** is written as one. -/
theorem extendsEnvelope_iff {p : OperationParameter} :
    p.toJson.ExtendsEnvelope ↔ ∃ b, p = .body b ∧ b.extending = some envelopeName := by
  cases p with
  | shared key =>
    exact iff_of_false (fun h => nomatch h.1) fun ⟨_, h, _⟩ => nomatch h
  | inline p =>
    refine iff_of_false (fun h => ?_) fun ⟨_, h, _⟩ => nomatch h
    have hlocation : p.location = "body" :=
      Json.string.inj (Option.some.inj ((location_inline p).symm.trans h.1))
    unfold InlineParameter.location at hlocation
    split at hlocation
    · exact absurd hlocation (by decide)
    · exact absurd hlocation (by decide)
  | body b =>
    have hallOf : ((OperationParameter.body b).toJson.field? "schema").bind (·.field? "allOf")
        = b.extending.map fun name => .array [definitionRef name] := by
      show Json.field? (Json.fields (_ ++ optional "allOf" _ ++ _ ++ _)) "allOf" = _
      cases b.extending with
      | none => split <;> rfl
      | some name => rfl
    have hlocation : (OperationParameter.body b).toJson.field? "in" = some (.string "body") := rfl
    unfold ExtendsEnvelope
    rw [hallOf, and_iff_right hlocation]
    constructor
    · rintro ⟨refs, hrefs, hmem⟩
      obtain ⟨name, hname, harray⟩ := Option.map_eq_some_iff.1 hrefs
      rw [← Json.array.inj harray, List.mem_singleton, definitionRef_inj] at hmem
      exact ⟨b, rfl, hmem ▸ hname⟩
    · rintro ⟨b', hb, hextending⟩
      obtain rfl := OperationParameter.body.inj hb
      exact ⟨_, by rw [hextending]; rfl, List.mem_singleton.2 rfl⟩

end OperationParameter

/-! ## What finishing leaves of credentials -/

/-- Hints keep what a body extends. -/
theorem Hint.extendsEnvelope_parameter (sources : List Hint.Source) (scope : Option String)
    (p : Json) : (Hint.parameter sources scope p).ExtendsEnvelope ↔ p.ExtendsEnvelope := by
  have hallOf : ((Hint.parameter sources scope p).field? "schema").bind (·.field? "allOf")
      = (p.field? "schema").bind (·.field? "allOf") := by
    obtain h | ⟨t, s, rfl, -, hs, h⟩ | ⟨t, name, rfl, -, -, -, h⟩ :=
      Hint.parameter_cases sources scope p
    · rw [h]
    · rw [h]
      show ((t.insert "schema" (.object (Hint.schema sources scope s))).get? "schema").bind _
        = (t.get? "schema").bind _
      rw [Table.get?_insert, if_pos rfl, hs, Hint.schema_eq]
      show (s.mapEntries _).get? "allOf" = s.get? "allOf"
      have hsame : Hint.schemaField sources scope "allOf" = id := rfl
      rw [Table.get?_mapEntries, hsame, Option.map_id]
      rfl
    · rw [h]
      exact congrArg (Option.bind · _)
        (Hint.get?_annotateParameter sources scope (by decide) name t)
  unfold ExtendsEnvelope
  rw [hallOf, Hint.field?_parameter sources scope (by decide) (by decide)]

/-- Uploads are no bodies. -/
theorem OperationParameter.extendsEnvelope_markInline (p : OperationParameter) :
    (Upload.markInline p.toJson).ExtendsEnvelope ↔ p.toJson.ExtendsEnvelope := by
  unfold Upload.markInline
  rw [p.sharedKey?_toJson]
  cases p with
  | shared key => exact Iff.rfl
  | inline p =>
    have hnot : ¬ (OperationParameter.inline p).toJson.ExtendsEnvelope := fun h => by
      obtain ⟨b, hb, -⟩ := extendsEnvelope_iff.1 h
      cases hb
    refine iff_of_false (fun h => ?_) hnot
    show False
    dsimp only [OperationParameter.key?] at h
    unfold Upload.mark at h
    split at h
    · next hupload =>
      have hin := Upload.field?_mark_in (Upload.isUpload_iff.1 hupload)
      unfold Upload.mark at hin
      rw [if_pos hupload] at hin
      exact absurd (hin.symm.trans h.1) (by decide)
    · exact hnot h
  | body b => exact Iff.rfl

/-- **A finished operation that carries what the operation was given.** -/
structure Operation.CarriedBy (o : Operation) (operation : Json) : Prop where
  security : operation.field? "security" = if o.sessionRequired then none else some (.array [])
  refersTo : ∀ key, operation.RefersTo key ↔ key ∈ o.parameters.filterMap OperationParameter.key?
  hasEnvelope : operation.HasEnvelope ↔
    ∃ b, .body b ∈ o.parameters ∧ b.extending = some envelopeName

/-- Single parameters may change, so long as references and envelopes stay. -/
theorem Operation.carriedBy_of_map {o : Operation} {operation : Json} {g : Json → Json}
    (hsecurity : operation.field? "security" = o.toJson.field? "security")
    (hparameters : Upload.parametersOf operation = (Upload.parametersOf o.toJson).map g)
    (href : ∀ p, (g p).field? "$ref" = p.field? "$ref")
    (henvelope : ∀ p : OperationParameter,
      (g p.toJson).ExtendsEnvelope ↔ p.toJson.ExtendsEnvelope) : o.CarriedBy operation where
  security := hsecurity.trans o.field?_security
  refersTo := by
    intro key
    unfold RefersTo
    rw [hparameters, o.parametersOf_toJson, List.mem_filterMap]
    simp only [List.mem_map, exists_exists_and_eq_and, href, OperationParameter.field?_ref_iff]
  hasEnvelope := by
    unfold HasEnvelope
    rw [hparameters, o.parametersOf_toJson]
    simp only [List.mem_map, exists_exists_and_eq_and, henvelope,
      OperationParameter.extendsEnvelope_iff]
    constructor
    · rintro ⟨p, hp, b, rfl, hb⟩
      exact ⟨b, hp, hb⟩
    · rintro ⟨b, hp, hb⟩
      exact ⟨_, hp, b, rfl, hb⟩

/-- **An operation that stands alone** is carried through the finishing passes, whether it
is moved or not. -/
theorem Document.exists_carriedBy {d : Document} {path : String} {o : PlacedOperation}
    (config : Config)
    (halone : d.paths.get? path = some (fields [(o.method, o.operation.toJson)])) :
    ∃ method operation, (d.finish config).paths.get? path = some (fields [(method, operation)]) ∧
      o.operation.CarriedBy operation := by
  obtain ⟨method, operation, hitem, rfl | rfl⟩ := exists_finished_alone config halone
  · refine ⟨_, _, hitem, Operation.carriedBy_of_map
      (field?_hints_of_ne (by decide) (by decide) _ path _) (parametersOf_hints _ _ path)
      (fun p => Hint.field?_parameter _ _ (by decide) (by decide) p)
      fun p => Hint.extendsEnvelope_parameter _ _ _⟩
  · refine ⟨_, _, hitem, Operation.carriedBy_of_map
      (field?_hints_promoted_of_ne (by decide) (by decide) (by decide) _ path _)
      (parametersOf_hints_promoted _ _ path) (fun p => ?_) fun p => ?_⟩
    · rw [Hint.field?_parameter _ _ (by decide) (by decide),
        Upload.field?_markInline_of_ne (by decide)]
    · rw [Hint.extendsEnvelope_parameter, p.extendsEnvelope_markInline]

/-! ## What actions ask for -/

namespace RequestParameters

/-- **A name that every schema has taken** for a parameter of all requests, beside the
session. -/
def Reserved (name : String) : Prop := name = formatKey ∨ name = clientTagKey

instance : DecidablePred Reserved := fun _ => inferInstanceAs (Decidable (_ ∨ _))

/-- **Operations that refer to all request-wide parameters** refer to that of the session
only if its name is reserved: a setting of its name is passed over. -/
theorem session_of_ofSettings {config : Config} {h : Hierarchy} {settings : List RequestSetting}
    {g : RequestParameters} (hg : ofSettings config h settings = .ok g) :
    g.session = config.sessionParameter ∧
      (config.sessionParameter ∈ g.attached ↔ Reserved config.sessionParameter) := by
  have hkept : g.session = config.sessionParameter ∧
      config.sessionParameter ∈ g.entries.map Prod.fst ∧
      (config.sessionParameter ∈ g.attached ↔ Reserved config.sessionParameter) := by
    refine foldlM_ok_induction (motive := fun g => g.session = config.sessionParameter ∧
      config.sessionParameter ∈ g.entries.map Prod.fst ∧
      (config.sessionParameter ∈ g.attached ↔ Reserved config.sessionParameter)) hg
      ⟨rfl, List.mem_cons_self, ?_⟩ ?_
    · show _ ∈ [formatKey, clientTagKey] ↔ _
      rw [List.mem_cons, List.mem_singleton]
      exact Iff.rfl
    · rintro s - b c ⟨hsession, htaken, hattached⟩ hadd
      unfold add at hadd
      split at hadd
      · obtain rfl := Except.ok.inj hadd
        exact ⟨hsession, htaken, hattached⟩
      · next hnew =>
        obtain ⟨meant, -, hadd⟩ := bind_eq_ok.1 hadd
        cases meant with
        | reference target =>
          obtain rfl := pure_eq_ok.1 hadd
          exact ⟨hsession, htaken, hattached⟩
        | primitive type =>
          obtain rfl := pure_eq_ok.1 hadd
          have hne : config.sessionParameter ≠ s.name := by
            rintro heq
            obtain ⟨e, he, hname⟩ := List.mem_map.1 htaken
            exact hnew (List.any_eq_true.2 ⟨e, he, beq_iff_eq.2 (hname.trans heq)⟩)
          refine ⟨hsession, ?_, ?_⟩
          · show _ ∈ (b.entries ++ [(s.name, settingEntry s type)]).map Prod.fst
            rw [List.map_append]
            exact List.mem_append_left _ htaken
          · show _ ∈ b.attached ++ [s.name] ↔ _
            rw [List.mem_append, List.mem_singleton, or_iff_left hne]
            exact hattached
  exact ⟨hkept.1, hkept.2.2⟩

end RequestParameters

namespace OperationContext

variable {ctx : OperationContext} {s : Service} {a : Action}

/-- **Whether the credential is to be in the body**: in the enveloped profile and in body
style. -/
def SessionInBody (ctx : OperationContext) (a : Action) : Prop :=
  ctx.config.profile = .enveloped ∧ ctx.styleOf a = .body

/-- The parameters of an operation in body style are shared ones, and a body if the action
has parameters. -/
theorem bodyParameters_eq_ok {ps : List OperationParameter}
    (h : (ctx.bodyParameters a).result = .ok ps) :
    ∃ bodies, ps = (if ctx.config.profile = .enveloped then [] else ctx.sessionParameter a)
        ++ ctx.attachedParameters ++ bodies.map .body ∧
      (bodies = [] ↔ a.parameters = []) ∧
      ∀ b ∈ bodies, b.extending
        = if ctx.config.profile = .enveloped then some envelopeName else none := by
  unfold bodyParameters at h
  dsimp only at h
  split at h
  · next hnone =>
    obtain rfl := Except.ok.inj h
    exact ⟨[], (List.append_nil _).symm, iff_of_true rfl hnone, fun _ hb => nomatch hb⟩
  · next hsome =>
    obtain ⟨b, hb, h⟩ := Report.result_bind_eq_ok.1 h
    obtain rfl := Except.ok.inj h
    refine ⟨[b], rfl, iff_of_false (List.cons_ne_nil _ _) hsome, ?_⟩
    rw [List.forall_mem_singleton]
    cases ctx.bodyOf_of_body hb
    rfl

/-- **The keys that an operation lists.** -/
theorem mem_keys_of_operationOf {o : PlacedOperation} (ho : ctx.OperationOf s a o)
    {key : String} : key ∈ o.operation.parameters.filterMap OperationParameter.key? ↔
      (a.sessionRequired = true ∧ ¬ ctx.SessionInBody a ∧ key = ctx.requestParameters.session) ∨
        key ∈ ctx.requestParameters.attached ∨ key ∈ (ctx.sharedBy a).map Prod.fst := by
  have hsession : key ∈ (ctx.sessionParameter a).filterMap OperationParameter.key? ↔
      a.sessionRequired = true ∧ key = ctx.requestParameters.session := by
    rw [keys_sessionParameter]
    split
    · next hrequired => rw [List.mem_singleton, and_iff_right hrequired]
    · next hrequired => exact iff_of_false List.not_mem_nil fun h => hrequired h.1
  cases hstyle : ctx.styleOf a with
  | body =>
    have hshared : (ctx.sharedBy a).map Prod.fst = [] := by
      unfold sharedBy
      rw [hstyle]
      rfl
    have hinBody : ctx.SessionInBody a ↔ ctx.config.profile = .enveloped := and_iff_left hstyle
    cases ho with
    | query style => exact nomatch hstyle.symm.trans style
    | @body ps responses style each answers =>
      obtain ⟨bodies, rfl, -⟩ := bodyParameters_eq_ok each
      have hbodies :
          (bodies.map OperationParameter.body).filterMap OperationParameter.key? = [] := by
        rw [List.filterMap_map]
        exact List.filterMap_eq_nil_iff.2 fun _ _ => rfl
      show key ∈ (_ ++ ctx.attachedParameters ++ _).filterMap _ ↔ _
      rw [List.filterMap_append, List.filterMap_append, keys_attachedParameters, hbodies,
        List.append_nil, List.mem_append, hshared, hinBody,
        or_iff_left (List.not_mem_nil (a := key))]
      refine or_congr_left ?_
      split
      · next henveloped =>
        exact iff_of_false List.not_mem_nil fun h => h.2.1 henveloped
      · next hstandard => rw [hsession, and_iff_right hstandard]
  | query =>
    have hnotBody : ¬ ctx.SessionInBody a := fun h => nomatch hstyle.symm.trans h.2
    rw [keys_of_operationOf ho hstyle]
    unfold listedKeys
    rw [← keys_sessionParameter, List.mem_append, List.mem_append, hsession,
      and_iff_right hnotBody, or_assoc]

/-- **An operation has an envelope** if the credential is to be in the body and there is a
body. -/
theorem envelope_of_operationOf {o : PlacedOperation} (ho : ctx.OperationOf s a o) :
    (∃ b, .body b ∈ o.operation.parameters ∧ b.extending = some envelopeName) ↔
      ctx.SessionInBody a ∧ a.parameters ≠ [] := by
  have hleading {b : Body} :
      .body b ∉ ctx.sessionParameter a ∧ .body b ∉ ctx.attachedParameters := by
    refine ⟨fun hb => ?_, fun hb => ?_⟩
    · obtain ⟨key, hkey, -⟩ := ctx.mem_sessionParameter hb
      cases hkey
    · obtain ⟨key, hkey, -⟩ := ctx.mem_attachedParameters hb
      cases hkey
  cases ho with
  | @query parts responses style each answers =>
    refine iff_of_false ?_ fun h => nomatch style.symm.trans h.1.2
    rintro ⟨b, hb, -⟩
    change .body b ∈ ctx.queryParameters a parts at hb
    unfold queryParameters at hb
    rw [List.mem_append, List.mem_append, or_iff_right hleading.1, or_iff_right hleading.2,
      List.mem_flatMap] at hb
    obtain ⟨part, -, hb⟩ := hb
    cases part with
    | inline p => exact nomatch List.mem_singleton.1 hb
    | omitted => cases hb
    | flattened p flats =>
      obtain ⟨flat, -, hflat⟩ := List.mem_map.1 hb
      cases hflat
  | @body ps responses style each answers =>
    obtain ⟨bodies, rfl, hnil, hextending⟩ := bodyParameters_eq_ok each
    have hinBody : ctx.SessionInBody a ↔ ctx.config.profile = .enveloped := and_iff_left style
    have hmem (b : Body) :
        OperationParameter.body b ∈ (if ctx.config.profile = .enveloped then []
          else ctx.sessionParameter a) ++ ctx.attachedParameters ++ bodies.map .body
          ↔ b ∈ bodies := by
      rw [List.mem_append, List.mem_append, or_iff_left hleading.2, List.mem_map]
      constructor
      · rintro (hsession | ⟨b', hb', heq⟩)
        · split at hsession
          · cases hsession
          · exact absurd hsession hleading.1
        · exact OperationParameter.body.inj heq ▸ hb'
      · exact fun hb => Or.inr ⟨b, hb, rfl⟩
    refine (exists_congr fun b => and_congr_left' (hmem b)).trans ?_
    rw [hinBody, ne_eq, ← hnil]
    constructor
    · rintro ⟨b, hb, hname⟩
      rw [hextending b hb] at hname
      refine ⟨?_, List.ne_nil_of_mem hb⟩
      by_contra hstandard
      rw [if_neg hstandard] at hname
      cases hname
    · rintro ⟨henveloped, hne⟩
      obtain ⟨b, hb⟩ := List.exists_mem_of_ne_nil _ hne
      exact ⟨b, hb, (hextending b hb).trans (if_pos henveloped)⟩

end OperationContext

/-! ## Compiled documents -/

/-- **An operation with a place for what its action asks for.** If the action needs a session,
the credential travels in exactly one of two ways; if it needs none, it travels in no
query, and the operation says that no credentials are asked for. -/
structure Action.Carried (a : Action) (session : String) (operation : Json) : Prop where
  required : a.sessionRequired = true → Xor (operation.RefersTo session) operation.HasEnvelope
  free : a.sessionRequired = false →
    operation.field? "security" = some (.array []) ∧ ¬ operation.RefersTo session

namespace Action

section Carried

variable {ctx : OperationContext} {s : Service} {a : Action} {o : PlacedOperation}
  (ho : ctx.OperationOf s a o) {operation : Json} (hcarried : o.operation.CarriedBy operation)
  {session : String} (hsession : ctx.requestParameters.session = session)
  (hattached : session ∈ ctx.requestParameters.attached ↔ RequestParameters.Reserved session)
include ho hcarried hsession hattached

/-- **When an operation refers to the session**: it is to be listed, or its name is that of
another shared parameter that is listed. -/
theorem refersTo_iff : operation.RefersTo session ↔
    (a.sessionRequired = true ∧ ¬ ctx.SessionInBody a) ∨ RequestParameters.Reserved session ∨
      session ∈ (ctx.sharedBy a).map Prod.fst := by
  rw [hcarried.refersTo, OperationContext.mem_keys_of_operationOf ho, hattached, hsession]
  simp only [and_true]

/-- **An action that needs a session** has it in exactly one place, unless it is to be in a
body that is not there. -/
theorem xor_iff_of_required (hneeds : a.sessionRequired = true) :
    Xor (operation.RefersTo session) operation.HasEnvelope ↔
      (ctx.SessionInBody a → (a.parameters = [] ↔ RequestParameters.Reserved session)) := by
  have hrefers := refersTo_iff ho hcarried hsession hattached
  have henvelope : operation.HasEnvelope ↔ ctx.SessionInBody a ∧ a.parameters ≠ [] :=
    hcarried.hasEnvelope.trans (OperationContext.envelope_of_operationOf ho)
  by_cases hbody : ctx.SessionInBody a
  · -- nothing is shared by an action whose credential is in the body
    have hshared : session ∉ (ctx.sharedBy a).map Prod.fst := by
      unfold OperationContext.sharedBy
      rw [hbody.2]
      exact List.not_mem_nil
    have hreserved : operation.RefersTo session ↔ RequestParameters.Reserved session :=
      hrefers.trans ((or_iff_right fun h => h.2 hbody).trans (or_iff_left hshared))
    rw [hreserved, henvelope, and_iff_right hbody, imp_iff_right hbody, ne_eq, xor_not_right]
    exact iff_comm
  · exact iff_of_true (Or.inl ⟨hrefers.2 (Or.inl ⟨hneeds, hbody⟩),
      fun he => hbody (henvelope.1 he).1⟩) fun hb => absurd hb hbody

/-- **What an operation carries**, in terms of its action. -/
theorem carried_iff : a.Carried session operation ↔
    (a.sessionRequired = true → ctx.SessionInBody a →
      (a.parameters = [] ↔ RequestParameters.Reserved session)) ∧
    (a.sessionRequired = false → ¬ RequestParameters.Reserved session ∧
      session ∉ (ctx.sharedBy a).map Prod.fst) := by
  have hsecurity := hcarried.security
  have hrequired : o.operation.sessionRequired = a.sessionRequired := by
    cases ho <;> rfl
  have hnot (hfree : a.sessionRequired = false) : ¬ operation.RefersTo session ↔
      ¬ RequestParameters.Reserved session ∧ session ∉ (ctx.sharedBy a).map Prod.fst := by
    have hneedless : ¬ (a.sessionRequired = true ∧ ¬ ctx.SessionInBody a) := fun h =>
      Bool.false_ne_true (hfree.symm.trans h.1)
    rw [refersTo_iff ho hcarried hsession hattached, or_iff_right hneedless, not_or]
  constructor
  · intro h
    exact ⟨fun hneeds => (xor_iff_of_required ho hcarried hsession hattached hneeds).1
      (h.required hneeds), fun hfree => (hnot hfree).1 (h.free hfree).2⟩
  · rintro ⟨hplaced, hleft⟩
    refine ⟨fun hneeds => ?_, fun hfree => ⟨?_, (hnot hfree).2 (hleft hfree)⟩⟩
    · exact (xor_iff_of_required ho hcarried hsession hattached hneeds).2 (hplaced hneeds)
    · rw [hsecurity, hrequired, hfree]
      rfl

end Carried

end Action

/-- **How the operation of an action carries the session.** An action whose path no other
one has gets one operation, which has an envelope only in the enveloped profile and in body
style. It carries what the action asks for, save in these cases: the credential is to be in
the body, and there is no body; or the name of the session parameter is that of another
shared parameter that the operation lists. -/
theorem credential_exact {config : Config} {schema : Schema} {ctx : OperationContext}
    {d : Document} (hctx : (OperationContext.ofSchema config schema).result = .ok ctx)
    (h : (compile config schema).result = .ok d) {before after : List (Service × Action)}
    {s : Service} {a : Action}
    (hin : includedActions config schema.services = before ++ (s, a) :: after)
    (halone : ∀ e ∈ before ++ after, actionPath e.1.id e.2.name ≠ actionPath s.id a.name) :
    ∃ method operation,
      d.paths.get? (actionPath s.id a.name) = some (fields [(method, operation)]) ∧
      (operation.HasEnvelope → config.profile = .enveloped ∧ config.styleOf a = .body) ∧
      (a.Carried config.sessionParameter operation ↔
        (a.sessionRequired = true → config.profile = .enveloped ∧ config.styleOf a = .body →
          (a.parameters = [] ↔ RequestParameters.Reserved config.sessionParameter)) ∧
        (a.sessionRequired = false → ¬ RequestParameters.Reserved config.sessionParameter ∧
          config.sessionParameter ∉ (ctx.sharedBy a).map Prod.fst)) := by
  obtain ⟨ctx', definitions, operations, hctx', -, hops, rfl⟩ := compile_eq_ok h
  obtain rfl : ctx' = ctx := Except.ok.inj (hctx'.symm.trans hctx)
  have hof := OperationContext.of_ofSchema hctx
  have hbody : ctx'.SessionInBody a ↔ config.profile = .enveloped ∧ config.styleOf a = .body := by
    unfold OperationContext.SessionInBody
    rw [hof.config_eq, hof.styleOf_eq]
  obtain ⟨hsession, hattached⟩ := RequestParameters.session_of_ofSettings hof.requestParameters
  rw [hin] at hops
  obtain ⟨o, ho, hstands⟩ := exists_operation_alone hops halone
  obtain ⟨method, operation, hitem, hcarried⟩ := Document.exists_carriedBy (d :=
    SwaggerForge.assemble schema ctx' definitions operations) config hstands
  refine ⟨method, operation, hitem, fun he => ?_, ?_⟩
  · exact hbody.1 ((hcarried.hasEnvelope.trans
      (OperationContext.envelope_of_operationOf ho)).1 he).1
  · rw [← hbody]
    exact Action.carried_iff ho hcarried hsession hattached

/-- A schema whose only action has no parameters. -/
def pingSchema : Schema where
  apiVersion := "1.0"
  services := [{ id := "system", name := "system", actions := [{ name := "ping" }] }]

/-- The configuration of an API that puts the credential into the body. -/
def envelopedConfig : Config := { profile := .enveloped }

/-- **Without parameters there is no envelope**: the action needs a session, and its
operation has no place for the credential. -/
theorem not_carried_pingSchema : ∃ d method operation,
    (compile envelopedConfig pingSchema).result = .ok d ∧
    d.paths.get? (actionPath "system" "ping") = some (fields [(method, operation)]) ∧
    ¬ Action.Carried { name := "ping" } "ks" operation := by
  have hcontext : ∃ ctx, (OperationContext.ofSchema envelopedConfig pingSchema).result = .ok ctx :=
    ⟨_, rfl⟩
  have hdocument : ∃ d, (compile envelopedConfig pingSchema).result = .ok d := ⟨_, rfl⟩
  obtain ⟨ctx, hctx⟩ := hcontext
  obtain ⟨d, hd⟩ := hdocument
  obtain ⟨method, operation, hitem, -, hcarried⟩ :=
    @credential_exact _ _ ctx d hctx hd [] [] _ _ rfl fun e he => nomatch he
  refine ⟨d, method, operation, hd, hitem, fun h => ?_⟩
  have hreserved := ((hcarried.1 h).1 rfl ⟨rfl, rfl⟩).1 rfl
  exact absurd hreserved (by decide)

end SwaggerForge
