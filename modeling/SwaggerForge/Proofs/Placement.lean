import SwaggerForge.Proofs.Sharing

/-!
# Where operations stand

A schema whose actions have paths of their own compiles to a document with one path for
each action and one operation under each path (`placed_of_compile`). The method is that of
the style the action is made in, except that an action in query style whose operation lists
an upload is moved from `get` to `post`. Which operations list uploads can be told from the
finished document (`Upload.Lists`): finishing changes neither the type of a listed parameter
nor what it refers to.
-/

namespace SwaggerForge

open Json

/-! ## Operations with paths of their own -/

/-- An operation with a new path stands alone under it, behind all others. -/
theorem addOperation_of_not_mem {paths : Table Json} {o : PlacedOperation}
    (h : o.path ∉ paths.keys) : addOperation paths o
      = ⟨paths.entries ++ [(o.path, Json.fields [(o.method, o.operation.toJson)])]⟩ := by
  unfold addOperation
  rw [Table.get?_eq_none_iff.2 h]
  exact Table.insert_of_not_mem h _

/-- **Operations with paths of their own** each stand alone. -/
theorem foldl_addOperation_of_nodup {operations : List PlacedOperation}
    (h : (operations.map (·.path)).Nodup) : operations.foldl addOperation ∅
      = ⟨operations.map fun o => (o.path, Json.fields [(o.method, o.operation.toJson)])⟩ := by
  induction operations using List.reverseRecOn with
  | nil => rfl
  | append_singleton operations o ih =>
    rw [List.map_append] at h
    obtain ⟨hnodup, -, hnew⟩ := List.nodup_append.1 h
    have hkeys : o.path ∉ (operations.foldl addOperation ∅).keys := by
      rw [ih hnodup]
      show o.path ∉ (operations.map fun o => (o.path, _)).map Prod.fst
      rw [List.map_map]
      exact fun hmem => hnew _ hmem _ (List.mem_singleton.2 rfl) rfl
    rw [List.foldl_append]
    show addOperation (operations.foldl addOperation ∅) o = _
    rw [addOperation_of_not_mem hkeys, ih hnodup, List.map_append]
    rfl

/-! ## What finishing does to paths -/

namespace Upload

theorem listsUpload_responsesWithoutFiles (shared : Table Json) (o : Json) :
    listsUpload shared (responsesWithoutFiles o) = listsUpload shared o := by
  unfold listsUpload
  rw [parametersOf_responsesWithoutFiles]

/-- An operation that stands alone under `get` moves to `post` if it lists an upload. -/
theorem promoteItem_get (shared : Table Json) (o : Json) :
    promoteItem shared (fields [("get", o)])
      = if listsUpload shared o then fields [("post", promoted o)] else fields [("get", o)] :=
  rfl

/-- An operation that stands alone under `post` stays there. -/
theorem promoteItem_post (shared : Table Json) (o : Json) :
    promoteItem shared (fields [("post", o)]) = fields [("post", o)] :=
  rfl

end Upload

/-- One operation that is changed. -/
theorem Json.mapFields_singleton (f : Json → Json) (key : String) (j : Json) :
    (fields [(key, j)]).mapFields f = fields [(key, f j)] :=
  rfl

namespace Document

@[simp] theorem keys_paths_finish (d : Document) (config : Config) :
    (d.finish config).paths.keys = d.paths.keys := by
  show ((((d.paths.map (mapFields responsesWithoutFiles)).map
    (Upload.promoteItem d.parameters)).mapEntries _)).keys = _
  rw [Table.keys_mapEntries, Table.keys_map, Table.keys_map]

/-- The sources of the pick lists that are put on a document when it is finished. -/
def pickSources (config : Config) (d : Document) : List Hint.Source :=
  Hint.sources config d.removeFileTypes.promoteUploads.paths

/-- **The path items of a finished document**: without uploads in their responses, with
uploads moved, and with hints. -/
theorem get?_paths_finish (d : Document) (config : Config) (path : String) :
    (d.finish config).paths.get? path
      = (d.paths.get? path).map fun item =>
          (Upload.promoteItem d.parameters (item.mapFields responsesWithoutFiles)).mapFields
            (Hint.operation (d.pickSources config) path) := by
  show ((((d.paths.map (mapFields responsesWithoutFiles)).map
    (Upload.promoteItem d.parameters)).mapEntries _)).get? path = _
  rw [Table.get?_mapEntries, Table.get?_map, Table.get?_map, Option.map_map, Option.map_map]
  rfl

section Alone

variable {d : Document} {path : String} {o : Json} (config : Config)

/-- **An operation that stands alone under `get`** is moved if it lists an upload. -/
theorem get?_paths_finish_of_get (h : d.paths.get? path = some (fields [("get", o)])) :
    (d.finish config).paths.get? path
      = if Upload.listsUpload d.parameters o then
          some (fields [("post", Hint.operation (d.pickSources config) path
            (Upload.promoted (responsesWithoutFiles o)))])
        else some (fields [("get",
          Hint.operation (d.pickSources config) path (responsesWithoutFiles o))]) := by
  rw [get?_paths_finish, h, Option.map_some, mapFields_singleton, Upload.promoteItem_get,
    Upload.listsUpload_responsesWithoutFiles]
  split
  · rw [mapFields_singleton]
  · rw [mapFields_singleton]

/-- **An operation that stands alone under `post`** stays where it is. -/
theorem get?_paths_finish_of_post (h : d.paths.get? path = some (fields [("post", o)])) :
    (d.finish config).paths.get? path = some (fields [("post",
      Hint.operation (d.pickSources config) path (responsesWithoutFiles o))]) := by
  rw [get?_paths_finish, h, Option.map_some, mapFields_singleton, Upload.promoteItem_post, mapFields_singleton]

/-- **An operation that stands alone** stands alone when the document is finished: it stays, or
it is moved. -/
theorem exists_finished_alone {o : PlacedOperation}
    (h : d.paths.get? path = some (fields [(o.method, o.operation.toJson)])) :
    ∃ method operation,
      (d.finish config).paths.get? path = some (fields [(method, operation)]) ∧
      (operation = Hint.operation (d.pickSources config) path
          (responsesWithoutFiles o.operation.toJson) ∨
        operation = Hint.operation (d.pickSources config) path
          (Upload.promoted (responsesWithoutFiles o.operation.toJson))) := by
  have hmethod : o.method = o.operation.style.method := rfl
  rw [hmethod] at h
  cases hstyle : o.operation.style with
  | body =>
    rw [hstyle] at h
    exact ⟨_, _, get?_paths_finish_of_post config h, Or.inl rfl⟩
  | query =>
    rw [hstyle] at h
    have hitem := get?_paths_finish_of_get config h
    split at hitem
    · exact ⟨_, _, hitem, Or.inr rfl⟩
    · exact ⟨_, _, hitem, Or.inl rfl⟩

end Alone

end Document

/-! ## What finishing leaves of an operation -/

theorem Operation.field?_operationId (o : Operation) :
    o.toJson.field? "operationId" = some (.string o.id) := by
  show List.lookup "operationId" (_ ++ _ ++ _ ++ _ ++ _ ++ _ ++ _ ++ _ ++ _) = _
  cases o.description <;> rfl

theorem Operation.field?_requestFormat (o : Operation) :
    o.toJson.field? "x-requestFormat" = some (.string o.style.method) := by
  show List.lookup "x-requestFormat" (_ ++ _ ++ _ ++ _ ++ _ ++ _ ++ _ ++ _ ++ _) = _
  cases o.description <;> cases o.deprecated <;> cases o.beta <;> rfl

/-- An operation that stays where it is keeps all fields but its parameters and responses. -/
theorem field?_hints_of_ne {key : String} (hp : key ≠ "parameters") (hr : key ≠ "responses")
    (sources : List Hint.Source) (path : String) (o : Json) :
    (Hint.operation sources path (responsesWithoutFiles o)).field? key = o.field? key := by
  unfold Hint.operation responsesWithoutFiles
  rw [field?_modifyField, if_neg hp, field?_modifyField, if_neg hr]

/-- An operation that is moved keeps them as well, save for how it is requested. -/
theorem field?_hints_promoted_of_ne {key : String} (hp : key ≠ "parameters")
    (hr : key ≠ "responses") (hformat : key ≠ "x-requestFormat") (sources : List Hint.Source)
    (path : String) (o : Json) :
    (Hint.operation sources path (Upload.promoted (responsesWithoutFiles o))).field? key
      = o.field? key := by
  unfold Hint.operation Upload.promoted responsesWithoutFiles
  rw [field?_modifyField, if_neg hp, field?_setField_of_ne hformat, field?_modifyField, if_neg hp,
    field?_modifyField, if_neg hr]

/-- An operation that is moved asks for a form. -/
theorem field?_hints_promoted_requestFormat (sources : List Hint.Source) (path : String)
    (t : Table Json) :
    (Hint.operation sources path (Upload.promoted (responsesWithoutFiles (.object t)))).field?
      "x-requestFormat" = some (.string "file") := by
  unfold Hint.operation
  rw [field?_modifyField, if_neg (by decide)]
  show (Table.insert _ "x-requestFormat" (Json.string "file")).get? "x-requestFormat" = _
  rw [Table.get?_insert, if_pos rfl]

namespace Upload

/-! ## Listed uploads -/

/-- **A parameter that is an upload**, itself or the shared one that it refers to. -/
def Listed (shared : Table Json) (p : Json) : Prop :=
  p.field? "type" = some fileType ∨
    ∃ key, p.field? "$ref" = some (.string (parametersPrefix ++ key)) ∧
      (shared.get? key).bind (·.field? "type") = some fileType

/-- **An operation that lists an upload**, given the shared parameters. -/
def Lists (shared : Table Json) (operation : Json) : Prop :=
  ∃ p ∈ parametersOf operation, Listed shared p

/-- Whether a parameter is an upload depends on types and on what it refers to. -/
theorem listed_congr {shared shared' : Table Json} {p p' : Json}
    (htype : p'.field? "type" = p.field? "type") (href : p'.field? "$ref" = p.field? "$ref")
    (hshared : ∀ key, (shared'.get? key).bind (·.field? "type")
      = (shared.get? key).bind (·.field? "type")) : Listed shared' p' ↔ Listed shared p := by
  unfold Listed
  simp only [htype, href, hshared]

/-- Changes of single parameters that leave their types and references alone. -/
theorem lists_congr {shared shared' : Table Json} {o o' : Json} {g : Json → Json}
    (hparameters : parametersOf o' = (parametersOf o).map g)
    (hg : ∀ p, (g p).field? "type" = p.field? "type" ∧ (g p).field? "$ref" = p.field? "$ref")
    (hshared : ∀ key, (shared'.get? key).bind (·.field? "type")
      = (shared.get? key).bind (·.field? "type")) : Lists shared' o' ↔ Lists shared o := by
  unfold Lists
  simp only [hparameters, List.mem_map, exists_exists_and_eq_and]
  exact exists_congr fun p => and_congr_right fun _ => listed_congr (hg p).1 (hg p).2 hshared

end Upload

/-- **A parameter of an operation is an upload** exactly when it is taken for one. -/
theorem OperationParameter.listed_toJson_iff (shared : Table Json) (p : OperationParameter) :
    Upload.Listed shared p.toJson ↔ Upload.isListedUpload shared p.toJson = true := by
  unfold Upload.Listed Upload.isListedUpload
  rw [p.sharedKey?_toJson]
  cases p with
  | shared key =>
    have href (key' : String) : (parameterRef key).field? "$ref"
        = some (.string (parametersPrefix ++ key')) ↔ key' = key := by
      constructor
      · intro h
        have htarget : parametersPrefix ++ key = parametersPrefix ++ key' :=
          Json.string.inj (Option.some.inj h)
        have hkey := parameterKey?_append key'
        rw [← htarget, parameterKey?_append] at hkey
        exact (Option.some.inj hkey).symm
      · rintro rfl
        rfl
    have htype : ¬ (parameterRef key).field? "type" = some fileType := fun h => nomatch h
    show (parameterRef key).field? "type" = _ ∨ (∃ key', (parameterRef key).field? "$ref" = _ ∧ _) ↔
      (shared.get? key).any Upload.isUpload = true
    rw [or_iff_right htype]
    simp only [href, exists_eq_left]
    cases shared.get? key with
    | none => exact iff_of_false (fun h => nomatch h) Bool.false_ne_true
    | some q => exact Upload.isUpload_iff.symm
  | inline p =>
    show _ ↔ Upload.isUpload p.toJson = true
    rw [Upload.isUpload_iff]
    refine or_iff_left ?_
    rintro ⟨key, href, -⟩
    exact nomatch (p.field?_toJson_eq_none (by decide)).symm.trans href
  | body b =>
    refine iff_of_false ?_ Bool.false_ne_true
    rintro (htype | ⟨key, href, -⟩)
    · cases htype
    · cases href

theorem Operation.lists_toJson_iff (shared : Table Json) (o : Operation) :
    Upload.Lists shared o.toJson ↔ Upload.listsUpload shared o.toJson = true := by
  unfold Upload.Lists Upload.listsUpload
  rw [o.parametersOf_toJson, List.any_eq_true]
  refine exists_congr fun j => and_congr_right fun hj => ?_
  obtain ⟨p, -, rfl⟩ := List.mem_map.1 hj
  exact p.listed_toJson_iff shared

/-! ## What finishing leaves of uploads -/

theorem Upload.field?_markInline_of_ne {key : String} (h : key ≠ "in") (p : Json) :
    (markInline p).field? key = p.field? key := by
  unfold markInline
  split
  · rfl
  · exact field?_mark_of_ne h p

/-- Finishing leaves the types of shared parameters alone. -/
theorem Document.type_parameters_finish (d : Document) (config : Config) (key : String) :
    ((d.finish config).parameters.get? key).bind (·.field? "type")
      = (d.parameters.get? key).bind (·.field? "type") := by
  obtain ⟨sources, hget⟩ := d.get?_parameters_finish config
  rw [hget key]
  cases d.parameters.get? key with
  | none => rfl
  | some p =>
    show (Hint.parameter sources none _).field? "type" = p.field? "type"
    rw [Hint.field?_parameter sources none (by decide) (by decide)]
    split
    · exact Upload.field?_mark_of_ne (by decide) p
    · rfl

section Finished

variable (d : Document) (config : Config) (sources : List Hint.Source) (path : String) (o : Json)

/-- **Whether an operation lists an upload** can be told from the finished document, whether
the operation was moved or not. -/
theorem lists_finish :
    Upload.Lists (d.finish config).parameters
        (Hint.operation sources path (responsesWithoutFiles o)) ↔ Upload.Lists d.parameters o := by
  refine Upload.lists_congr (parametersOf_hints o sources path) (fun p => ?_)
    (d.type_parameters_finish config)
  · exact ⟨Hint.field?_parameter sources _ (by decide) (by decide) p,
      Hint.field?_parameter sources _ (by decide) (by decide) p⟩

theorem lists_finish_promoted :
    Upload.Lists (d.finish config).parameters
        (Hint.operation sources path (Upload.promoted (responsesWithoutFiles o))) ↔
      Upload.Lists d.parameters o := by
  refine Upload.lists_congr (parametersOf_hints_promoted o sources path) (fun p => ?_)
    (d.type_parameters_finish config)
  · rw [Hint.field?_parameter sources _ (by decide) (by decide),
      Hint.field?_parameter sources _ (by decide) (by decide)]
    exact ⟨Upload.field?_markInline_of_ne (by decide) p, Upload.field?_markInline_of_ne (by decide) p⟩

end Finished

/-! ## The place of an operation -/

/-- **An operation in its place**: alone under the path of its action, with the identifier
of the action, and requested as its style and the uploads it lists demand. -/
structure Document.Places (d : Document) (config : Config) (s : Service) (a : Action)
    (method : String) (operation : Json) : Prop where
  alone : d.paths.get? (actionPath s.id a.name) = some (Json.fields [(method, operation)])
  id : operation.field? "operationId" = some (.string (s.name ++ "." ++ a.name))
  get : method = "get" ↔ config.styleOf a = .query ∧ ¬ Upload.Lists d.parameters operation
  post : method ≠ "get" → method = "post"
  format : operation.field? "x-requestFormat" = some (.string
    (if method = "get" then "get" else if config.styleOf a = .query then "file" else "post"))

theorem id_of_operationOf {ctx : OperationContext} {s : Service} {a : Action}
    {o : PlacedOperation} (ho : ctx.OperationOf s a o) :
    o.operation.id = s.name ++ "." ++ a.name := by
  cases ho <;> rfl

/-- **The operation of an action** that is put alone under its path is in its place when the
document is finished. -/
theorem Document.exists_places_finish {d : Document} {config : Config} {ctx : OperationContext}
    {s : Service} {a : Action} {o : PlacedOperation} (ho : ctx.OperationOf s a o)
    (hstyle : ctx.styleOf a = config.styleOf a)
    (halone : d.paths.get? (actionPath s.id a.name)
      = some (Json.fields [(o.method, o.operation.toJson)])) :
    ∃ method operation, (d.finish config).Places config s a method operation := by
  have hid : o.operation.toJson.field? "operationId" = some (.string (s.name ++ "." ++ a.name)) := by
    rw [o.operation.field?_operationId, id_of_operationOf ho]
  have hformat : o.operation.toJson.field? "x-requestFormat" = some (.string o.method) :=
    o.operation.field?_requestFormat
  have hmethod : o.method = (config.styleOf a).method := by
    rw [OperationContext.method_of_operationOf ho, hstyle]
  rw [hmethod] at halone hformat
  cases hquery : config.styleOf a with
  | body =>
    rw [hquery] at halone hformat
    refine ⟨"post", _, get?_paths_finish_of_post config halone, ?_, ?_, fun _ => rfl, ?_⟩
    · rw [field?_hints_of_ne (by decide) (by decide)]
      exact hid
    · rw [hquery]
      exact iff_of_false (by decide) fun h => nomatch h.1
    · rw [hquery, field?_hints_of_ne (by decide) (by decide)]
      exact hformat
  | query =>
    rw [hquery] at halone hformat
    have hitem := get?_paths_finish_of_get config halone
    have hlists := o.operation.lists_toJson_iff d.parameters
    by_cases hupload : Upload.Lists d.parameters o.operation.toJson
    · -- the operation is moved
      rw [if_pos (hlists.1 hupload)] at hitem
      refine ⟨"post", _, hitem, ?_, ?_, fun _ => rfl, ?_⟩
      · rw [field?_hints_promoted_of_ne (by decide) (by decide) (by decide)]
        exact hid
      · refine iff_of_false (by decide) fun h => h.2 ?_
        exact (lists_finish_promoted d config _ _ _).2 hupload
      · rw [hquery]
        exact field?_hints_promoted_requestFormat _ _ _
    · -- the operation stays under `get`
      rw [if_neg fun h => hupload (hlists.2 h)] at hitem
      refine ⟨"get", _, hitem, ?_, ?_, fun h => absurd rfl h, ?_⟩
      · rw [field?_hints_of_ne (by decide) (by decide)]
        exact hid
      · refine iff_of_true rfl ⟨hquery, fun h => hupload ?_⟩
        exact (lists_finish d config _ _ _).1 h
      · rw [field?_hints_of_ne (by decide) (by decide)]
        exact hformat

/-- **One operation for every action.** Where the actions that are included have paths of
their own, the paths of the document are those of the actions, in their order, and under
each is the operation of its action and no other, in its place. -/
theorem placed_of_compile {config : Config} {schema : Schema} {d : Document}
    (h : (compile config schema).result = .ok d)
    (hpaths : ((includedActions config schema.services).map fun e =>
      actionPath e.1.id e.2.name).Nodup) :
    d.paths.keys = ((includedActions config schema.services).map fun e =>
        actionPath e.1.id e.2.name) ∧
      ∀ e ∈ includedActions config schema.services,
        ∃ method operation, d.Places config e.1 e.2 method operation := by
  obtain ⟨ctx, definitions, operations, hok, -, hops, rfl⟩ := compile_eq_ok h
  have hctx := OperationContext.of_ofSchema hok
  -- the paths of the operations are those of the actions, one by one
  have hsame : ((includedActions config schema.services).map fun e => actionPath e.1.id e.2.name)
      = operations.map (·.path) :=
    map_eq_of_forall₂ hops fun e o ho => (OperationContext.path_of_operationOf ho).symm
  have hassembled : (assemble schema ctx definitions operations).paths
      = ⟨operations.map fun o => (o.path, Json.fields [(o.method, o.operation.toJson)])⟩ :=
    foldl_addOperation_of_nodup (hsame ▸ hpaths)
  have hkeys : (assemble schema ctx definitions operations).paths.keys
      = (includedActions config schema.services).map fun e => actionPath e.1.id e.2.name := by
    rw [hassembled, hsame]
    show (operations.map fun o => (o.path, _)).map Prod.fst = _
    rw [List.map_map]
    rfl
  rw [Document.keys_paths_finish]
  refine ⟨hkeys, fun e he => ?_⟩
  obtain ⟨o, ho, hof⟩ := exists_right_of_forall₂ hops he
  refine Document.exists_places_finish hof (hctx.styleOf_eq e.2) ?_
  refine Table.get?_of_mem_entries (hkeys ▸ hpaths) ?_
  rw [hassembled, ← OperationContext.path_of_operationOf hof]
  exact List.mem_map.2 ⟨o, ho, rfl⟩

/-! ## An example

Pictures are listed and added, and the service can be asked whether it is there. -/

/-- The schema of the example. -/
def pictureSchema : Schema where
  apiVersion := "1.0"
  services := [
    { id := "picture", name := "picture", actions := [
        { name := "list", parameters := [{ name := "page", type := "int" }] },
        { name := "add", parameters := [
            { name := "title", type := "string" }, { name := "image", type := "file" }] }] },
    { id := "system", name := "system", actions := [{ name := "ping" }] }]

/-- **In query style** pictures are listed by `get`, and the operation that adds one, which sends
an upload, is moved to `post`. -/
theorem placed_of_compile_pictureSchema :
    ((includedActions { style := .query } pictureSchema.services).map fun e =>
      actionPath e.1.id e.2.name).Nodup ∧
    ∃ d list add, (compile { style := .query } pictureSchema).result = .ok d ∧
      d.paths.keys = ["/service/picture/action/list", "/service/picture/action/add",
        "/service/system/action/ping"] ∧
      d.paths.get? "/service/picture/action/list" = some (fields [("get", list)]) ∧
      d.paths.get? "/service/picture/action/add" = some (fields [("post", add)]) ∧
      ∀ e ∈ includedActions { style := .query } pictureSchema.services,
        ∃ method operation, d.Places { style := .query } e.1 e.2 method operation := by
  have hpaths : ((includedActions { style := .query } pictureSchema.services).map fun e =>
      actionPath e.1.id e.2.name).Nodup := by decide
  have hdocument : ∃ d list add, (compile { style := .query } pictureSchema).result = .ok d ∧
      d.paths.get? "/service/picture/action/list" = some (fields [("get", list)]) ∧
      d.paths.get? "/service/picture/action/add" = some (fields [("post", add)]) :=
    ⟨_, _, _, rfl, rfl, rfl⟩
  obtain ⟨d, list, add, hd, hlist, hadd⟩ := hdocument
  obtain ⟨hkeys, hplaces⟩ := placed_of_compile hd hpaths
  exact ⟨hpaths, d, list, add, hd, hkeys, hlist, hadd, hplaces⟩

end SwaggerForge
