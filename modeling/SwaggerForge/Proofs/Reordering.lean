import SwaggerForge.Proofs.NoteOrder
import SwaggerForge.Proofs.SharedKeys

/-!
# Declarations in another order

Services may be declared in any order, and the actions of a service too: what is compiled
differs at most in the order of keys, tags and notes (`compile_reordered`). Three things
could get in the way, and each calls for a reason of its own. Actions share one cache, but
what comes of an action does not depend on it. They write shared parameters to one table,
where the last one stays, but one key always has one value. And the finishing passes look at
the document as a whole – whether an upload is listed, whether a path is there – but only by
key.

The paths of the actions must be distinct: of two actions with one path the later one stands.
-/

namespace SwaggerForge

open Json

/-! ## Tables in another order -/

namespace Table

variable {α : Type} {t t' : Table α}

/-- **Tables with the same values under the same keys**, in whatever order. -/
def SameMap (t t' : Table α) : Prop := ∀ key, t.get? key = t'.get? key

theorem SameMap.refl (t : Table α) : t.SameMap t := fun _ => rfl

theorem sameMap_of_perm (hn : t.keys.Nodup) (h : t.entries.Perm t'.entries) : t.SameMap t' := by
  have hn' : t'.keys.Nodup := (h.map Prod.fst).nodup_iff.1 hn
  intro key
  refine Option.ext fun v => ?_
  constructor
  · intro hv
    exact get?_of_mem_entries hn' (h.mem_iff.1 (mem_entries_of_get? hv))
  · intro hv
    exact get?_of_mem_entries hn (h.mem_iff.2 (mem_entries_of_get? hv))

theorem SameMap.mapEntries (h : t.SameMap t') {β : Type} (f : String → α → β) :
    (t.mapEntries f).SameMap (t'.mapEntries f) := by
  intro key
  rw [get?_mapEntries, get?_mapEntries, h key]

/-- Where keys are distinct, what is in a table is what can be looked up. -/
theorem mem_values_iff_get? (hn : t.keys.Nodup) {x : α} :
    x ∈ t.values ↔ ∃ key, t.get? key = some x := by
  rw [mem_values]
  exact exists_congr fun key => ⟨get?_of_mem_entries hn, mem_entries_of_get?⟩

end Table

/-! ## Documents in another order -/

/-- The name that a tag is sorted by. -/
def tagKey? (tag : Json) : Option String := (tag.textField? "name").map lowercase

/-- **Documents that differ in the order of their entries only.** Tags may be in another
order too, so long as the same name in lower case is at each place. -/
structure Document.SameUpToOrder (d d' : Document) : Prop where
  header : d.header = d'.header
  parameters : d.parameters.SameMap d'.parameters
  enums : d.enums = d'.enums
  definitions : d.definitions.SameMap d'.definitions
  paths : d.paths.SameMap d'.paths
  tags : d.tags.Perm d'.tags
  tagKeys : d.tags.map tagKey? = d'.tags.map tagKey?
  errors : d.errors = d'.errors

/-- Where pick lists are offered from does not depend on the order of paths. -/
theorem Hint.sources_congr {paths paths' : Table Json} (h : paths.SameMap paths')
    (config : Config) : Hint.sources config paths = Hint.sources config paths' := by
  unfold Hint.sources
  refine List.filterMap_congr fun p _ => ?_
  unfold Hint.source?
  dsimp only
  rw [h]

/-- Whether an operation is moved does not depend on the order of shared parameters. -/
theorem Upload.promoteItem_congr {shared shared' : Table Json} (h : shared.SameMap shared') :
    Upload.promoteItem shared = Upload.promoteItem shared' := by
  have hlisted : isListedUpload shared = isListedUpload shared' := by
    funext p
    unfold isListedUpload
    cases sharedKey? p with
    | none => rfl
    | some key => exact congrArg (Option.any isUpload) (h key)
  funext item
  unfold Upload.promoteItem listsUpload
  rw [hlisted]

namespace Document.SameUpToOrder

variable {d d' : Document} (h : d.SameUpToOrder d')
include h

theorem removeFileTypes : d.removeFileTypes.SameUpToOrder d'.removeFileTypes :=
  { h with
    definitions := h.definitions.mapEntries _
    paths := h.paths.mapEntries _ }

theorem mem_keysUnderGet (hn : d.paths.keys.Nodup) (hn' : d'.paths.keys.Nodup) {key : String} :
    key ∈ d.keysUnderGet ↔ key ∈ d'.keysUnderGet := by
  show key ∈ d.paths.values.flatMap _ ↔ key ∈ d'.paths.values.flatMap _
  simp only [List.mem_flatMap, Table.mem_values_iff_get? hn, Table.mem_values_iff_get? hn',
    h.paths _]

/-- **Moving uploads** looks at other operations and at shared parameters by key only. -/
theorem promoteUploads (hn : d.paths.keys.Nodup) (hn' : d'.paths.keys.Nodup) :
    d.promoteUploads.SameUpToOrder d'.promoteUploads :=
  { h with
    parameters := by
      intro key
      show (d.paths.values.foldl Upload.markSharedOfItem d.parameters).get? key
        = (d'.paths.values.foldl Upload.markSharedOfItem d'.parameters).get? key
      rw [Upload.foldl_markSharedOfItem, Upload.foldl_markSharedOfItem,
        Table.get?_foldl_modify Upload.mark_mark, Table.get?_foldl_modify Upload.mark_mark,
        h.parameters key]
      exact if_congr (h.mem_keysUnderGet hn hn') rfl rfl
    paths := by
      show (d.paths.map (Upload.promoteItem d.parameters)).SameMap
        (d'.paths.map (Upload.promoteItem d'.parameters))
      rw [Upload.promoteItem_congr h.parameters]
      exact h.paths.mapEntries _ }

theorem addHints (config : Config) : (d.addHints config).SameUpToOrder (d'.addHints config) := by
  have hsources := Hint.sources_congr h.paths config
  unfold Document.addHints
  dsimp only
  rw [hsources]
  exact { h with
    paths := h.paths.mapEntries _
    parameters := h.parameters.mapEntries _
    definitions := h.definitions.mapEntries _ }

/-- **Finishing keeps the order of entries out of the rest.** -/
theorem finish (hn : d.paths.keys.Nodup) (hn' : d'.paths.keys.Nodup) (config : Config) :
    (d.finish config).SameUpToOrder (d'.finish config) := by
  have hfree := h.removeFileTypes
  have hkeys (d : Document) (hn : d.paths.keys.Nodup) : d.removeFileTypes.paths.keys.Nodup := by
    show (d.paths.map _).keys.Nodup
    rw [Table.keys_map]
    exact hn
  exact (hfree.promoteUploads (hkeys d hn) (hkeys d' hn')).addHints config

end Document.SameUpToOrder

/-! ## Tags -/

theorem tagKey?_tag (s : Service) : tagKey? s.tag = some (lowercase s.name) := rfl

/-- **Tags are sorted**, so that services in another order change only the order of tags
whose names are the same in lower case. -/
theorem perm_tagsOf {services services' : List Service}
    (h : (services.map fun s => (lowercase s.name, s.tag)).Perm
      (services'.map fun s => (lowercase s.name, s.tag))) :
    (tagsOf services).Perm (tagsOf services') ∧
      (tagsOf services).map tagKey? = (tagsOf services').map tagKey? := by
  have hsorted : ((services.map fun s => (lowercase s.name, s.tag)).mergeSort
        fun a b => !decide (b.1 < a.1)).Perm
      ((services'.map fun s => (lowercase s.name, s.tag)).mergeSort
        fun a b => !decide (b.1 < a.1)) :=
    ((List.mergeSort_perm _ _).trans h).trans (List.mergeSort_perm _ _).symm
  refine ⟨hsorted.map _, ?_⟩
  -- the keys alone are in order, and there is one order only
  have hkeys (services : List Service) : (tagsOf services).map tagKey?
      = (((services.map fun s => (lowercase s.name, s.tag)).mergeSort
          fun a b => !decide (b.1 < a.1)).map Prod.fst).map some := by
    unfold tagsOf
    rw [List.map_map, List.map_map]
    refine List.map_congr_left fun e he => ?_
    obtain ⟨s, -, rfl⟩ := List.mem_map.1 (List.mem_mergeSort.1 he)
    exact tagKey?_tag s
  have hpairwise (es : List (String × Json)) :
      ((es.mergeSort fun a b => !decide (b.1 < a.1)).map Prod.fst).Pairwise (· ≤ ·) := by
    have hle (a b : String × Json) : (!decide (b.1 < a.1)) = true ↔ a.1 ≤ b.1 := by
      rw [Bool.not_eq_true', decide_eq_false_iff_not, String.not_lt]
    rw [List.pairwise_map]
    refine (List.pairwise_mergeSort (fun a b c hab hbc => ?_) (fun a b => ?_) es).imp fun hab =>
      (hle _ _).1 hab
    · rw [hle] at hab hbc ⊢
      exact String.le_trans hab hbc
    · rw [Bool.or_eq_true, hle, hle]
      exact String.le_total a.1 b.1
  rw [hkeys, hkeys]
  refine congrArg (List.map some) ?_
  exact List.Perm.eq_of_pairwise (fun _ _ _ _ => String.le_antisymm) (hpairwise _) (hpairwise _)
    (hsorted.map Prod.fst)

/-! ## Schemas in another order -/

/-- The same service with its actions in another order. -/
def Service.Reordered (s s' : Service) : Prop :=
  ∃ actions, s.actions.Perm actions ∧ s' = { s with actions }

/-- **The same schema with its services, and the actions of each, in another order.** -/
def Schema.Reordered (schema schema' : Schema) : Prop :=
  ∃ between services, List.Forall₂ Service.Reordered schema.services between ∧
    between.Perm services ∧ schema' = { schema with services }

/-- A service without its actions: what an action is told of its service. -/
def Service.bare (s : Service) : Service := { s with actions := [] }

/-- The actions that become operations, with what they are told of their services. -/
def bareActions (config : Config) (services : List Service) : List (Service × Action) :=
  (includedActions config services).map fun e => (e.1.bare, e.2)

theorem bareActions_eq (config : Config) (services : List Service) :
    bareActions config services = services.flatMap fun s =>
      if config.isExcluded s.name then [] else s.actions.map (s.bare, ·) := by
  unfold bareActions includedActions
  induction services with
  | nil => rfl
  | cons s rest ih =>
    rw [List.flatMap_cons, ← ih]
    cases h : config.isExcluded s.name with
    | true =>
      rw [List.filter_cons_of_neg (by rw [h]; exact Bool.false_ne_true), if_pos rfl]
      rfl
    | false =>
      rw [List.filter_cons_of_pos (by rw [h]; rfl), List.flatMap_cons, List.map_append,
        List.map_map, if_neg Bool.false_ne_true]
      rfl

/-- Lists that give permutations item by item give one together. -/
theorem perm_flatMap_of_forall₂ {α β : Type} {R : α → α → Prop} {f : α → List β}
    (hf : ∀ x y, R x y → (f x).Perm (f y)) {xs ys : List α} (h : List.Forall₂ R xs ys) :
    (xs.flatMap f).Perm (ys.flatMap f) := by
  induction h with
  | nil => exact .nil
  | cons hxy _ ih => exact (hf _ _ hxy).append ih

/-- A schema is accepted for the actions that become operations, whatever their order. -/
theorem Schema.Accepted.of_perm {config : Config} {schema : Schema} {services : List Service}
    (ha : schema.Accepted config)
    (h : (bareActions config schema.services).Perm (bareActions config services)) :
    ({ schema with services } : Schema).Accepted config := by
  have hactions : ∀ e' ∈ includedActions config services,
      ∃ e ∈ includedActions config schema.services, e.2 = e'.2 := by
    intro e' he'
    obtain ⟨e, he, heq⟩ := List.mem_map.1 (h.mem_iff.2 (List.mem_map_of_mem he'))
    exact ⟨e, he, (Prod.mk.inj heq).2⟩
  refine { ha.toDeclared with envelope := ha.envelope, parameters := ?_, results := ?_ }
  · intro e' he'
    obtain ⟨e, he, heq⟩ := hactions e' he'
    rw [← heq]
    exact ha.parameters e he
  · intro e' he'
    obtain ⟨e, he, heq⟩ := hactions e' he'
    rw [← heq]
    exact ha.results e he

namespace Schema.Reordered

variable {schema schema' : Schema} (h : schema.Reordered schema')
include h

/-- **The same actions become operations.** -/
theorem perm_bareActions (config : Config) :
    (bareActions config schema.services).Perm (bareActions config schema'.services) := by
  obtain ⟨between, services, heach, hperm, rfl⟩ := h
  rw [bareActions_eq, bareActions_eq]
  refine (perm_flatMap_of_forall₂ ?_ heach).trans (hperm.flatMap_right _)
  rintro s _ ⟨actions, hactions, rfl⟩
  dsimp only
  split
  · exact .nil
  · exact hactions.map _

theorem perm_tags : (schema.services.map fun s => (lowercase s.name, s.tag)).Perm
    (schema'.services.map fun s => (lowercase s.name, s.tag)) := by
  obtain ⟨between, services, heach, hperm, rfl⟩ := h
  have hsame : schema.services.map (fun s => (lowercase s.name, s.tag))
      = between.map fun s => (lowercase s.name, s.tag) := by
    refine map_eq_of_forall₂ heach ?_
    rintro s _ ⟨actions, -, rfl⟩
    rfl
  rw [hsame]
  exact hperm.map _

/-- What is declared beside services is the same. -/
theorem ofSchema_eq (config : Config) :
    OperationContext.ofSchema config schema' = OperationContext.ofSchema config schema := by
  obtain ⟨between, services, -, -, rfl⟩ := h
  rfl

/-- **Whether a schema is accepted** does not depend on its order. -/
theorem accepted_iff {config : Config} : schema.Accepted config ↔ schema'.Accepted config := by
  have hperm := h.perm_bareActions config
  obtain ⟨between, services, -, -, rfl⟩ := h
  exact ⟨fun ha => ha.of_perm hperm, fun ha => ha.of_perm hperm.symm⟩

end Schema.Reordered

/-! ## What actions share -/

namespace OperationContext

variable {ctx : OperationContext} {actions actions' : List (Service × Action)}

/-- Under other keys are the parameters of all requests. -/
theorem get?_sharedParameters_of_not_mem {key : String}
    (h : ∀ x ∈ actions, ∀ flat, (key, flat) ∉ ctx.sharedBy x.2) :
    (ctx.sharedParameters actions).get? key
      = (Table.ofList ctx.requestParameters.entries).get? key := by
  unfold sharedParameters Table.ofList
  rw [Table.insertAll_append]
  refine Table.get?_insertAll_of_not_mem (fun hmem => ?_) _
  obtain ⟨e, he, rfl⟩ := List.mem_map.1 hmem
  obtain ⟨x, hx, he⟩ := List.mem_flatMap.1 he
  obtain ⟨⟨key, flat⟩, hflat, rfl⟩ := List.mem_map.1 he
  exact h x hx flat hflat

/-- **What the actions of a schema share** does not depend on their order. -/
theorem PlainNames.sameMap_sharedParameters (hplain : ctx.PlainNames actions)
    (hperm : actions.Perm actions') :
    (ctx.sharedParameters actions).SameMap (ctx.sharedParameters actions') := by
  have hplain' : ctx.PlainNames actions' :=
    { hplain with parameters := fun e he => hplain.parameters e (hperm.mem_iff.2 he) }
  intro key
  by_cases hshared : ∃ x ∈ actions, ∃ flat, (key, flat) ∈ ctx.sharedBy x.2
  · obtain ⟨x, hx, flat, hflat⟩ := hshared
    rw [hplain.get?_sharedParameters hx hflat,
      hplain'.get?_sharedParameters (hperm.mem_iff.1 hx) hflat]
  · have hnone : ∀ x ∈ actions, ∀ flat, (key, flat) ∉ ctx.sharedBy x.2 :=
      fun x hx flat hflat => hshared ⟨x, hx, flat, hflat⟩
    rw [get?_sharedParameters_of_not_mem hnone,
      get?_sharedParameters_of_not_mem fun x hx => hnone x (hperm.mem_iff.2 hx)]

end OperationContext

/-! ## Compilations in another order -/

/-- A row of actions is the row of what they are told of their services. -/
theorem OperationContext.mapM_operation_eq (ctx : OperationContext) (config : Config)
    (services : List Service) :
    (includedActions config services).mapM (fun e => ctx.operation e.1 e.2)
      = (bareActions config services).mapM fun e => ctx.operation e.1 e.2 := by
  unfold bareActions
  rw [List.mapM_map]
  rfl

/-- **A row of the same actions in another order** gives the same operations in another
order: what an action becomes does not depend on the ones before it. -/
theorem OperationContext.perm_of_rows {ctx : OperationContext}
    {actions actions' : List (Service × Action)} {operations operations' : List PlacedOperation}
    (hperm : actions.Perm actions')
    (hrow : (actions.mapM fun e => ctx.operation e.1 e.2).fresh = .ok operations)
    (hrow' : (actions'.mapM fun e => ctx.operation e.1 e.2).fresh = .ok operations') :
    operations.Perm operations' := by
  have hresults (actions : List (Service × Action)) := (Cached.fresh_mapM
    (fun e => (ctx.thorough_operation e.1 e.2).toTransparent) actions).2
  exact perm_of_mapM_eq_ok hperm ((hresults actions).symm.trans hrow)
    ((hresults actions').symm.trans hrow')

/-- **The notes of a successful compilation** are those of what is declared and then those of
the row of actions. -/
theorem notes_compile_of_row {config : Config} {schema : Schema} {ctx : OperationContext}
    {definitions : Table Json} {operations : List PlacedOperation}
    (hctx : (OperationContext.ofSchema config schema).result = .ok ctx)
    (hdefinitions : definitionSection config schema.apiVersion ctx.flattening.definitions
      = .ok definitions)
    (hrow : ((includedActions config schema.services).mapM fun e => ctx.operation e.1 e.2).fresh
      = .ok operations) :
    (compile config schema).notes = (OperationContext.ofSchema config schema).notes
      ++ ((includedActions config schema.services).mapM
          fun e => ctx.operation e.1 e.2).freshNotes := by
  unfold compile
  rw [Report.notes_bind_ok hctx, Report.notes_bind_ok hdefinitions, Report.notes_bind_ok hrow]
  refine congrArg (_ ++ ·) ?_
  exact (List.nil_append _).trans (List.append_nil _)

/-- **The assembled documents** of operations in another order. -/
theorem sameUpToOrder_assemble {schema schema' : Schema} (h : schema.Reordered schema')
    {ctx : OperationContext} {definitions : Table Json}
    {operations operations' : List PlacedOperation}
    (hshared : (SwaggerForge.assemble schema ctx definitions operations).parameters.SameMap
      (SwaggerForge.assemble schema' ctx definitions operations').parameters)
    (hperm : operations.Perm operations') (hpaths : (operations.map (·.path)).Nodup) :
    (SwaggerForge.assemble schema ctx definitions operations).SameUpToOrder
      (SwaggerForge.assemble schema' ctx definitions operations') := by
  have htags := perm_tagsOf h.perm_tags
  have hpaths' : (operations'.map (·.path)).Nodup := (hperm.map _).nodup_iff.1 hpaths
  obtain ⟨between, services, -, -, rfl⟩ := h
  refine ⟨rfl, hshared, rfl, .refl _, ?_, htags.1, htags.2, rfl⟩
  refine Table.sameMap_of_perm (nodup_keys_foldl_addOperation operations) ?_
  show (operations.foldl addOperation ∅).entries.Perm (operations'.foldl addOperation ∅).entries
  rw [foldl_addOperation_of_nodup hpaths, foldl_addOperation_of_nodup hpaths']
  exact hperm.map _

/-- **The order of declarations does not matter.** Take a schema in which the actions that are
included have paths of their own, no class has a colon in its name and no parameter of an
action an opening bracket. With its services in another order, and the actions of each, it
compiles or not as before. What it compiles to differs in the order of keys and of tags with
names that are the same in lower case, and the notes are the same, each as often. -/
theorem compile_reordered {config : Config} {schema schema' : Schema}
    (h : schema.Reordered schema')
    (hpaths : ((includedActions config schema.services).map fun e =>
      actionPath e.1.id e.2.name).Nodup)
    (hclasses : ∀ c ∈ schema.classes, ':' ∉ c.name.toList)
    (hparameters : ∀ e ∈ includedActions config schema.services,
      ∀ p ∈ e.2.parameters, '[' ∉ p.name.toList) :
    (Passes (compile config schema).result ↔ Passes (compile config schema').result) ∧
    ∀ d d', (compile config schema).result = .ok d → (compile config schema').result = .ok d' →
      d.SameUpToOrder d' ∧
        (compile config schema).notes.Perm (compile config schema').notes := by
  refine ⟨?_, fun d d' hd hd' => ?_⟩
  · rw [Schema.passes_compile, Schema.passes_compile]
    exact h.accepted_iff
  obtain ⟨ctx, definitions, operations, hctx, hdefinitions, hrow, rfl⟩ := exists_row_of_compile hd
  obtain ⟨ctx', definitions', operations', hctx', hdefinitions', hrow', rfl⟩ :=
    exists_row_of_compile hd'
  have hperm := h.perm_bareActions config
  have hsame := h.ofSchema_eq config
  obtain rfl : ctx = ctx' := Except.ok.inj (hctx.symm.trans (hsame ▸ hctx'))
  have hversion : schema'.apiVersion = schema.apiVersion := by
    obtain ⟨between, services, -, -, rfl⟩ := h
    rfl
  obtain rfl : definitions = definitions' :=
    Except.ok.inj (hdefinitions.symm.trans (hversion ▸ hdefinitions'))
  have hnotes := notes_compile_of_row hctx hdefinitions hrow
  have hnotes' := notes_compile_of_row hctx' hdefinitions' hrow'
  rw [ctx.mapM_operation_eq] at hrow hrow' hnotes hnotes'
  have hops := OperationContext.operationOf_of_row hrow
  have hops' := OperationContext.operationOf_of_row hrow'
  refine ⟨?_, ?_⟩
  · have hplain : ctx.PlainNames (bareActions config schema.services) := by
      refine .of_schema (OperationContext.of_ofSchema hctx) hclasses ?_
      intro x hx
      obtain ⟨e, he, rfl⟩ := List.mem_map.1 hx
      exact hparameters e he
    have hdistinct : (operations.map (·.path)).Nodup := by
      have hbare : (bareActions config schema.services).map (fun e => actionPath e.1.id e.2.name)
          = operations.map (·.path) :=
        map_eq_of_forall₂ hops fun e o ho => (OperationContext.path_of_operationOf ho).symm
      rw [← hbare]
      unfold bareActions
      rw [List.map_map]
      exact hpaths
    refine (sameUpToOrder_assemble h ?_ (OperationContext.perm_of_rows hperm hrow hrow')
      hdistinct).finish (nodup_keys_foldl_addOperation _) (nodup_keys_foldl_addOperation _) config
    rw [parameters_assemble hops, parameters_assemble hops']
    exact hplain.sameMap_sharedParameters hperm
  · rw [hnotes, hnotes', hsame]
    exact (Cached.perm_freshNotes_mapM (fun e => ctx.thorough_operation e.1 e.2) hperm hrow
      hrow').append_left _

/-- The schema of the shelter with its services the other way round, and the actions of one of
them too. -/
def turnedSchema : Schema :=
  { shelterSchema with services := [{ clinic with actions := [discharge, examine] }, shelter] }

theorem compile_reordered_shelterSchema :
    shelterSchema.Reordered turnedSchema ∧ ∃ d d',
      (compile shelterConfig shelterSchema).result = .ok d ∧
      (compile shelterConfig turnedSchema).result = .ok d' ∧ d.SameUpToOrder d' ∧
      (compile shelterConfig shelterSchema).notes.Perm
        (compile shelterConfig turnedSchema).notes := by
  have hturned : shelterSchema.Reordered turnedSchema :=
    ⟨[shelter, { clinic with actions := [discharge, examine] }], _,
      .cons ⟨_, .refl _, rfl⟩ (.cons ⟨_, .swap _ _ _, rfl⟩ .nil), .swap _ _ _, rfl⟩
  have hpaths : ((includedActions shelterConfig shelterSchema.services).map fun e =>
      actionPath e.1.id e.2.name).Nodup := by decide
  have hclasses : ∀ c ∈ shelterSchema.classes, ':' ∉ c.name.toList := by decide
  have hparameters : ∀ e ∈ includedActions shelterConfig shelterSchema.services,
      ∀ p ∈ e.2.parameters, '[' ∉ p.name.toList := by decide
  obtain ⟨hpasses, hsame⟩ := compile_reordered hturned hpaths hclasses hparameters
  obtain ⟨d, hd⟩ := compile_shelterSchema
  obtain ⟨d', hd'⟩ := hpasses.1 ⟨d, hd⟩
  exact ⟨hturned, d, d', hd, hd', hsame d d' hd hd'⟩

end SwaggerForge
