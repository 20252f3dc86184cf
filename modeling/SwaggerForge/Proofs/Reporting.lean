import SwaggerForge.Proofs.Checks
import SwaggerForge.Proofs.Notes

/-!
# What a row of actions reports

The actions of a schema are made into operations one after the other, on one cache of
expansions, and some of them may fail. Each reports what it would report on its own, save
for one thing: the cuts of the classes that an earlier action has flattened are not noted
again (`OperationContext.getElem?_reports`). Which classes an action flattens depends on its
declaration alone: those of its parameters in a query, up to the first one that does not
pass (`OperationContext.mem_flattened_operation`).
-/

namespace SwaggerForge

/-! ## Steps that cut nothing -/

namespace Declarations

variable (env : Declarations)

theorem withoutCuts_enumValues (enumName : Option String) (context : String) :
    (env.enumValues enumName context).WithoutCuts := by
  unfold enumValues
  split
  · exact Report.withoutCuts_pure _
  · split
    · exact Report.withoutCuts_pure _
    · exact (Report.withoutCuts_missing _ _ _).bind fun _ => Report.withoutCuts_pure _

theorem withoutCuts_defineProperty (c : ClassDecl) (p : Property) :
    (env.defineProperty c p).WithoutCuts := by
  unfold defineProperty
  refine (Report.withoutCuts_check _).bind fun meant => ?_
  split
  · exact Report.withoutCuts_pure _
  · refine (Report.withoutCuts_check _).bind fun element => ?_
    split
    · exact Report.withoutCuts_pure _
    · exact (Report.withoutCuts_check _).bind fun _ =>
        (env.withoutCuts_enumValues _ _).bind fun _ => Report.withoutCuts_pure _

theorem withoutCuts_define (c : ClassDecl) : (env.define c).WithoutCuts := by
  have hdeclared : (env.defineDeclared c).WithoutCuts := by
    unfold defineDeclared
    refine (Report.withoutCuts_mapM (env.withoutCuts_defineProperty c) _).bind fun declared => ?_
    cases c.base with
    | none => exact Report.withoutCuts_pure _
    | some b => exact (Report.withoutCuts_check _).bind fun _ => Report.withoutCuts_pure _
  rcases env.define_cases c with h | ⟨context, h⟩
  · rw [h]
    exact hdeclared
  · rw [h]
    exact (Report.withoutCuts_missing _ _ _).bind fun _ => hdeclared

theorem withoutCuts_defineAll : env.defineAll.WithoutCuts :=
  (Report.withoutCuts_mapM (fun c => (env.withoutCuts_define c).bind fun _ =>
    Report.withoutCuts_pure _) _).bind fun _ => Report.withoutCuts_pure _

end Declarations

namespace OperationContext

/-- **What is declared is compiled without cuts**: they come from actions only. -/
theorem withoutCuts_ofSchema (config : Config) (schema : Schema) :
    (OperationContext.ofSchema config schema).WithoutCuts :=
  (Report.withoutCuts_check _).bind fun _ => (Report.withoutCuts_check _).bind fun _ =>
    (Report.withoutCuts_check _).bind fun _ =>
      (Declarations.withoutCuts_defineAll _).bind fun _ => Report.withoutCuts_pure _

variable (ctx : OperationContext)

theorem withoutCuts_constraints (p : Parameter) (type : Primitive) (context : String) :
    (ctx.constraints p type context).WithoutCuts :=
  (Report.withoutCuts_check _).bind fun _ =>
    (ctx.declarations.withoutCuts_enumValues _ _).bind fun _ => Report.withoutCuts_pure _

theorem withoutCuts_bodyProperty (a : Action) (p : Parameter) :
    (ctx.bodyProperty a p).WithoutCuts := by
  unfold bodyProperty
  refine (Report.withoutCuts_check _).bind fun meant => ?_
  split
  · exact Report.withoutCuts_pure _
  · exact (Report.withoutCuts_check _).bind fun _ =>
      (ctx.withoutCuts_constraints _ _ _).bind fun _ => Report.withoutCuts_pure _

theorem withoutCuts_bodyParameters (a : Action) : (ctx.bodyParameters a).WithoutCuts := by
  have hbody : (ctx.body a).WithoutCuts :=
    (Report.withoutCuts_mapM (fun p => (ctx.withoutCuts_bodyProperty a p).bind fun _ =>
      Report.withoutCuts_pure _) _).bind fun _ => Report.withoutCuts_pure _
  unfold bodyParameters
  dsimp only
  split
  · exact Report.withoutCuts_pure _
  · exact hbody.bind fun _ => Report.withoutCuts_pure _

theorem withoutCuts_errorLine (context name : String) :
    (ctx.errorLine context name).WithoutCuts := by
  unfold errorLine
  split
  · split <;> exact Report.withoutCuts_pure _
  · exact (Report.withoutCuts_missing _ _ _).bind fun _ => Report.withoutCuts_pure _

theorem withoutCuts_responses (s : Service) (a : Action) : (ctx.responses s a).WithoutCuts :=
  (Report.withoutCuts_check _).bind fun _ =>
    (Report.withoutCuts_mapM (ctx.withoutCuts_errorLine _) _).bind fun _ =>
      Report.withoutCuts_pure _

/-! ## Actions are incremental -/

theorem incremental_queryPart (a : Action) (p : Parameter) :
    Cached.Incremental ctx.flattening (ctx.queryPart a p) := by
  unfold queryPart
  refine (Cached.incremental_liftCheck _).bind fun meant => ?_
  split
  · exact (Cached.incremental_expansion _).bind fun _ => Cached.incremental_pure _
  · exact Cached.incremental_pure _
  · refine (Cached.incremental_liftReport ?_).bind fun _ => Cached.incremental_pure _
    exact (ctx.withoutCuts_constraints _ _ _).bind fun _ => Report.withoutCuts_pure _

/-- **An action is an incremental step.** -/
theorem incremental_operation (s : Service) (a : Action) :
    Cached.Incremental ctx.flattening (ctx.operation s a) := by
  have hresponses := Cached.incremental_liftReport (f := ctx.flattening)
    (ctx.withoutCuts_responses s a)
  unfold operation
  split
  · exact (Cached.incremental_liftReport (ctx.withoutCuts_bodyParameters a)).bind fun _ =>
      hresponses.bind fun _ => Cached.incremental_pure _
  · exact (Cached.incremental_mapM (ctx.incremental_queryPart a) _).bind fun _ =>
      hresponses.bind fun _ => Cached.incremental_pure _

/-! ## Which classes an action flattens -/

/-- Whether a parameter passes in a query. -/
def passesInQuery (p : Parameter) : Bool :=
  decide (p.type = "array" ∨ p.WellTyped ctx.hierarchy.Known)

/-- The classes of parameters in a query, up to the first one that does not pass. -/
def classesInQuery (ps : List Parameter) : List String :=
  ((ps.takeWhile ctx.passesInQuery).map (·.type)).filter ctx.hierarchy.isReference

/-- **The classes that an action flattens.** -/
def flattenedBy (a : Action) : List String :=
  match ctx.styleOf a with
  | .body => []
  | .query => ctx.classesInQuery a.parameters

variable {ctx} in
theorem passes_queryPart_iff (hb : ctx.flattening.Built) {a : Action} {p : Parameter} :
    Passes (ctx.queryPart a p).fresh ↔ ctx.passesInQuery p = true := by
  rw [ctx.passes_queryPart hb, passesInQuery, decide_eq_true_iff]

theorem mem_flattened_queryPart (hb : ctx.flattening.Built) {a : Action} {p : Parameter}
    {name : String} : name ∈ (ctx.queryPart a p).flattened ↔
      name = p.type ∧ ctx.hierarchy.isReference p.type = true := by
  unfold queryPart
  dsimp only
  cases hmeant : ctx.declarations.hierarchy.resolve p.type (parameterContext a p) with
  | error e =>
    refine iff_of_false List.not_mem_nil fun ⟨_, hreference⟩ => ?_
    have hresolves : Passes (ctx.hierarchy.resolve p.type (parameterContext a p)) :=
      ctx.hierarchy.passes_resolve.2 (Or.inr (ctx.hierarchy.isReference_iff.1 hreference).2)
    rw [hmeant] at hresolves
    exact not_passes_error e hresolves
  | ok meant =>
    cases meant with
    | primitive ty =>
      have hnone : ¬ ctx.hierarchy.isReference p.type = true := by
        rw [ctx.hierarchy.isReference_iff, ctx.hierarchy.ofName?_of_resolve hmeant]
        exact fun h => nomatch h.1
      refine iff_of_false ?_ fun h => hnone h.2
      have hinline : name ∉ ((liftM (ctx.inlineParameter p ty (parameterContext a p)) :
          Cached InlineParameter) >>= fun q => pure (QueryPart.inline q)).flattened := by
        rw [Cached.flattened_liftReport_bind_pure]
        exact List.not_mem_nil
      cases ty with
      | array => exact List.not_mem_nil
      | _ => exact hinline
    | reference target =>
      have hreference := ctx.hierarchy.isReference_of_resolve hmeant
      obtain rfl := ctx.hierarchy.eq_of_resolve hmeant
      have hexpand := hb.expand_eq (ctx.hierarchy.isReference_iff.1 hreference).2
      rw [and_iff_left hreference, ← Cached.mem_flattened_expansion hexpand]
      exact Cached.mem_flattened_bind_iff_left (Cached.incremental_expansion _)
        (fun _ => Cached.incremental_pure _) fun _ => rfl

theorem mem_flattened_mapM_queryPart (hb : ctx.flattening.Built) {a : Action}
    (ps : List Parameter) {name : String} :
    name ∈ (ps.mapM (ctx.queryPart a)).flattened ↔
      name ∈ ctx.classesInQuery ps := by
  induction ps with
  | nil => exact Iff.rfl
  | cons p rest ih =>
    have hmapM := Cached.incremental_mapM (ctx.incremental_queryPart a) rest
    have hpack (part : QueryPart) : name ∈ (do
        return part :: (← rest.mapM (ctx.queryPart a)) : Cached (List QueryPart)).flattened ↔
        name ∈ (rest.mapM (ctx.queryPart a)).flattened :=
      Cached.mem_flattened_bind_iff_left hmapM (fun _ => Cached.incremental_pure _) fun _ => rfl
    rw [List.mapM_cons, Cached.mem_flattened_bind_iff (ctx.incremental_queryPart a p) fun _ =>
      hmapM.bind fun _ => Cached.incremental_pure _, ctx.mem_flattened_queryPart hb]
    simp only [hpack, ih, exists_and_right]
    unfold classesInQuery
    cases hpass : ctx.passesInQuery p with
    | true =>
      have hsome : ∃ part, (ctx.queryPart a p).fresh = .ok part := (passes_queryPart_iff hb).2 hpass
      rw [and_iff_right hsome, List.takeWhile_cons_of_pos hpass, List.map_cons, List.filter_cons]
      split
      · next hreference => rw [and_iff_left hreference, List.mem_cons]
      · next hnone => rw [or_iff_right fun h => hnone h.2]
    | false =>
      have hfails : ¬ ctx.passesInQuery p = true := Bool.not_eq_true _ ▸ hpass
      rw [List.takeWhile_cons_of_neg hfails]
      refine iff_of_false ?_ List.not_mem_nil
      rintro (⟨-, hreference⟩ | ⟨hsome, -⟩)
      · -- a parameter of a class always passes
        obtain ⟨hty, hknown⟩ := ctx.hierarchy.isReference_iff.1 hreference
        refine hfails (decide_eq_true (Or.inr (Parameter.wellTyped_iff.2 ⟨?_, fun _ => hknown⟩)))
        exact fun ty hsome => nomatch hty.symm.trans hsome
      · exact hfails ((passes_queryPart_iff hb).1 hsome)

/-- **What is in the cache after an action** that starts with an empty one. -/
theorem mem_flattened_operation (hb : ctx.flattening.Built) {s : Service} {a : Action}
    {name : String} : name ∈ (ctx.operation s a).flattened ↔ name ∈ ctx.flattenedBy a := by
  have hanswers (make : Responses → PlacedOperation) : Cached.Incremental ctx.flattening
      ((liftM (ctx.responses s a) : Cached Responses) >>= fun r => pure (make r)) :=
    (Cached.incremental_liftReport (ctx.withoutCuts_responses s a)).bind fun _ =>
      Cached.incremental_pure _
  unfold operation flattenedBy
  cases ctx.styleOf a with
  | body =>
    exact Cached.mem_flattened_bind_iff_left
      (Cached.incremental_liftReport (ctx.withoutCuts_bodyParameters a)) (fun _ => hanswers _)
      fun _ => Cached.flattened_liftReport_bind_pure _ _
  | query =>
    rw [← ctx.mem_flattened_mapM_queryPart hb]
    exact Cached.mem_flattened_bind_iff_left
      (Cached.incremental_mapM (ctx.incremental_queryPart a) _) (fun _ => hanswers _)
      fun _ => Cached.flattened_liftReport_bind_pure _ _

/-! ## Actions in a row -/

/-- What an action reports on its own. -/
def report (s : Service) (a : Action) : Report PlacedOperation := ((ctx.operation s a).run ∅).1

/-- **What actions in a row report**, on one cache that is empty at first. -/
def reports (calls : List (Service × Action)) : List (Report PlacedOperation) :=
  Cached.runEach (calls.map fun e => ctx.operation e.1 e.2) ∅

variable {ctx}

/-- **An action in a row** has the result that it has on its own, and notes what it notes on
its own, less the cuts of the classes that were flattened before. -/
theorem getElem?_reports (hb : ctx.flattening.Built) (before after : List (Service × Action))
    (s : Service) (a : Action) :
    (ctx.reports (before ++ (s, a) :: after))[before.length]? = some {
      notes := unreported (before.flatMap fun e => ctx.flattenedBy e.2) (ctx.report s a).notes
      result := (ctx.report s a).result } := by
  have hbefore : ∀ y ∈ before.map fun e => ctx.operation e.1 e.2,
      Cached.Incremental ctx.flattening y := by
    rw [List.forall_mem_map]
    exact fun e _ => ctx.incremental_operation e.1 e.2
  have hrow := Cached.getElem?_runEach (after.map fun e => ctx.operation e.1 e.2) hbefore
    (ctx.incremental_operation s a) (ExpansionCache.sound_empty ctx.flattening)
  rw [List.length_map] at hrow
  unfold reports
  rw [List.map_append, List.map_cons, hrow]
  refine congrArg (fun notes => some (Report.mk notes _)) (unreported_congr _ fun name => ?_)
  refine (List.mem_append.trans (or_iff_right List.not_mem_nil)).trans ?_
  simp only [List.flatMap_map, List.mem_flatMap, ctx.mem_flattened_operation hb]

/-- In a row of actions no cut is noted twice. -/
theorem nodup_cuts_reports (calls : List (Service × Action)) :
    (cutsOf ((ctx.reports calls).flatMap (·.notes))).Nodup := by
  refine (Cached.nodup_cuts_runEach ?_ (ExpansionCache.sound_empty ctx.flattening)).1
  rw [List.forall_mem_map]
  exact fun e _ => ctx.incremental_operation e.1 e.2

end OperationContext

/-- **In a compilation no cut is noted twice.** -/
theorem nodup_cuts_compile (config : Config) (schema : Schema) :
    (cutsOf (compile config schema).notes).Nodup := by
  unfold compile
  refine Report.nodup_cutsOf_bind (OperationContext.withoutCuts_ofSchema config schema)
    fun ctx _ => ?_
  refine Report.nodup_cutsOf_bind (Report.withoutCuts_check _) fun definitions _ => ?_
  rw [Report.cutsOf_bind_of_right fun _ => Report.withoutCuts_pure _]
  exact (Cached.incremental_mapM (fun e : Service × Action =>
    ctx.incremental_operation e.1 e.2) _).nodup

/-- **The cache shows in the notes alone, and there only by what it saves.** In every row of
actions each one has the result that it has on its own, whether it succeeds or fails, and
notes what it notes on its own, in that order, less the cuts of the classes that an earlier
action has flattened. So no cut is noted twice, in such a row and in a compilation. -/
theorem OperationContext.reports_exact {config : Config} {schema : Schema}
    {ctx : OperationContext} (h : (OperationContext.ofSchema config schema).result = .ok ctx) :
    (∀ calls, (ctx.reports calls).length = calls.length) ∧
    (∀ before s a after, (ctx.reports (before ++ (s, a) :: after))[before.length]? = some {
      notes := unreported (before.flatMap fun e => ctx.flattenedBy e.2) (ctx.report s a).notes
      result := (ctx.report s a).result }) ∧
    (∀ calls, (cutsOf ((ctx.reports calls).flatMap (·.notes))).Nodup) ∧
    (cutsOf (compile config schema).notes).Nodup := by
  have hctx := OperationContext.of_ofSchema h
  refine ⟨fun calls => ?_, fun before s a after => ?_, nodup_cuts_reports, ?_⟩
  · exact (Cached.length_runEach _ _).trans (List.length_map _)
  · exact getElem?_reports hctx.built before after s a
  · exact nodup_cuts_compile config schema

/-- The service of the example. -/
def petService : Service := { id := "pet", name := "pet" }

/-- An action that flattens the class of its pet and then fails for the type of its owner. -/
def adoptPet : Action where
  name := "adopt"
  parameters := [{ name := "photo", type := "file" }, { name := "pet", type := "Animal" },
    { name := "owner", type := "Nobody" }]

/-- An action that takes a pet. -/
def showPet : Action where
  name := "show"
  parameters := [{ name := "photo", type := "file" }, { name := "pet", type := "Animal" }]

open OperationContext in
/-- Behind the action that fails, the other notes no cuts of the class of its pet. -/
theorem reports_exact_petContext :
    (OperationContext.ofSchema petConfig petSchema).result = .ok petContext ∧
    petContext.flattenedBy adoptPet = ["Animal"] ∧
    (petContext.reports [(petService, adoptPet), (petService, showPet)])[1]? = some {
      notes := unreported ["Animal"] (petContext.report petService showPet).notes
      result := (petContext.report petService showPet).result } := by
  have hflattened : petContext.flattenedBy adoptPet = ["Animal"] := by decide +kernel
  have hrow := (reports_exact ofSchema_petSchema).2.1 [(petService, adoptPet)] petService showPet []
  rw [List.flatMap_singleton, hflattened] at hrow
  exact ⟨ofSchema_petSchema, hflattened, hrow⟩

end SwaggerForge
