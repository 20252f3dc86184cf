import SwaggerForge.Proofs.Checks
import SwaggerForge.Proofs.Notes

/-!
# When nothing is noted

A diagnostic says that the result is poorer than the schema meant it to be. This module
shows that the absence of diagnostics says the opposite: a compilation that succeeds notes
nothing exactly when nothing was degraded on the way (`notes_compile_eq_nil_iff`).

Of a step that succeeds it is told when it is quiet (`Report.QuietIff`), and a sequence is
quiet when each of its steps is. With the cache of expansions there is a difficulty: a class
that was cut is noted once only, so a later step may be quiet although it takes a cut
expansion. But then the whole run is not. As long as nothing has been noted, the cache holds
no cut expansion (`ExpansionCache.Uncut`), and from such a cache a step is quiet exactly
when it would be so on its own.
-/

namespace SwaggerForge

/-! ## Reports -/

namespace Report

variable {α β : Type} {P Q : Prop}

/-- **A step that, if it succeeds, notes nothing exactly when something holds.** -/
def QuietIff (r : Report α) (P : Prop) : Prop := ∀ a, r.result = .ok a → (r.notes = [] ↔ P)

theorem QuietIff.congr {r : Report α} (h : r.QuietIff P) (hPQ : P ↔ Q) : r.QuietIff Q :=
  fun a ha => (h a ha).trans hPQ

theorem quietIff_pure (a : α) : (pure a : Report α).QuietIff True :=
  fun _ _ => iff_of_true rfl trivial

theorem quietIff_note (d : Diagnostic) : (note d).QuietIff False :=
  fun _ _ => iff_of_false (List.cons_ne_nil _ _) not_false

/-- **Two steps are quiet** exactly when both are. -/
theorem QuietIff.bind {x : Report α} {f : α → Report β} (hx : x.QuietIff P)
    (hf : ∀ a, x.result = .ok a → (f a).QuietIff Q) : (x >>= f).QuietIff (P ∧ Q) := by
  intro b hb
  obtain ⟨a, ha, hb⟩ := result_bind_eq_ok.1 hb
  rw [notes_bind_ok ha, List.append_eq_nil_iff, hx a ha, hf a ha b hb]

/-- What is done with a result without looking further notes nothing. -/
theorem QuietIff.bind_pure {x : Report α} (hx : x.QuietIff P) (f : α → β) :
    (x >>= fun a => pure (f a)).QuietIff P :=
  (hx.bind fun a _ => quietIff_pure (f a)).congr (and_iff_left trivial)

/-- A check in front notes nothing. -/
theorem quietIff_check_bind {r : Except Failure α} {f : α → Report β}
    (hf : ∀ a, r = .ok a → (f a).QuietIff Q) : ((liftM r : Report α) >>= f).QuietIff Q := by
  have hcheck : (liftM r : Report α).QuietIff True := fun _ _ => iff_of_true rfl trivial
  exact (hcheck.bind hf).congr (and_iff_right trivial)

/-- **A step for every item is quiet** exactly when it is so for each. -/
theorem quietIff_mapM {f : α → Report β} {P : α → Prop} (hf : ∀ x, (f x).QuietIff (P x))
    (xs : List α) : (xs.mapM f).QuietIff (∀ x ∈ xs, P x) := by
  induction xs with
  | nil => exact (quietIff_pure []).congr (iff_of_true trivial fun _ h => nomatch h)
  | cons x rest ih =>
    rw [List.mapM_cons]
    exact ((hf x).bind fun y _ => ih.bind_pure (y :: ·)).congr List.forall_mem_cons.symm

end Report

/-! ## Steps with a cache -/

/-- **A cache without cut expansions.** -/
def ExpansionCache.Uncut (cache : ExpansionCache) : Prop :=
  ∀ name e, cache.get? name = some e → e.truncated = []

theorem ExpansionCache.uncut_empty : ExpansionCache.Uncut ∅ := fun _ _ h => nomatch h

namespace Cached

open Report

variable {α β : Type} {P Q : Prop} {f : Flattening}

/-- **A step that, from a cache without cut expansions, is quiet exactly when something
holds**, and then leaves a cache without cut expansions. -/
structure QuietIff (f : Flattening) (x : Cached α) (P : Prop) : Prop extends Transparent f x where
  notes : ∀ cache, ExpansionCache.Sound f cache → cache.Uncut →
    ∀ a, (x.run cache).1.result = .ok a → ((x.run cache).1.notes = [] ↔ P)
  uncut : ∀ cache, ExpansionCache.Sound f cache → cache.Uncut →
    ∀ a, (x.run cache).1.result = .ok a → (x.run cache).1.notes = [] → (x.run cache).2.Uncut

theorem QuietIff.congr {x : Cached α} (h : QuietIff f x P) (hPQ : P ↔ Q) : QuietIff f x Q where
  toTransparent := h.toTransparent
  notes := fun cache hs hu a ha => (h.notes cache hs hu a ha).trans hPQ
  uncut := h.uncut

/-- A step that does without the cache. -/
theorem quietIff_liftReport {r : Report α} (hr : r.QuietIff P) :
    QuietIff f (liftM r : Cached α) P where
  toTransparent := transparent_liftReport r
  notes := fun _ _ _ a ha => hr a ha
  uncut := fun _ _ hu _ _ _ => hu

theorem quietIff_pure (a : α) : QuietIff f (pure a : Cached α) True :=
  quietIff_liftReport (Report.quietIff_pure a)

/-- **Two steps are quiet** exactly when both are: while the first is, the second starts
from a cache without cut expansions. -/
theorem QuietIff.bind {x : Cached α} {g : α → Cached β} (hx : QuietIff f x P)
    (hg : ∀ a, x.fresh = .ok a → QuietIff f (g a) Q) : QuietIff f (x >>= g) (P ∧ Q) := by
  have hopen {cache : ExpansionCache} (hs : ExpansionCache.Sound f cache) {b : β}
      (hb : ((x >>= g).run cache).1.result = .ok b) : ∃ a, (x.run cache).1.result = .ok a ∧
        QuietIff f (g a) Q ∧ ((g a).run (x.run cache).2).1.result = .ok b := by
    cases ha : (x.run cache).1.result with
    | error e => exact nomatch (run_bind_of_error (g := g) ha).1.symm.trans hb
    | ok a =>
      exact ⟨a, rfl, hg a ((hx.result cache hs).symm.trans ha),
        (run_bind_of_ok ha).1.symm.trans hb⟩
  refine ⟨hx.toTransparent.bind fun a ha => (hg a ha).toTransparent,
    fun cache hs hu b hb => ?_, fun cache hs hu b hb hquiet => ?_⟩
  · obtain ⟨a, ha, hga, hb⟩ := hopen hs hb
    rw [notes_bind_of_ok ha, List.append_eq_nil_iff, ← hx.notes cache hs hu a ha]
    refine and_congr_right fun hfirst => ?_
    exact hga.notes _ (hx.sound cache hs) (hx.uncut cache hs hu a ha hfirst) b hb
  · obtain ⟨a, ha, hga, hb⟩ := hopen hs hb
    rw [notes_bind_of_ok ha, List.append_eq_nil_iff] at hquiet
    rw [(run_bind_of_ok ha).2]
    exact hga.uncut _ (hx.sound cache hs) (hx.uncut cache hs hu a ha hquiet.1) b hb hquiet.2

theorem QuietIff.bind_pure {x : Cached α} (hx : QuietIff f x P) (g : α → β) :
    QuietIff f (x >>= fun a => pure (g a)) P :=
  (hx.bind fun a _ => quietIff_pure (g a)).congr (and_iff_left trivial)

theorem quietIff_check_bind {r : Except Failure α} {g : α → Cached β}
    (hg : ∀ a, r = .ok a → QuietIff f (g a) Q) : QuietIff f ((liftM r : Cached α) >>= g) Q := by
  have hcheck : (Report.ofExcept r).QuietIff True := fun _ _ => iff_of_true rfl trivial
  exact ((quietIff_liftReport hcheck).bind hg).congr (and_iff_right trivial)

/-- **A step for every item is quiet** exactly when it is so for each. -/
theorem quietIff_mapM {g : α → Cached β} {P : α → Prop} (hg : ∀ x, QuietIff f (g x) (P x))
    (xs : List α) : QuietIff f (xs.mapM g) (∀ x ∈ xs, P x) := by
  induction xs with
  | nil => exact (quietIff_pure []).congr (iff_of_true trivial fun _ h => nomatch h)
  | cons x rest ih =>
    rw [List.mapM_cons]
    exact ((hg x).bind fun y _ => ih.bind_pure (y :: ·)).congr List.forall_mem_cons.symm

/-- **An expansion is taken quietly** exactly when nothing is cut. -/
theorem quietIff_expansion (name : String) :
    QuietIff f (expansion f name) (∃ e, f.expand name = .ok e ∧ e.truncated = []) := by
  have hexpand {e : Expansion} (he : f.expand name = .ok e) :
      (∃ e, f.expand name = .ok e ∧ e.truncated = []) ↔ e.truncated = [] := by
    constructor
    · rintro ⟨e', he', hcut⟩
      obtain rfl := Except.ok.inj (he.symm.trans he')
      exact hcut
    · exact fun hcut => ⟨e, he, hcut⟩
  refine ⟨(yields_expansion name).transparent, fun cache hs hu e he => ?_,
    fun cache hs hu e he hquiet => ?_⟩
  · rw [result_expansion name hs] at he
    rw [hexpand he]
    cases hget : cache.get? name with
    | some e' =>
      obtain rfl := Except.ok.inj (he.symm.trans (hs name e' hget))
      rw [run_expansion_of_some hget]
      exact iff_of_true rfl (hu name e hget)
    | none =>
      rw [run_expansion_of_ok hget he]
      exact List.map_eq_nil_iff
  · rw [result_expansion name hs] at he
    cases hget : cache.get? name with
    | some e' =>
      rw [run_expansion_of_some hget]
      exact hu
    | none =>
      rw [run_expansion_of_ok hget he] at hquiet ⊢
      intro n e' hn
      rw [Table.get?_insert] at hn
      split at hn
      · obtain rfl := Option.some.inj hn
        exact List.map_eq_nil_iff.1 hquiet
      · exact hu n e' hn

end Cached

/-! ## Classes -/

namespace Declarations

open Report

variable (env : Declarations)

/-- An enumeration that is named is declared. -/
def Declares (enumName : Option String) : Prop := ∀ name ∈ enumName, env.enums.contains name = true

theorem quietIff_enumValues (enumName : Option String) (context : String) :
    (env.enumValues enumName context).QuietIff (env.Declares enumName) := by
  unfold enumValues Declares
  cases enumName with
  | none => exact (quietIff_pure none).congr (iff_of_true trivial fun _ h => nomatch h)
  | some name =>
    have hcontains : env.enums.contains name = (env.enums.values? name).isSome := by
      unfold EnumCatalog.contains EnumCatalog.values? EnumCatalog.canonical? EnumCatalog.get?
      rw [Table.contains_eq_isSome_get?, Option.isSome_map, Option.isSome_map]
    simp only [Option.mem_some_iff, forall_eq', hcontains]
    split
    · next e hsome => exact (quietIff_pure (some e)).congr (iff_of_true trivial (hsome ▸ rfl))
    · next hnone =>
      refine ((quietIff_note _).bind_pure fun _ => none).congr (iff_of_false not_false ?_)
      rw [hnone]
      exact Bool.false_ne_true

/-- **What makes a property quiet**: if it is a value, its enumeration is declared. -/
def QuietProperty (p : Property) : Prop :=
  ¬ env.hierarchy.isReference p.type = true → ¬ p.HoldsObjects → env.Declares p.enumType

theorem quietIff_defineProperty (c : ClassDecl) (p : Property) :
    (env.defineProperty c p).QuietIff (env.QuietProperty p) := by
  unfold defineProperty
  dsimp only
  refine quietIff_check_bind fun meant hmeant => ?_
  cases meant with
  | reference target =>
    have href : env.hierarchy.isReference p.type = true :=
      env.hierarchy.eq_of_resolve hmeant ▸ env.hierarchy.isReference_of_resolve hmeant
    exact (quietIff_pure _).congr (iff_of_true trivial fun hnot => absurd href hnot)
  | primitive ty =>
    have hty := env.hierarchy.ofName?_of_resolve hmeant
    have hvalue : ¬ env.hierarchy.isReference p.type = true := fun href =>
      nomatch (env.hierarchy.isReference_iff.1 href).1.symm.trans hty
    refine quietIff_check_bind fun element helement => ?_
    have hobjects := env.exists_elementOf_iff hty helement
    split
    · next target =>
      exact (quietIff_pure _).congr (iff_of_true trivial fun _ hnot =>
        absurd (hobjects.1 ⟨target, rfl⟩) hnot)
    · next hother =>
      have hnot : ¬ p.HoldsObjects := fun h => by
        obtain ⟨target, htarget⟩ := hobjects.2 h
        exact hother target htarget
      refine quietIff_check_bind fun default _ => ?_
      refine ((env.quietIff_enumValues p.enumType _).bind_pure _).congr ?_
      exact ⟨fun h _ _ => h, fun h => h hvalue hnot⟩

/-- **What makes a class quiet**: if classes are below it, a concrete one is, and its
properties are quiet. -/
def QuietClass (c : ClassDecl) : Prop :=
  (env.hierarchy.descendants c.name ≠ [] → env.hierarchy.HasConcrete c.name) ∧
    ∀ p ∈ c.properties, env.QuietProperty p

theorem quietIff_define (c : ClassDecl) : (env.define c).QuietIff (env.QuietClass c) := by
  have hdeclared : (env.defineDeclared c).QuietIff (∀ p ∈ c.properties, env.QuietProperty p) := by
    unfold defineDeclared
    refine ((quietIff_mapM (env.quietIff_defineProperty c) c.properties).bind (Q := True)
      fun declared _ => ?_).congr (and_iff_left trivial)
    cases c.base with
    | none => exact quietIff_pure _
    | some b => exact quietIff_check_bind fun _ _ => quietIff_pure _
  have hconcrete : (env.hierarchy.descendants c.name ≠ [] → env.hierarchy.HasConcrete c.name) ↔
      ¬ (env.hierarchy.concreteDescendants c.name = [] ∧
        env.hierarchy.descendants c.name ≠ []) := by
    rw [env.hierarchy.hasConcrete_iff, not_and', ne_eq, ne_eq]
  unfold QuietClass
  rw [hconcrete]
  unfold define
  dsimp only
  split
  · next habstract =>
    refine ((quietIff_note _).bind fun _ _ => hdeclared).congr ?_
    exact and_congr_left' (iff_of_false not_false (not_not.2 habstract))
  · next hnot => exact hdeclared.congr (and_iff_right hnot).symm

theorem quietIff_defineAll :
    env.defineAll.QuietIff (∀ c ∈ env.hierarchy.classes, env.QuietClass c) :=
  (quietIff_mapM (fun c => (env.quietIff_define c).bind_pure fun d => (c.name, d))
    env.hierarchy.classes).bind_pure _

end Declarations

/-- **What is declared is quiet** when the classes are. -/
theorem OperationContext.quietIff_ofSchema {config : Config} {schema : Schema}
    {ctx : OperationContext} (h : (OperationContext.ofSchema config schema).result = .ok ctx) :
    (OperationContext.ofSchema config schema).QuietIff
      (∀ c ∈ ctx.hierarchy.classes, ctx.declarations.QuietClass c) := by
  have hof := OperationContext.of_ofSchema h
  unfold ofSchema
  refine Report.quietIff_check_bind fun hierarchy hh => ?_
  refine Report.quietIff_check_bind fun requestParameters _ => ?_
  refine Report.quietIff_check_bind fun enums he => ?_
  have hsame : ctx.declarations = ⟨hierarchy, enums⟩ := by
    show Declarations.mk ctx.hierarchy ctx.declarations.enums = _
    rw [Except.ok.inj (hof.hierarchy.symm.trans hh), Except.ok.inj (hof.enums.symm.trans he)]
  show Report.QuietIff _ (∀ c ∈ ctx.declarations.hierarchy.classes, ctx.declarations.QuietClass c)
  rw [hsame]
  exact (Declarations.quietIff_defineAll _).bind_pure _

/-! ## Actions -/

namespace OperationContext

open Report

variable (ctx : OperationContext)

theorem quietIff_constraints (p : Parameter) (type : Primitive) (context : String) :
    (ctx.constraints p type context).QuietIff (ctx.declarations.Declares p.enumType) :=
  quietIff_check_bind fun _ _ =>
    (ctx.declarations.quietIff_enumValues p.enumType context).bind_pure _

theorem quietIff_bodyProperty (a : Action) (p : Parameter) :
    (ctx.bodyProperty a p).QuietIff
      (Primitive.isName p.type = true → ctx.declarations.Declares p.enumType) := by
  unfold bodyProperty
  dsimp only
  refine quietIff_check_bind fun meant hmeant => ?_
  cases meant with
  | reference target =>
    have hnot := (ctx.hierarchy.exists_reference_iff hmeant).1 ⟨target, rfl⟩
    exact (quietIff_pure _).congr (iff_of_true trivial fun hname => nomatch hnot.symm.trans hname)
  | primitive ty =>
    have hname : Primitive.isName p.type = true := by
      rw [Primitive.isName, ctx.hierarchy.ofName?_of_resolve hmeant]
      rfl
    refine quietIff_check_bind fun items _ => ?_
    exact ((ctx.quietIff_constraints p ty _).bind_pure _).congr
      ⟨fun h _ => h, fun h => h hname⟩

/-- **In body style** the enumerations of values are to be declared. -/
theorem quietIff_bodyParameters (a : Action) :
    (ctx.bodyParameters a).QuietIff (∀ p ∈ a.parameters,
      Primitive.isName p.type = true → ctx.declarations.Declares p.enumType) := by
  unfold bodyParameters
  dsimp only
  split
  · next hnone =>
    refine (quietIff_pure _).congr (iff_of_true trivial fun p hp => ?_)
    rw [hnone] at hp
    cases hp
  · have hbody : (ctx.body a).QuietIff (∀ p ∈ a.parameters,
        Primitive.isName p.type = true → ctx.declarations.Declares p.enumType) :=
      (quietIff_mapM (fun p => (ctx.quietIff_bodyProperty a p).bind_pure fun q => (p.name, q))
        a.parameters).bind_pure _
    exact hbody.bind_pure _

theorem quietIff_errorLine (context name : String) :
    (ctx.errorLine context name).QuietIff (name ∈ ctx.errors.map (·.name)) := by
  unfold errorLine
  split
  · next e he =>
    have hdeclared : name ∈ ctx.errors.map (·.name) :=
      List.mem_map.2 ⟨e, List.mem_of_find?_eq_some he, by simpa using List.find?_some he⟩
    split
    · exact (quietIff_pure _).congr (iff_of_true trivial hdeclared)
    · exact (quietIff_pure _).congr (iff_of_true trivial hdeclared)
  · next hnone =>
    refine ((quietIff_note _).bind_pure _).congr (iff_of_false not_false fun hmem => ?_)
    obtain ⟨e, he, hname⟩ := List.mem_map.1 hmem
    exact List.find?_eq_none.1 hnone e he (beq_iff_eq.2 hname)

theorem quietIff_responses (s : Service) (a : Action) :
    (ctx.responses s a).QuietIff (∀ name ∈ a.throws, name ∈ ctx.errors.map (·.name)) :=
  quietIff_check_bind fun _ _ =>
    (quietIff_mapM (ctx.quietIff_errorLine _) a.throws).bind_pure _

/-- **What makes a parameter in a query quiet**: if it is a value and no array, its
enumeration is declared, and if it is an object, nothing of its class is cut. -/
def QuietInQuery (p : Parameter) : Prop :=
  (Primitive.isName p.type = true → p.type ≠ "array" → ctx.declarations.Declares p.enumType) ∧
    (ctx.hierarchy.isReference p.type = true →
      ∃ e, ctx.flattening.expand p.type = .ok e ∧ e.truncated = [])

theorem quietIff_queryPart (a : Action) (p : Parameter) :
    Cached.QuietIff ctx.flattening (ctx.queryPart a p) (ctx.QuietInQuery p) := by
  unfold queryPart QuietInQuery
  dsimp only
  refine Cached.quietIff_check_bind fun meant hmeant => ?_
  cases meant with
  | reference target =>
    obtain rfl := ctx.hierarchy.eq_of_resolve hmeant
    have hnot := (ctx.hierarchy.exists_reference_iff hmeant).1 ⟨_, rfl⟩
    have href := ctx.hierarchy.isReference_of_resolve hmeant
    refine ((Cached.quietIff_expansion p.type).bind_pure _).congr ?_
    rw [imp_iff_right href,
      and_iff_right fun hname => absurd (hnot.symm.trans hname) Bool.false_ne_true]
  | primitive ty =>
    have hty := ctx.hierarchy.ofName?_of_resolve hmeant
    have hname : Primitive.isName p.type = true := by
      rw [Primitive.isName, hty]
      rfl
    have hvalue : ¬ ctx.hierarchy.isReference p.type = true := fun href =>
      Option.some_ne_none ty (hty.symm.trans (ctx.hierarchy.isReference_iff.1 href).1)
    have harray : p.type = "array" ↔ ty = .array := by
      rw [← Primitive.ofName?_eq_array_iff, hty, Option.some_inj]
    rw [imp_iff_right hname, and_iff_left fun href => absurd href hvalue, ne_eq, harray]
    cases ty with
    | array =>
      exact (Cached.quietIff_pure _).congr (iff_of_true trivial fun hnot => absurd rfl hnot)
    | boolean | integer | number | string | object | file =>
      refine Cached.QuietIff.congr ?_ (imp_iff_right (by decide)).symm
      exact (Cached.quietIff_liftReport
        ((ctx.quietIff_constraints p _ _).bind_pure _)).bind_pure _

/-- **What makes an action quiet.** -/
structure QuietAction (a : Action) : Prop where
  values : ∀ p ∈ a.parameters, Primitive.isName p.type = true →
    (p.type = "array" → ctx.styleOf a = .body) → ctx.declarations.Declares p.enumType
  errors : ∀ name ∈ a.throws, name ∈ ctx.errors.map (·.name)
  expansions : ctx.styleOf a = .query → ∀ p ∈ a.parameters,
    ctx.hierarchy.isReference p.type = true →
      ∃ e, ctx.flattening.expand p.type = .ok e ∧ e.truncated = []

theorem quietIff_operation (s : Service) (a : Action) :
    Cached.QuietIff ctx.flattening (ctx.operation s a) (ctx.QuietAction a) := by
  unfold operation
  split
  · next hstyle =>
    refine ((Cached.quietIff_liftReport (ctx.quietIff_bodyParameters a)).bind fun parameters _ =>
      (Cached.quietIff_liftReport (ctx.quietIff_responses s a)).bind_pure _).congr ?_
    constructor
    · rintro ⟨hvalues, herrors⟩
      exact ⟨fun p hp hname _ => hvalues p hp hname, herrors,
        fun hquery => nomatch hstyle.symm.trans hquery⟩
    · intro h
      exact ⟨fun p hp hname => h.values p hp hname fun _ => hstyle, h.errors⟩
  · next hstyle =>
    refine ((Cached.quietIff_mapM (ctx.quietIff_queryPart a) a.parameters).bind fun parts _ =>
      (Cached.quietIff_liftReport (ctx.quietIff_responses s a)).bind_pure _).congr ?_
    constructor
    · rintro ⟨hparts, herrors⟩
      refine ⟨fun p hp hname harray => (hparts p hp).1 hname fun h => ?_, herrors,
        fun _ p hp => (hparts p hp).2⟩
      exact nomatch (harray h).symm.trans hstyle
    · intro h
      refine ⟨fun p hp => ⟨fun hname hnot => h.values p hp hname fun harray => absurd harray hnot,
        h.expansions hstyle p hp⟩, h.errors⟩

end OperationContext

/-! ## Compilations -/

/-- **A schema of which nothing is lost**: classes with others below them can be told
apart, and what is named is declared and flattened in full. -/
structure Schema.Undegraded (schema : Schema) (config : Config) (f : Flattening) : Prop where
  subclasses : ∀ c ∈ schema.classes,
    f.hierarchy.descendants c.name ≠ [] → f.hierarchy.HasConcrete c.name
  properties : ∀ c ∈ schema.classes, ∀ p ∈ c.properties,
    ¬ f.hierarchy.isReference p.type = true → ¬ p.HoldsObjects →
      ∀ name ∈ p.enumType, name ∈ schema.enums.map (·.name)
  parameters : ∀ e ∈ includedActions config schema.services, ∀ p ∈ e.2.parameters,
    Primitive.isName p.type = true → (p.type = "array" → config.styleOf e.2 = .body) →
      ∀ name ∈ p.enumType, name ∈ schema.enums.map (·.name)
  errors : ∀ e ∈ includedActions config schema.services, ∀ name ∈ e.2.throws,
    name ∈ schema.errors.map (·.name)
  expansions : ∀ e ∈ includedActions config schema.services, config.styleOf e.2 = .query →
    ∀ p ∈ e.2.parameters, f.hierarchy.isReference p.type = true →
      ∃ expansion, f.expand p.type = .ok expansion ∧ expansion.truncated = []

/-- **A compilation that succeeds notes nothing** exactly when nothing of the schema is
lost. -/
theorem notes_compile_eq_nil_iff {config : Config} {schema : Schema} {ctx : OperationContext}
    {d : Document} (hctx : (OperationContext.ofSchema config schema).result = .ok ctx)
    (h : (compile config schema).result = .ok d) :
    (compile config schema).notes = [] ↔ schema.Undegraded config ctx.flattening := by
  have hof := OperationContext.of_ofSchema hctx
  have hquiet : (compile config schema).QuietIff
      ((∀ c ∈ ctx.hierarchy.classes, ctx.declarations.QuietClass c) ∧
        ∀ e ∈ includedActions config schema.services, ctx.QuietAction e.2) := by
    unfold compile
    refine (OperationContext.quietIff_ofSchema hctx).bind fun ctx' hctx' => ?_
    obtain rfl := Except.ok.inj (hctx.symm.trans hctx')
    refine Report.quietIff_check_bind fun definitions _ => ?_
    refine Report.QuietIff.bind_pure (fun operations hoperations => ?_) _
    exact (Cached.quietIff_mapM (fun e : Service × Action => ctx.quietIff_operation e.1 e.2)
      (includedActions config schema.services)).notes ∅ (ExpansionCache.sound_empty _)
      ExpansionCache.uncut_empty operations hoperations
  have hdeclares (enumName : Option String) : ctx.declarations.Declares enumName ↔
      ∀ name ∈ enumName, name ∈ schema.enums.map (·.name) :=
    forall₂_congr fun _ _ => EnumCatalog.contains_iff_of_ofDecls hof.enums
  rw [hquiet d h, (Hierarchy.root_and_classes_of_ofClasses hof.hierarchy).2]
  constructor
  · rintro ⟨hclasses, hactions⟩
    exact {
      subclasses := fun c hc => (hclasses c hc).1
      properties := fun c hc p hp href hobjects =>
        (hdeclares _).1 ((hclasses c hc).2 p hp href hobjects)
      parameters := fun e he p hp hname harray => (hdeclares _).1
        ((hactions e he).values p hp hname fun h => (hof.styleOf_eq e.2).trans (harray h))
      errors := fun e he => hof.errors_eq ▸ (hactions e he).errors
      expansions := fun e he hstyle =>
        (hactions e he).expansions ((hof.styleOf_eq e.2).trans hstyle) }
  · intro h
    refine ⟨fun c hc => ⟨h.subclasses c hc, fun p hp href hobjects =>
      (hdeclares _).2 (h.properties c hc p hp href hobjects)⟩, fun e he => ?_⟩
    exact {
      values := fun p hp hname harray => (hdeclares _).2
        (h.parameters e he p hp hname fun ha => (hof.styleOf_eq e.2).symm.trans (harray ha))
      errors := hof.errors_eq ▸ h.errors e he
      expansions := fun hstyle =>
        h.expansions e he ((hof.styleOf_eq e.2).symm.trans hstyle) }

/-- The example names no enumerations and no errors, and all that is below the animal is
concrete. -/
theorem undegraded_petSchema : petSchema.Undegraded petConfig petContext.flattening where
  subclasses := by
    have hbelow : Flattening.pets.descendants "Dog" = [] ∧
        Flattening.pets.descendants "Person" = [] := by
      constructor <;> cbv
    have hdog : "Dog" ∈ Flattening.pets.descendants "Animal" := by
      have hanimal : Flattening.pets.descendants "Animal" = ["Dog"] := by cbv
      rw [hanimal]
      exact List.mem_cons_self
    intro c hc hne
    show Flattening.pets.HasConcrete c.name
    change Flattening.pets.descendants c.name ≠ [] at hne
    have hnames : ∀ c ∈ petSchema.classes, c.name ∈ ["Animal", "Dog", "Person"] := by decide
    have hname := hnames c hc
    generalize c.name = name at hname hne ⊢
    obtain rfl | hname := List.mem_cons.1 hname
    · exact ⟨_, List.mem_cons_of_mem _ List.mem_cons_self, hdog, rfl⟩
    · obtain rfl | hname := List.mem_cons.1 hname
      · exact absurd hbelow.1 hne
      · exact absurd hbelow.2 (List.mem_singleton.1 hname ▸ hne)
  properties := by
    have hnone : ∀ c ∈ petSchema.classes, ∀ p ∈ c.properties, p.enumType = none := by decide
    intro c hc p hp _ _ name hname
    rw [hnone c hc p hp] at hname
    cases hname
  parameters := by
    have hnone : ∀ e ∈ includedActions petConfig petSchema.services, ∀ p ∈ e.2.parameters,
        p.enumType = none := by decide
    intro e he p hp _ _ name hname
    rw [hnone e he p hp] at hname
    cases hname
  errors := by decide
  expansions := by
    have hbody : ∀ e ∈ includedActions petConfig petSchema.services,
        petConfig.styleOf e.2 = .body := by decide
    exact fun e he hquery => absurd ((hbody e he).symm.trans hquery) (by decide)

/-- **The example is compiled without a note.** -/
theorem notes_compile_petSchema :
    (OperationContext.ofSchema petConfig petSchema).result = .ok petContext ∧
    (∃ d, (compile petConfig petSchema).result = .ok d) ∧
    (compile petConfig petSchema).notes = [] := by
  obtain ⟨d, hd⟩ := compile_petSchema
  exact ⟨ofSchema_petSchema, ⟨d, hd⟩,
    (notes_compile_eq_nil_iff ofSchema_petSchema hd).2 undegraded_petSchema⟩

end SwaggerForge
