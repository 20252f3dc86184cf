import SwaggerForge.Proofs.Operations

/-!
# Which declarations pass the checks

A declaration is refused for one of two reasons: a type name in it denotes nothing, or a
default in it is no literal of its type. The definitions here say when a property, a
parameter or a result has neither fault (`Property.WellTyped`, `Parameter.WellTyped`,
`ResultType.WellTyped`), in terms of the names that are known and without any reference to
the steps that check it. The lemmas say of each step whether it checks that: a property of a
class and a parameter in a body pass exactly when they are well typed
(`Declarations.passes_defineProperty`, `OperationContext.passes_bodyProperty`), but an array
in a query passes always, for it is left out (`OperationContext.passes_queryPart`).
-/

namespace SwaggerForge

/-! ## Names that resolve -/

section Names

variable (known : String → Prop)

/-- **A type name that denotes something**: a primitive type, or a known name. -/
def Resolves (type : String) : Prop := Primitive.isName type = true ∨ known type

/-- A type name that denotes something, and so does that of the elements if the type is an
array and they have one. -/
def ResolvesThrough (type : String) (arrayType : Option String) : Prop :=
  Resolves known type ∧ (type = "array" → ∀ element ∈ arrayType, Resolves known element)

variable {known}

theorem resolves_iff {type : String} :
    Resolves known type ↔ (Primitive.ofName? type = none → known type) := by
  unfold Resolves Primitive.isName
  cases hty : Primitive.ofName? type with
  | none => exact ⟨fun h _ => h.resolve_left Bool.false_ne_true, fun h => Or.inr (h rfl)⟩
  | some ty => exact iff_of_true (Or.inl rfl) fun h => nomatch h

/-- **Only one name means an array.** -/
theorem Primitive.ofName?_eq_array_iff {type : String} :
    ofName? type = some .array ↔ type = "array" :=
  ⟨Primitive.ofName?_eq_array, fun h => h ▸ rfl⟩

/-- **What resolving comes to**, case by case on what the name denotes. -/
theorem resolvesThrough_iff {type : String} {arrayType : Option String} :
    ResolvesThrough known type arrayType ↔
      (∀ ty, Primitive.ofName? type = some ty →
        ty = .array → ∀ element ∈ arrayType, Resolves known element) ∧
      (Primitive.ofName? type = none → known type) := by
  unfold ResolvesThrough
  rw [resolves_iff, and_comm, ← Primitive.ofName?_eq_array_iff]
  refine and_congr_left fun _ => ⟨?_, fun h harray => h _ harray rfl⟩
  rintro h ty hty rfl
  exact h hty

end Names

/-! ## Well-typed declarations -/

/-- **A default that a type admits**: none, a blank one, the word `null`, or a literal of
the type. -/
def Primitive.Admits (ty : Primitive) (default : Option String) : Prop :=
  ∀ text ∈ default, trim text = "" ∨ trim text = "null" ∨ (ty.ofLiteral? (trim text)).isSome = true

/-- A default that the primitive type of the given name admits; objects of classes have
no defaults. -/
def AdmitsDefault (type : String) (default : Option String) : Prop :=
  ∀ ty ∈ Primitive.ofName? type, ty.Admits default

/-- A property that holds a list of objects of a class. -/
def Property.HoldsObjects (p : Property) : Prop :=
  p.type = "array" ∧ ∃ element ∈ p.arrayType, Primitive.isName element = false

/-- **A property without faults.** A list of objects has no default to look at. -/
structure Property.WellTyped (known : String → Prop) (p : Property) : Prop where
  type : ResolvesThrough known p.type p.arrayType
  default : ¬ p.HoldsObjects → AdmitsDefault p.type p.default

/-- **A parameter without faults.** -/
structure Parameter.WellTyped (known : String → Prop) (p : Parameter) : Prop where
  type : ResolvesThrough known p.type p.arrayType
  default : AdmitsDefault p.type p.default

/-- **A result without faults**; one without a type is none. -/
def ResultType.WellTyped (known : String → Prop) (r : ResultType) : Prop :=
  r.type ≠ "" → ResolvesThrough known r.type r.arrayType

section Decidable

variable (known : String → Prop) [DecidablePred known]

instance (type : String) : Decidable (Resolves known type) :=
  inferInstanceAs (Decidable (_ ∨ _))

instance (type : String) (arrayType : Option String) :
    Decidable (ResolvesThrough known type arrayType) :=
  inferInstanceAs (Decidable (_ ∧ _))

instance (ty : Primitive) (default : Option String) : Decidable (ty.Admits default) :=
  inferInstanceAs (Decidable (∀ _ ∈ _, _))

instance (type : String) (default : Option String) : Decidable (AdmitsDefault type default) :=
  inferInstanceAs (Decidable (∀ _ ∈ _, _))

instance (p : Property) : Decidable p.HoldsObjects :=
  inferInstanceAs (Decidable (_ ∧ _))

instance (p : Property) : Decidable (p.WellTyped known) :=
  decidable_of_iff (ResolvesThrough known p.type p.arrayType ∧
      (¬ p.HoldsObjects → AdmitsDefault p.type p.default))
    ⟨fun h => ⟨h.1, h.2⟩, fun h => ⟨h.type, h.default⟩⟩

instance (p : Parameter) : Decidable (p.WellTyped known) :=
  decidable_of_iff (ResolvesThrough known p.type p.arrayType ∧ AdmitsDefault p.type p.default)
    ⟨fun h => ⟨h.1, h.2⟩, fun h => ⟨h.type, h.default⟩⟩

instance (r : ResultType) : Decidable (r.WellTyped known) :=
  inferInstanceAs (Decidable (_ → _))

end Decidable

/-- A property is well typed, case by case on what the name of its type denotes. -/
theorem Property.wellTyped_iff {known : String → Prop} {p : Property} :
    p.WellTyped known ↔
      (∀ ty, Primitive.ofName? p.type = some ty →
        (ty = .array → ∀ element ∈ p.arrayType, Resolves known element) ∧
        (¬ p.HoldsObjects → ty.Admits p.default)) ∧
      (Primitive.ofName? p.type = none → known p.type) := by
  constructor
  · intro h
    obtain ⟨helements, hknown⟩ := resolvesThrough_iff.1 h.type
    exact ⟨fun ty hty => ⟨helements ty hty, fun hvalues => h.default hvalues ty hty⟩, hknown⟩
  · rintro ⟨hprimitive, hknown⟩
    exact ⟨resolvesThrough_iff.2 ⟨fun ty hty => (hprimitive ty hty).1, hknown⟩,
      fun hvalues ty hty => (hprimitive ty hty).2 hvalues⟩

/-- A parameter is well typed, case by case on what the name of its type denotes. -/
theorem Parameter.wellTyped_iff {known : String → Prop} {p : Parameter} :
    p.WellTyped known ↔
      (∀ ty, Primitive.ofName? p.type = some ty →
        (ty = .array → ∀ element ∈ p.arrayType, Resolves known element) ∧
        ty.Admits p.default) ∧
      (Primitive.ofName? p.type = none → known p.type) := by
  constructor
  · intro h
    obtain ⟨helements, hknown⟩ := resolvesThrough_iff.1 h.type
    exact ⟨fun ty hty => ⟨helements ty hty, h.default ty hty⟩, hknown⟩
  · rintro ⟨hprimitive, hknown⟩
    exact ⟨resolvesThrough_iff.2 ⟨fun ty hty => (hprimitive ty hty).1, hknown⟩,
      fun ty hty => (hprimitive ty hty).2⟩

/-! ## Checks of names and literals -/

namespace Hierarchy

variable (h : Hierarchy)

/-- The names that denote a class or the root. -/
def Known (name : String) : Prop := h.isKnown name = true

instance : DecidablePred h.Known := fun _ => inferInstanceAs (Decidable (_ = true))

variable {α : Type}

/-- **A step that resolves a name first** passes exactly when the name denotes something and
the step passes with what it denotes. -/
theorem passes_resolve_bind {type context : String} {g : Denotation → Except Failure α} :
    Passes (h.resolve type context >>= g) ↔
      (∀ ty, Primitive.ofName? type = some ty → Passes (g (.primitive ty))) ∧
      (Primitive.ofName? type = none → h.Known type ∧ Passes (g (.reference type))) := by
  unfold resolve Known
  cases hty : Primitive.ofName? type with
  | some ty =>
    constructor
    · intro hpass
      exact ⟨fun ty' hty' => Option.some.inj hty' ▸ hpass, fun hnone => nomatch hnone⟩
    · intro hpass
      exact hpass.1 ty rfl
  | none =>
    refine Iff.trans ?_ (and_iff_right fun ty hty => nomatch hty).symm
    dsimp only
    split
    · next hk => exact ⟨fun hpass _ => ⟨hk, hpass⟩, fun hpass => (hpass rfl).2⟩
    · next hk => exact iff_of_false (not_passes_error _) fun hpass => hk (hpass rfl).1

/-- **A name passes** exactly when it denotes something. -/
theorem passes_resolve {type context : String} :
    Passes (h.resolve type context) ↔ Resolves h.Known type := by
  rw [← bind_pure (h.resolve type context), passes_resolve_bind, resolves_iff]
  exact ⟨fun hpass hnone => (hpass.2 hnone).1,
    fun hknown => ⟨fun ty _ => passes_ok _, fun hnone => ⟨hknown hnone, passes_ok _⟩⟩⟩

/-- What resolves to a class is no name of a primitive type, and conversely. -/
theorem exists_reference_iff {type context : String} {meant : Denotation}
    (hmeant : h.resolve type context = .ok meant) :
    (∃ target, meant = .reference target) ↔ Primitive.isName type = false := by
  cases meant with
  | primitive ty =>
    refine iff_of_false (fun ⟨_, heq⟩ => nomatch heq) ?_
    rw [Primitive.isName, h.ofName?_of_resolve hmeant]
    exact Bool.false_ne_true.symm
  | reference target =>
    refine iff_of_true ⟨target, rfl⟩ ?_
    obtain rfl := h.eq_of_resolve hmeant
    rw [Primitive.isName, (h.isReference_iff.1 (h.isReference_of_resolve hmeant)).1]
    rfl

end Hierarchy

/-- **A default passes** exactly when its type admits it. -/
theorem Primitive.passes_parseDefault {ty : Primitive} {literal : Option String}
    {context : String} : Passes (ty.parseDefault literal context) ↔ ty.Admits literal := by
  unfold parseDefault Admits
  cases literal with
  | none => exact iff_of_true (passes_ok _) fun _ h => nomatch h
  | some text =>
    simp only [Option.mem_some_iff, forall_eq']
    split
    · next hblank => exact iff_of_true (passes_ok _) (or_assoc.1 (Or.inl hblank))
    · next hblank =>
      rw [← or_assoc, or_iff_right hblank]
      split
      · next value hvalue => exact iff_of_true (passes_ok _) (hvalue ▸ rfl)
      · next hnone =>
        refine iff_of_false (not_passes_error _) ?_
        rw [hnone]
        exact Bool.false_ne_true

/-! ## Properties of classes -/

namespace Declarations

variable (env : Declarations)

/-- **The type of the elements passes** exactly when it denotes something, for an array. -/
theorem passes_elementOf {type : Primitive} {arrayType : Option String} (context : String) :
    Passes (env.elementOf type arrayType context) ↔
      (type = .array → ∀ element ∈ arrayType, Resolves env.hierarchy.Known element) := by
  unfold elementOf
  split
  · next element =>
    simp only [passes_map, env.hierarchy.passes_resolve, Option.mem_some_iff, forall_eq',
      true_imp_iff]
  · next hother =>
    refine iff_of_true (passes_ok _) ?_
    rintro rfl element helement
    exact absurd helement (hother element rfl)

/-- The elements are of a class exactly when the property holds objects. -/
theorem exists_elementOf_iff {p : Property} {type : Primitive} {context : String}
    {meant : Option Denotation} (hty : Primitive.ofName? p.type = some type)
    (hmeant : env.elementOf type p.arrayType context = .ok meant) :
    (∃ target, meant = some (.reference target)) ↔ p.HoldsObjects := by
  unfold Property.HoldsObjects
  rw [← Primitive.ofName?_eq_array_iff, hty, Option.some_inj]
  unfold elementOf at hmeant
  split at hmeant
  · next element harray =>
    obtain ⟨m, hm, rfl⟩ := map_eq_ok.1 hmeant
    simp only [harray, Option.some_inj, Option.mem_some_iff, exists_eq_left', true_and]
    exact env.hierarchy.exists_reference_iff hm
  · next hother =>
    obtain rfl := Except.ok.inj hmeant
    refine iff_of_false (fun ⟨_, heq⟩ => nomatch heq) ?_
    rintro ⟨rfl, element, helement, -⟩
    exact hother element rfl helement

/-- **A default with an enumeration passes** exactly when the type admits the default; the
enumeration may be missing. -/
theorem passes_literal {α : Type} {type : Primitive} {literal enumName : Option String}
    {context : String} (make : Option Json → Option EnumValues → α) :
    Passes (show Report α from do
      let default ← type.parseDefault literal context
      let enum ← env.enumValues enumName context
      return make default enum).result ↔ type.Admits literal := by
  rw [Report.result_bind, Report.result_liftM, passes_bind_iff_left, Primitive.passes_parseDefault]
  intro default _
  rw [Report.result_bind, env.result_enumValues]
  exact passes_ok _

/-- **A property passes** exactly when it is well typed. -/
theorem passes_defineProperty {c : ClassDecl} {p : Property} :
    Passes (env.defineProperty c p).result ↔ p.WellTyped env.hierarchy.Known := by
  unfold defineProperty
  dsimp only
  rw [Report.result_bind, Report.result_liftM, env.hierarchy.passes_resolve_bind,
    Property.wellTyped_iff]
  refine and_congr (forall_congr' fun type => forall_congr' fun hty => ?_)
    (forall_congr' fun _ => and_iff_left (passes_ok _))
  dsimp only
  generalize toString c.name ++ toString "." ++ toString p.name = context
  rw [Report.result_bind, Report.result_liftM, ← env.passes_elementOf context]
  cases helement : env.elementOf type p.arrayType context with
  | error e => exact iff_of_false (not_passes_error _) fun h => not_passes_error _ h.1
  | ok element =>
    -- the default is looked at unless the elements are of a class
    rw [and_iff_right (passes_ok element), ← env.exists_elementOf_iff hty helement]
    rcases element with _ | item | target
    · rw [imp_iff_right fun ⟨_, heq⟩ => nomatch heq]
      exact env.passes_literal _
    · rw [imp_iff_right fun ⟨_, heq⟩ => nomatch heq]
      exact env.passes_literal _
    · exact iff_of_true (passes_ok _) fun hvalues => absurd ⟨target, rfl⟩ hvalues

end Declarations

/-! ## Parameters and results of actions -/

namespace OperationContext

variable (ctx : OperationContext)

theorem passes_elementSchema {type context : String} :
    Passes (ctx.elementSchema type context) ↔ Resolves ctx.hierarchy.Known type := by
  unfold elementSchema
  rw [passes_bind_iff_left, ctx.hierarchy.passes_resolve]
  intro meant _
  cases meant <;> exact passes_ok _

theorem passes_itemsSchema {type : Primitive} {arrayType : Option String} (context : String) :
    Passes (ctx.itemsSchema type arrayType context) ↔
      (type = .array → ∀ element ∈ arrayType, Resolves ctx.hierarchy.Known element) := by
  unfold itemsSchema
  split
  · next element =>
    simp only [passes_map, ctx.passes_elementSchema, Option.mem_some_iff, forall_eq',
      true_imp_iff]
  · next hother =>
    refine iff_of_true (passes_ok _) ?_
    rintro rfl element helement
    exact absurd helement (hother element rfl)

/-- **A result passes** exactly when its type and that of its elements denote something. -/
theorem passes_resultSchema {r : ResultType} {context : String} :
    Passes (ctx.resultSchema r context) ↔
      ResolvesThrough ctx.hierarchy.Known r.type r.arrayType := by
  unfold resultSchema
  rw [ctx.hierarchy.passes_resolve_bind, resolvesThrough_iff]
  refine and_congr (forall_congr' fun type => forall_congr' fun _ => ?_)
    (forall_congr' fun _ => and_iff_left (passes_ok _))
  refine (passes_bind_iff_left fun items _ => ?_).trans (ctx.passes_itemsSchema context)
  cases items <;> exact passes_ok _

theorem passes_successSchema {a : Action} {context : String} :
    Passes (ctx.successSchema a context) ↔
      ∀ r ∈ a.result, r.WellTyped ctx.hierarchy.Known := by
  unfold successSchema ResultType.WellTyped
  cases hresult : a.result with
  | none => exact iff_of_true (passes_ok _) fun _ h => nomatch h
  | some r =>
    simp only [Option.mem_some_iff, forall_eq']
    split
    · next hempty => exact iff_of_true (passes_ok _) fun hne => absurd hempty hne
    · next hne => rw [passes_map, ctx.passes_resultSchema, imp_iff_right hne]

/-- An error that is not declared is noted, and no failure. -/
theorem passes_errorLine (context name : String) : Passes (ctx.errorLine context name).result := by
  unfold errorLine
  split
  · split <;> exact passes_ok _
  · exact passes_ok _

/-- **The answers pass** exactly when the result is well typed. -/
theorem passes_responses {s : Service} {a : Action} :
    Passes (ctx.responses s a).result ↔ ∀ r ∈ a.result, r.WellTyped ctx.hierarchy.Known := by
  unfold responses
  dsimp only
  rw [Report.result_bind, Report.result_liftM, passes_bind_iff_left, ctx.passes_successSchema]
  intro success _
  rw [Report.result_bind, Report.result_mapM]
  refine (passes_bind_iff_left fun lines _ => passes_ok _).2 (passes_mapM.2 fun name _ => ?_)
  exact ctx.passes_errorLine _ name

theorem passes_constraints {p : Parameter} {type : Primitive} (context : String) :
    Passes (ctx.constraints p type context).result ↔ type.Admits p.default :=
  ctx.declarations.passes_literal Prod.mk

/-- **A parameter in a body passes** exactly when it is well typed. -/
theorem passes_bodyProperty {a : Action} {p : Parameter} :
    Passes (ctx.bodyProperty a p).result ↔ p.WellTyped ctx.hierarchy.Known := by
  unfold bodyProperty
  dsimp only
  rw [Report.result_bind, Report.result_liftM, ctx.hierarchy.passes_resolve_bind,
    Parameter.wellTyped_iff]
  refine and_congr (forall_congr' fun type => forall_congr' fun _ => ?_)
    (forall_congr' fun _ => and_iff_left (passes_ok _))
  dsimp only
  rw [Report.result_bind, Report.result_liftM, ← ctx.passes_itemsSchema (parameterContext a p),
    ← ctx.passes_constraints (parameterContext a p)]
  refine passes_bind_iff_and fun items _ => ?_
  rw [Report.result_bind]
  exact passes_bind_iff_left fun _ _ => passes_ok _

theorem passes_inlineParameter {p : Parameter} {type : Primitive} (context : String) :
    Passes (ctx.inlineParameter p type context).result ↔ type.Admits p.default := by
  unfold inlineParameter
  rw [Report.result_bind, ← ctx.passes_constraints context]
  exact passes_bind_iff_left fun _ _ => passes_ok _

/-- **A parameter in a query passes** exactly when it is an array, which nothing looks into,
or well typed. -/
theorem passes_queryPart (hb : ctx.flattening.Built) {a : Action} {p : Parameter} :
    Passes (ctx.queryPart a p).fresh ↔
      p.type = "array" ∨ p.WellTyped ctx.hierarchy.Known := by
  unfold queryPart
  dsimp only
  rw [Cached.fresh_check_bind]
  refine ctx.hierarchy.passes_resolve_bind.trans ?_
  rw [Parameter.wellTyped_iff, ← Primitive.ofName?_eq_array_iff]
  cases hty : Primitive.ofName? p.type with
  | none =>
    simp only [reduceCtorEq, false_imp_iff, implies_true, true_and, true_imp_iff, false_or]
    refine and_iff_left_of_imp fun hk => ?_
    rw [Cached.fresh_bind (Cached.yields_expansion (f := ctx.flattening) p.type).transparent
      fun _ _ => Cached.transparent_pure _]
    have hexpand : ((Cached.expansion ctx.flattening p.type).fresh) = .ok _ :=
      (Cached.result_expansion _ (ExpansionCache.sound_empty _)).trans (hb.expand_eq hk)
    exact (passes_bind_iff_left fun _ _ => passes_ok _).2 ⟨_, hexpand⟩
  | some ty =>
    simp only [Option.some_inj, forall_eq', reduceCtorEq, false_imp_iff, and_true]
    by_cases harray : ty = .array
    · subst harray
      exact iff_of_true (passes_ok _) (Or.inl rfl)
    · rw [or_iff_right harray, and_iff_right fun h => absurd h harray,
        ← ctx.passes_inlineParameter (parameterContext a p)]
      split
      · next heq => cases heq
      · next heq =>
        cases heq
        exact absurd rfl harray
      · next type _ heq =>
        cases heq
        rw [Cached.fresh_report_bind]
        exact passes_bind_iff_left fun _ _ => passes_ok _

/-- **A body passes** exactly when each parameter is well typed. -/
theorem passes_bodyParameters {a : Action} :
    Passes (ctx.bodyParameters a).result ↔
      ∀ p ∈ a.parameters, p.WellTyped ctx.hierarchy.Known := by
  have hbody : Passes (ctx.body a).result ↔
      ∀ p ∈ a.parameters, p.WellTyped ctx.hierarchy.Known := by
    unfold body
    rw [Report.result_bind, Report.result_mapM]
    refine (passes_bind_iff_left fun _ _ => passes_ok _).trans (passes_mapM.trans ?_)
    refine forall_congr' fun p => forall_congr' fun _ => ?_
    rw [Report.result_bind, ← ctx.passes_bodyProperty (a := a)]
    exact passes_bind_iff_left fun _ _ => passes_ok _
  rw [← hbody]
  unfold bodyParameters
  dsimp only
  split
  · next hnone =>
    refine iff_of_true (passes_ok _) (hbody.2 ?_)
    rw [hnone]
    exact fun _ h => nomatch h
  · rw [Report.result_bind]
    exact passes_bind_iff_left fun _ _ => passes_ok _

/-- **An action passes** exactly when its parameters and its result are well typed, arrays in
a query apart. -/
theorem passes_operation (hb : ctx.flattening.Built) {s : Service} {a : Action} :
    Passes (ctx.operation s a).fresh ↔
      (∀ p ∈ a.parameters, (ctx.styleOf a = .query ∧ p.type = "array") ∨
        p.WellTyped ctx.hierarchy.Known) ∧
      ∀ r ∈ a.result, r.WellTyped ctx.hierarchy.Known := by
  have hanswers {α : Type} (make : Responses → α) :
      Passes ((liftM (ctx.responses s a) : Cached Responses) >>= fun responses =>
        pure (make responses)).fresh ↔ Passes (ctx.responses s a).result := by
    rw [Cached.fresh_report_bind]
    exact passes_bind_iff_left fun _ _ => passes_ok _
  rw [← ctx.passes_responses (s := s)]
  unfold operation
  cases hstyle : ctx.styleOf a with
  | body =>
    simp only [reduceCtorEq, false_and, false_or]
    rw [Cached.fresh_report_bind, ← ctx.passes_bodyParameters]
    exact passes_bind_iff_and fun _ _ => hanswers _
  | query =>
    simp only [true_and]
    have hparts := Cached.fresh_mapM (fun p => (ctx.yields_queryPart a p).transparent) a.parameters
    have hpass : Passes (a.parameters.mapM (ctx.queryPart a)).fresh ↔
        ∀ p ∈ a.parameters, p.type = "array" ∨ p.WellTyped ctx.hierarchy.Known := by
      rw [hparts.2, passes_mapM]
      exact forall_congr' fun p => forall_congr' fun _ => ctx.passes_queryPart hb
    rw [Cached.fresh_bind hparts.1 fun _ _ =>
      (Cached.transparent_liftReport _).bind fun _ _ => Cached.transparent_pure _, ← hpass]
    exact passes_bind_iff_and fun _ _ => hanswers _

end OperationContext

end SwaggerForge
