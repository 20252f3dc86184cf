import SwaggerForge.Proofs.Inheritance
import SwaggerForge.Proofs.Walk

/-!
# Traversals end

Bases may go round in circles, and classes may refer to themselves and to each other. None of the
three traversals is led round for ever by that, each for a reason of its own.

* **The walk down** finds the new children of a class before it walks the subtree of any, so that
  a call is made only for a class that has just been found (`Hierarchy.DescentCall.unmet_lt`).
* **The way up** takes a step only to a base that it has not passed
  (`Hierarchy.ClimbStep.unmet_lt`).
* **The visit** of a place makes visits at the same path, but each takes in less than the one it
  is part of, and all other visits are one bracket deeper (`Flattening.budget_lt_of_call`).

To say this of the calls, and not only of their results, the walk down and the visit are described
as they run: a list of what is left to do, of which one thing is done after the other, each call to
its end (`Hierarchy.Collects`, `Flattening.Runs`). A run has an end if there is a finite derivation
for it, and then its result is that of the traversal. The way up is a loop, whose steps are
`Hierarchy.ClimbStep`. All three together are `Hierarchy.traversals_terminate`.
-/

namespace SwaggerForge

namespace Hierarchy

variable (h : Hierarchy)

/-! ## The walk down -/

/-- **A call of the walk down**: for the subtree of a class, with what has been found before. -/
structure Descent where
  name : String
  found : List String

/-- **Subtrees are walked in turn**, each with what has been found before it: the new children of
its class are found, and then their subtrees are walked. -/
inductive Collects (top : String) : List String → List String → List String → Prop
  | done (found : List String) : Collects top [] found found
  | call {name : String} {rest found below last : List String}
      (subtree : Collects top (h.freshChildren top found name)
        (found ++ h.freshChildren top found name) below)
      (others : Collects top rest below last) : Collects top (name :: rest) found last

/-- **A call makes a call** for each of the new children, when it has walked the subtrees of those
before it. -/
inductive DescentCall (top : String) : Descent → Descent → Prop
  | child {name child : String} {found found' before after : List String}
      (fresh : h.freshChildren top found name = before ++ child :: after)
      (walked : h.Collects top before (found ++ h.freshChildren top found name) found') :
      DescentCall top ⟨name, found⟩ ⟨child, found'⟩

variable {h} {top : String}

/-- What has been found stays found. -/
theorem Collects.mem_of_mem {inHand found last : List String}
    (hc : h.Collects top inHand found last) {d : String} (hd : d ∈ found) : d ∈ last := by
  induction hc with
  | done _ => exact hd
  | call _ _ hsubtree hothers => exact hothers (hsubtree (List.mem_append_left _ hd))

/-- **A call is made for a class that has just been found.** -/
theorem DescentCall.unmet_lt {call call' : Descent} (hcall : h.DescentCall top call call') :
    h.unmet call'.found < h.unmet call.found := by
  cases hcall with
  | @child name child found found' before after fresh walked =>
    have hchild : child ∈ h.freshChildren top found name := by
      rw [fresh]
      exact List.mem_append_right _ List.mem_cons_self
    obtain ⟨hmem, -, hnew⟩ := h.mem_freshChildren_iff.1 hchild
    exact h.unmet_lt (fun n hn => walked.mem_of_mem (List.mem_append_left _ hn))
      (h.mem_names_of_mem_children hmem) hnew
      (walked.mem_of_mem (List.mem_append_right _ hchild))

theorem exists_collects_of_append {xs ys found last : List String}
    (hc : h.Collects top (xs ++ ys) found last) :
    ∃ mid, h.Collects top xs found mid ∧ h.Collects top ys mid last := by
  induction xs generalizing found with
  | nil => exact ⟨found, .done found, hc⟩
  | cons name xs ih =>
    cases hc with
    | call subtree others =>
      obtain ⟨mid, hxs, hys⟩ := ih others
      exact ⟨mid, .call subtree hxs, hys⟩

/-- **Every walk down comes to its end**, with what the traversal finds. -/
theorem collects_iff {inHand found last : List String} :
    h.Collects top inHand found last ↔ last = h.descend top inHand found := by
  constructor
  · intro hc
    induction hc with
    | done found => rw [descend]
    | call _ _ hsubtree hothers => rw [hothers, hsubtree, descend, descend_append]
  · rintro rfl
    induction inHand, found using descend.induct h top with
    | case1 found =>
      rw [descend]
      exact .done found
    | case2 name rest found ih =>
      rw [descend]
      obtain ⟨below, hsubtree, hothers⟩ := exists_collects_of_append ih
      exact .call hsubtree hothers

/-! ## The way up -/

/-- **How far a way up has come**: the class that it has come to, and the classes passed. -/
structure Ascent where
  name : String
  chain : List String

variable (h) in
/-- **One step up**, to a base that has not been passed. -/
inductive ClimbStep : Ascent → Ascent → Prop
  | base {name base : String} {chain : List String} (isBase : h.baseClass? name = some base)
      (new : base ∉ chain) : ClimbStep ⟨name, chain⟩ ⟨base, base :: chain⟩

theorem ClimbStep.unmet_lt {ascent ascent' : Ascent} (hstep : h.ClimbStep ascent ascent') :
    h.unmet ascent'.chain < h.unmet ascent.chain := by
  obtain ⟨isBase, new⟩ := hstep
  exact h.unmet_lt (List.subset_cons_self _ _) (h.mem_names_of_baseClass? isBase) new
    List.mem_cons_self

/-- **Every way up comes to its end**, where no step can be taken. -/
theorem exists_climbed_end (name : String) (chain : List String) :
    ∃ top, Relation.ReflTransGen h.ClimbStep ⟨name, chain⟩ ⟨top, h.climb chain name⟩ ∧
      ∀ next, ¬ h.ClimbStep ⟨top, h.climb chain name⟩ next := by
  induction chain, name using climb.induct h with
  | case1 chain name hb =>
    rw [h.climb_of_none hb]
    refine ⟨name, .refl, ?_⟩
    rintro _ ⟨isBase, -⟩
    cases hb.symm.trans isBase
  | case2 chain name base hb hmem =>
    rw [h.climb_of_some hb, if_pos hmem]
    refine ⟨name, .refl, ?_⟩
    rintro _ ⟨isBase, new⟩
    cases hb.symm.trans isBase
    exact new hmem
  | case3 chain name base hb hmem ih =>
    rw [h.climb_of_some hb, if_neg hmem]
    obtain ⟨top, hsteps, hend⟩ := ih
    exact ⟨top, .head (.base hb hmem) hsteps, hend⟩

end Hierarchy

/-! ## Visits -/

namespace Flattening

/-- **A visit**: what it takes in of a class, at which path and under which condition. -/
structure Visit where
  reach : Reach
  name : String
  path : String
  condition : Option ShowCondition

/-- **What a visit is made up of.** -/
inductive Errand where
  /-- Something is met. -/
  | sight (s : Sighting)
  /-- Another visit is made. -/
  | call (v : Visit)

variable (f : Flattening) (orderBy : Option EnumValues)

/-- What is done for an input: a value is met, an object is visited. -/
def inputErrand (v : Visit) (p : DefinedProperty) : Errand :=
  match f.input orderBy v.path v.condition p with
  | .value leaf => .sight (.parameter leaf)
  | .object target => .call ⟨.full, target, childPath v.path p.name, v.condition⟩

/-- **What a visit does**, one thing after the other. -/
def errands (v : Visit) : List Errand :=
  if f.maxDepth ≤ bracketDepth v.path then [.sight (.cut v.path)]
  else if v.name = f.definitions.root then []
  else
    match f.definitions.get? v.name with
    | none => [.sight (.undefined v.name)]
    | some d =>
      (if v.reach ≠ .own then
        (f.hierarchy.ancestors v.name).map fun ancestor =>
          .call ⟨.own, ancestor, v.path, v.condition⟩
      else [])
      ++ d.inputs.map (f.inputErrand orderBy v)
      ++ (if v.reach = .full ∧ d.isPolymorphic then
        .sight (.parameter (discriminatorAt v.path v.condition d.variants))
          :: (f.hierarchy.concreteDescendants v.name).map fun variant =>
            .call ⟨.lineage, variant, v.path, some (variantCondition v.path variant)⟩
      else [])

/-- **Errands are run in turn**, and a visit is made by running its own to their end. -/
inductive Runs : List Errand → List Sighting → Prop
  | done : Runs [] []
  | sight {s : Sighting} {rest : List Errand} {seen : List Sighting} (others : Runs rest seen) :
      Runs (.sight s :: rest) (s :: seen)
  | call {v : Visit} {rest : List Errand} {inside seen : List Sighting}
      (visit : Runs (f.errands orderBy v) inside) (others : Runs rest seen) :
      Runs (.call v :: rest) (inside ++ seen)

/-- **What is left to a visit**: brackets up to the bound, and then the kinds of visits that it may
still be made up of at its path. -/
def budget (v : Visit) : Nat × Nat := (f.maxDepth - bracketDepth v.path, v.reach.rank)

/-- What is met on an errand. -/
def outcome : Errand → List Sighting
  | .sight s => [s]
  | .call v => f.visit orderBy v.reach v.name v.path v.condition

variable {f orderBy}

/-- **Which visits a visit makes**: of the classes above and of the variants at its own path, and
of what its inputs refer to. -/
theorem call_mem_errands {v w : Visit} (hcall : Errand.call w ∈ f.errands orderBy v) :
    bracketDepth v.path < f.maxDepth ∧
      (v.reach ≠ .own ∧ w.reach = .own ∧ w.path = v.path ∨
        (∃ segment, w.path = childPath v.path segment) ∨
        v.reach = .full ∧ w.reach = .lineage ∧ w.path = v.path) := by
  unfold errands at hcall
  split at hcall
  · cases List.mem_singleton.1 hcall
  · next hshallow =>
    refine ⟨Nat.not_le.1 hshallow, ?_⟩
    split at hcall
    · cases hcall
    · split at hcall
      · cases List.mem_singleton.1 hcall
      · next d _ =>
        rw [List.mem_append, List.mem_append] at hcall
        rcases hcall with (habove | hinput) | hbelow
        · split at habove
          · next hreach =>
            obtain ⟨ancestor, -, heq⟩ := List.mem_map.1 habove
            cases heq
            exact Or.inl ⟨hreach, rfl, rfl⟩
          · cases habove
        · obtain ⟨p, -, heq⟩ := List.mem_map.1 hinput
          unfold inputErrand at heq
          split at heq
          · cases heq
          · cases heq
            exact Or.inr (Or.inl ⟨p.name, rfl⟩)
        · split at hbelow
          · next hfull =>
            obtain ⟨variant, -, heq⟩ :=
              List.mem_map.1 ((List.mem_cons.1 hbelow).resolve_left Errand.noConfusion)
            cases heq
            exact Or.inr (Or.inr ⟨hfull.1, rfl, rfl⟩)
          · cases hbelow

/-- **A visit that is made by a visit has less left.** -/
theorem budget_lt_of_call {v w : Visit} (hcall : Errand.call w ∈ f.errands orderBy v) :
    Prod.Lex (· < ·) (· < ·) (f.budget w) (f.budget v) := by
  obtain ⟨hshallow, ⟨hreach, hown, hpath⟩ | ⟨segment, hpath⟩ | ⟨hfull, hline, hpath⟩⟩ :=
    call_mem_errands hcall
  · unfold budget
    rw [hown, hpath]
    refine .right _ ?_
    revert hreach
    cases v.reach with
    | own => exact fun hreach => absurd rfl hreach
    | lineage => exact fun _ => Nat.zero_lt_one
    | full => exact fun _ => Nat.zero_lt_two
  · have hdeeper := bracketDepth_lt_childPath v.path segment
    refine .left _ _ ?_
    rw [hpath]
    omega
  · unfold budget
    rw [hfull, hline, hpath]
    exact .right _ Nat.one_lt_two

theorem outcome_inputErrand (v : Visit) (p : DefinedProperty) :
    f.outcome orderBy (f.inputErrand orderBy v p) = f.seeInput orderBy v.path v.condition p := by
  unfold inputErrand seeInput
  cases f.input orderBy v.path v.condition p <;> rfl

variable (f orderBy) in
/-- **A visit is what is met on its errands.** -/
theorem visit_eq_flatMap_errands (v : Visit) :
    f.visit orderBy v.reach v.name v.path v.condition
      = (f.errands orderBy v).flatMap (f.outcome orderBy) := by
  unfold errands
  split
  · next hdeep =>
    rw [visit_of_deep hdeep]
    rfl
  · next hshallow =>
    have hdepth := Nat.not_le.1 hshallow
    split
    · next hroot =>
      rw [hroot, visit_root hdepth]
      rfl
    · next hne =>
      split
      · next hd =>
        rw [visit_of_get?_eq_none hdepth hne hd]
        rfl
      · next d hd =>
        rw [visit_of_get? hdepth hne hd, List.flatMap_append, List.flatMap_append,
          List.flatMap_map]
        simp only [outcome_inputErrand]
        congr 2
        · split
          · rw [List.flatMap_map]
            rfl
          · rfl
        · split
          · rw [List.flatMap_cons, List.flatMap_map]
            rfl
          · rfl

/-- A run comes to its end if the visits do that are made on its errands. -/
theorem runs_of_forall_call {errands : List Errand}
    (h : ∀ v, Errand.call v ∈ errands →
      f.Runs orderBy (f.errands orderBy v) (f.outcome orderBy (.call v))) :
    f.Runs orderBy errands (errands.flatMap (f.outcome orderBy)) := by
  induction errands with
  | nil => exact .done
  | cons errand rest ih =>
    have hrest := ih fun v hv => h v (List.mem_cons_of_mem _ hv)
    cases errand with
    | sight s => exact .sight hrest
    | call v => exact .call (h v List.mem_cons_self) hrest

/-- **Every visit comes to its end**: those that it makes have less left. -/
theorem runs_errands (v : Visit) :
    f.Runs orderBy (f.errands orderBy v) (f.outcome orderBy (.call v)) := by
  -- the recursion is on what is left to the visit, and not on its path, which may stay the same
  show f.Runs orderBy _ (f.visit orderBy v.reach v.name v.path v.condition)
  rw [visit_eq_flatMap_errands]
  exact runs_of_forall_call fun w hw => runs_errands w
termination_by f.budget v
decreasing_by exact budget_lt_of_call hw

/-- **Every run comes to its end**, with what is met on its errands. -/
theorem runs_iff {errands : List Errand} {seen : List Sighting} :
    f.Runs orderBy errands seen ↔ seen = errands.flatMap (f.outcome orderBy) := by
  constructor
  · intro hruns
    induction hruns with
    | done => rfl
    | sight _ hothers =>
      rw [hothers]
      rfl
    | call _ _ hvisit hothers =>
      rw [hvisit, hothers, List.flatMap_cons, ← visit_eq_flatMap_errands]
      rfl
  · rintro rfl
    exact runs_of_forall_call fun v _ => runs_errands v

end Flattening

namespace Hierarchy

theorem unmet_eq_countP (h : Hierarchy) (met : List String) :
    h.unmet met = h.classes.countP fun c => c.name ∉ met := by
  unfold unmet names
  rw [List.filter_map, List.length_map, List.countP_eq_length_filter]
  congr 2
  funext c
  simp

/-- **The traversals end**, however the accepted classes derive from and refer to each other.

* Each call of the walk down leaves fewer classes that are not found, and the walk has an end.
* Each step of the way up leaves fewer classes that are not passed, and the way has an end.
* Under every bound, each visit that is made by a visit has fewer brackets left up to the bound,
  or as many and fewer kinds of visits at its path, and every visit has an end. -/
theorem traversals_terminate {root : String} {classes : List ClassDecl} {h : Hierarchy}
    (hok : ofClasses root classes = .ok h) :
    ((∀ top call call', h.DescentCall top call call' →
        classes.countP (fun c => c.name ∉ call'.found)
          < classes.countP (fun c => c.name ∉ call.found)) ∧
      ∀ name found, h.Collects name [name] [] found ↔ found = h.descendants name) ∧
    ((∀ ascent ascent', h.ClimbStep ascent ascent' →
        classes.countP (fun c => c.name ∉ ascent'.chain)
          < classes.countP (fun c => c.name ∉ ascent.chain)) ∧
      ∀ name, ∃ top, Relation.ReflTransGen h.ClimbStep ⟨name, []⟩ ⟨top, h.ancestors name⟩ ∧
        ∀ next, ¬ h.ClimbStep ⟨top, h.ancestors name⟩ next) ∧
    ∀ f : Flattening, f.hierarchy = h → ∀ orderBy,
      (∀ v w, Flattening.Errand.call w ∈ f.errands orderBy v →
        Prod.Lex (· < ·) (· < ·) (f.maxDepth - bracketDepth w.path, w.reach.rank)
          (f.maxDepth - bracketDepth v.path, v.reach.rank)) ∧
      ∀ v seen, f.Runs orderBy [.call v] seen ↔
        seen = f.visit orderBy v.reach v.name v.path v.condition := by
  obtain ⟨-, rfl⟩ := root_and_classes_of_ofClasses hok
  refine ⟨⟨fun top call call' hcall => ?_, fun name found => collects_iff⟩,
    ⟨fun ascent ascent' hstep => ?_, fun name => exists_climbed_end name []⟩,
    fun f _ orderBy => ⟨fun v w hcall => Flattening.budget_lt_of_call hcall, fun v seen => ?_⟩⟩
  · rw [← unmet_eq_countP, ← unmet_eq_countP]
    exact hcall.unmet_lt
  · rw [← unmet_eq_countP, ← unmet_eq_countP]
    exact hstep.unmet_lt
  · rw [Flattening.runs_iff, List.flatMap_singleton]
    rfl

/-- Hen and egg come from each other, and an animal and its owner refer to each other. -/
theorem traversals_terminate_coop :
    ofClasses "Object" coop = .ok coopHierarchy ∧
      coopHierarchy.Collects "Hen" ["Hen"] [] ["Egg", "Chick", "Pullet"] ∧
      (∃ top, Relation.ReflTransGen coopHierarchy.ClimbStep ⟨"Hen", []⟩ ⟨top, ["Hen", "Egg"]⟩ ∧
        ∀ next, ¬ coopHierarchy.ClimbStep ⟨top, ["Hen", "Egg"]⟩ next) ∧
      ofClasses "Object" Flattening.pets.classes = .ok Flattening.pets ∧
      ∃ seen, Flattening.petWalk.Runs none [.call ⟨.full, "Person", "", none⟩] seen := by
  have hbelow : coopHierarchy.descendants "Hen" = ["Egg", "Chick", "Pullet"] := by cbv
  have habove : coopHierarchy.ancestors "Hen" = ["Hen", "Egg"] := by cbv
  have hpets : ofClasses "Object" Flattening.pets.classes = .ok Flattening.pets := rfl
  obtain ⟨⟨-, hdown⟩, ⟨-, hup⟩, -⟩ := traversals_terminate ofClasses_coop
  obtain ⟨-, -, hwalks⟩ := traversals_terminate hpets
  refine ⟨ofClasses_coop, (hdown _ _).2 hbelow.symm, ?_, hpets, _,
    ((hwalks Flattening.petWalk rfl none).2 _ _).2 rfl⟩
  rw [← habove]
  exact hup "Hen"

end Hierarchy

end SwaggerForge
