import SwaggerForge.Proofs.Restrictions
import SwaggerForge.Proofs.SharedKeys

/-!
# What shows a parameter

A condition tells a form to show a parameter when another one has one of some values. It would
be of no use if the other one was never asked for, or had none of the values to offer, or if a
value was one that has nothing to do with the parameter. A parameter is merged from many
sightings, which may come from different classes at one path, and so is the discriminator that
its condition names: each merge takes values in on its own.

What keeps the two together is where conditions come from. On its way to a sighting a walk turns
off to variants, and the condition is that of the last turn: there a discriminator is sighted that
offers the variant, and from there the way goes on along a property of the variant's line
(`Flattening.Branch`, `Flattening.Sights.branch`). So each value of a condition has its place, and
the discriminator there is merged into the parameter that the condition names
(`Flattening.Built.conditions_grounded`).
-/

namespace SwaggerForge

/-- **Conditions that lead nowhere else**: each names one of the parameters. -/
def FlatParameter.ConditionsClosed (ps : List FlatParameter) : Prop :=
  ∀ p ∈ ps, ∀ c, p.condition = some c → ∃ d ∈ ps, d.name = c.parameter

/-- Under the parameter that they are flattened from, conditions still name parameters. -/
theorem FlatParameter.ConditionsClosed.qualified {ps : List FlatParameter}
    (h : ConditionsClosed ps) (root : String) :
    ConditionsClosed (ps.map (·.qualified root)) := by
  intro q hq c hc
  obtain ⟨p, hp, rfl⟩ := List.mem_map.1 hq
  obtain ⟨c', hc', rfl⟩ := Option.map_eq_some_iff.1 hc
  obtain ⟨d, hd, hname⟩ := h p hp c' hc'
  exact ⟨d.qualified root, List.mem_map_of_mem hd, congrArg (root ++ ·) hname⟩

/-- A path tells the path that it is one step further on than. -/
theorem childPath_left_injective {path path' name : String}
    (h : childPath path name = childPath path' name) : path = path' := by
  have hlists := congrArg String.toList h
  simp only [childPath, String.toList_append, List.append_assoc] at hlists
  exact String.toList_injective (List.append_cancel_right hlists)

namespace Flattening

variable (f : Flattening)

/-! ## Branches -/

/-- **A path along which the line of a variant leads**: it begins at the given path with a
property that can be set, of the variant or of a class above it. -/
inductive LineLeads (v path leaf : String) : Prop
  | along {member rest : String} {p : DefinedProperty}
      (line : member = v ∨ member ∈ f.hierarchy.ancestors v) (settable : f.Settable member p)
      (plain : p.discriminator = false) (leaf_eq : leaf = childPath path p.name ++ rest)
      (inside : rest = "" ∨ Bracketed rest) : LineLeads v path leaf

/-- **What is behind the condition that the discriminator of a path names a variant**: from the
given place a way leads to the discriminator of a class there that the variant is below, and
the line of the variant leads on to the leaf. -/
inductive Branch (start : Place) (condition : Option ShowCondition) (leaf path v : String) : Prop
  | off {name : String} {way : List Nat} {c : Option ShowCondition}
      (seen : f.Sights start condition way ⟨⟨name, path⟩, .discriminator, c⟩)
      (below : v ∈ f.hierarchy.concreteDescendants name) (leads : f.LineLeads v path leaf) :
      Branch start condition leaf path v

variable {f}

/-- A way goes further into the path of its place. -/
theorem Sights.exists_bracketed {place : Place} {condition : Option ShowCondition}
    {way : List Nat} {s : Seen} (h : f.Sights place condition way s) :
    ∃ rest, Bracketed rest ∧ s.leaf = place.path ++ rest := by
  have hchild (path name : String) : childPath path name = path ++ childPath "" name := by
    simp [childPath, String.append_assoc]
  induction h with
  | @here place condition c i stop enters stops ends =>
    exact ⟨_, bracketed_childPath (Or.inl rfl) stop.segment, hchild _ _⟩
  | @hop place condition c i p target way s enters stops shape rest ih =>
    obtain ⟨inside, ⟨more, hmore⟩, hleaf⟩ := ih
    refine ⟨childPath "" p.name ++ inside, ?_, ?_⟩
    · obtain ⟨tail, htail⟩ := bracketed_childPath (Or.inl rfl) p.name
      exact ⟨tail ++ inside.toList, by rw [String.toList_append, htail, List.cons_append]⟩
    · rw [hleaf, hchild, String.append_assoc]

/-- **The turn off to a variant** is a branch to whatever is found on the way from there. -/
theorem branch_of_stop {place : Place} {condition : Option ShowCondition} {v : String}
    {p : DefinedProperty} (enters : f.Enters place)
    (below : v ∈ f.hierarchy.concreteDescendants place.name) (hp : p ∈ f.lineageInputs v)
    {leaf rest : String} (leaf_eq : leaf = childPath place.path p.name ++ rest)
    (inside : rest = "" ∨ Bracketed rest) : f.Branch place condition leaf place.path v := by
  obtain ⟨member, line, hmember⟩ := mem_lineageInputs.1 hp
  obtain ⟨settable, plain⟩ := mem_inputsOf.1 hmember
  have hstop : (Stop.discriminator, condition) ∈ f.stops place.name place.path condition :=
    f.mem_stops.2 (Or.inr (Or.inl ⟨List.ne_nil_of_mem below, rfl⟩))
  obtain ⟨i, hi⟩ := List.getElem?_of_mem hstop
  exact .off (.here enters hi trivial) below (.along line.symm settable plain leaf_eq inside)

/-- A branch further on is a branch. -/
theorem Branch.hop {place : Place} {condition c : Option ShowCondition} {i : Nat}
    {p : DefinedProperty} {target leaf path v : String} (enters : f.Enters place)
    (stops : (f.stops place.name place.path condition)[i]? = some (.input p, c))
    (shape : p.shape = .reference target)
    (h : f.Branch ⟨target, childPath place.path p.name⟩ c leaf path v) :
    f.Branch place condition leaf path v := by
  obtain ⟨seen, below, leads⟩ := h
  exact .off (.hop enters stops shape seen) below leads

/-- **Where the condition of a sighting comes from**: the way has not turned off, or it is the
condition of a branch. -/
theorem Sights.branch {place : Place} {condition : Option ShowCondition} {way : List Nat}
    {s : Seen} (h : f.Sights place condition way s) :
    s.condition = condition ∨ ∃ path v, s.condition = some (variantCondition path v) ∧
      f.Branch place condition s.leaf path v := by
  induction h with
  | @here place condition c i stop enters stops ends =>
    rcases f.mem_stops.1 (List.mem_of_getElem? stops) with
      ⟨p, -, heq⟩ | ⟨-, heq⟩ | ⟨v, below, p, hp, heq⟩
    · exact Or.inl (Prod.mk.inj heq).2
    · exact Or.inl (Prod.mk.inj heq).2
    · obtain ⟨rfl, rfl⟩ := Prod.mk.inj heq
      refine Or.inr ⟨place.path, v, rfl, branch_of_stop enters below hp ?_ (Or.inl rfl)⟩
      exact (String.append_empty).symm
  | @hop place condition c i p target way s enters stops shape rest ih =>
    rcases ih with hc | ⟨path, v, hc, hbranch⟩
    · -- the last turn, if there is one, is at this place
      rcases f.mem_stops.1 (List.mem_of_getElem? stops) with
        ⟨p', -, heq⟩ | ⟨-, heq⟩ | ⟨v, below, p', hp, heq⟩
      · exact Or.inl (hc.trans (Prod.mk.inj heq).2)
      · cases (Prod.mk.inj heq).1
      · obtain ⟨hp', rfl⟩ := Prod.mk.inj heq
        obtain rfl := Stop.input.inj hp'
        obtain ⟨inside, hinside, hleaf⟩ := rest.exists_bracketed
        exact Or.inr ⟨place.path, v, hc, branch_of_stop enters below hp hleaf (Or.inr hinside)⟩
    · exact Or.inr ⟨path, v, hc, hbranch.hop enters stops shape⟩

/-! ## Grounds -/

variable (f) in
/-- **A condition with grounds**, under which a parameter of a class is to be shown. It has
values, and each once. The parameter that it names is there, the discriminator of a path,
and offers all of them if it does not accept everything. They are the variants under which the
parameter is sighted, concrete classes all, and there is a branch to the parameter for each. -/
structure Grounded (name : String) (parameters : List FlatParameter) (leaf path : String)
    (c : ShowCondition) : Prop where
  values_ne_nil : c.values ≠ []
  values_nodup : c.values.Nodup
  parameter_eq : c.parameter = childPath path discriminatorName
  offered : ∃ d ∈ parameters, d.name = c.parameter ∧
    ∀ enum, d.enum = some enum → ∀ v ∈ c.values, Json.string v ∈ enum.values
  values_exact : ∀ v, v ∈ c.values ↔ ∃ way s, f.Sights ⟨name, ""⟩ none way s ∧ s.leaf = leaf ∧
    s.condition = some (variantCondition path v)
  concrete : ∀ v ∈ c.values, ∃ cls ∈ f.hierarchy.classes, cls.name = v ∧ cls.abstract = false
  branches : ∀ v ∈ c.values, f.Branch ⟨name, ""⟩ none leaf path v

/-- A variant below a class is a class that is not abstract. -/
theorem exists_class_of_mem_concrete {name v : String}
    (hv : v ∈ f.hierarchy.concreteDescendants name) :
    ∃ cls ∈ f.hierarchy.classes, cls.name = v ∧ cls.abstract = false := by
  obtain ⟨cls, hcls, rfl⟩ := List.mem_map.1 (f.hierarchy.mem_names_of_mem_concrete hv)
  have hconcrete := (List.mem_filter.1 hv).2
  rw [f.hierarchy.isConcrete_of_mem hcls, Bool.not_eq_true'] at hconcrete
  exact ⟨cls, hcls, rfl, hconcrete⟩

namespace Built

variable (hb : f.Built)
include hb

/-- **A definition lists the concrete classes below** among its variants. -/
theorem mem_variantsOf {name v : String} (hk : f.hierarchy.isKnown name = true)
    (hv : v ∈ f.hierarchy.concreteDescendants name) : v ∈ f.variantsOf name := by
  have hn : name ∈ f.hierarchy.names := by
    refine (f.hierarchy.isKnown_iff.1 hk).resolve_left ?_
    rintro rfl
    rw [f.hierarchy.concreteDescendants_root] at hv
    cases hv
  obtain ⟨c, -, rfl, hvariants⟩ := hb.exists_variantsOf_eq hn
  rw [hvariants, Declarations.variants_eq_lineup (List.ne_nil_of_mem hv)]
  exact List.mem_append_right _ hv

variable {name : String} (hk : f.hierarchy.isKnown name = true)
include hk

/-- **The discriminator of a branch** is merged into a parameter that offers the variant. -/
theorem mem_enum_of_branch {d : FlatParameter}
    (hd : d ∈ (summarize (f.sightings name)).parameters) {leaf path v : String}
    (hname : d.name = childPath path discriminatorName)
    (h : f.Branch ⟨name, ""⟩ none leaf path v) {enum : EnumValues} (henum : d.enum = some enum) :
    Json.string v ∈ enum.values := by
  cases h with
  | @off static way c seen below leads =>
    have hv : Json.string v ∈ (EnumValues.ofVariants (f.variantsOf static)).values :=
      List.mem_map_of_mem (hb.mem_variantsOf (hb.isKnown_of_sights seen hk) below)
    have hlen : (EnumValues.ofVariants (f.variantsOf static)).labels.length
        = (EnumValues.ofVariants (f.variantsOf static)).values.length := (List.length_map _).symm
    exact hb.mem_enum_of_sights hk hd henum seen hname.symm rfl hlen (Json.isOption_string v) hv

section Condition

variable {p : FlatParameter} (hp : p ∈ (summarize (f.sightings name)).parameters)
  {c : ShowCondition} (hc : p.condition = some c)
include hp hc

/-- **Each sighting of a parameter with a condition** is behind a branch at the discriminator
that the condition names. -/
theorem exists_branch_of_condition {way : List Nat} {s : Seen}
    (hs : f.Sights ⟨name, ""⟩ none way s) (hleaf : s.leaf = p.name) :
    ∃ path v, s.condition = some (variantCondition path v) ∧
      c.parameter = childPath path discriminatorName ∧ f.Branch ⟨name, ""⟩ none p.name path v := by
  obtain ⟨first, later, -, hseen, hfold⟩ := hb.exists_sighted hk hp
  rw [hfold] at hc
  obtain ⟨d, hd, hparameter⟩ := (FlatParameter.condition_foldl_merge hc).1
    (f.descriptor (f.declarations.orderBy? name) s)
    (List.mem_map_of_mem (f := fun e => f.descriptor _ e.2) ((hseen way s).2 ⟨hs, hleaf⟩))
  rw [condition_descriptor] at hd
  rcases hs.branch with hnone | ⟨path, v, hv, hbranch⟩
  · cases hd.symm.trans hnone
  · obtain rfl := Option.some.inj (hd.symm.trans hv)
    exact ⟨path, v, hv, hparameter.symm, hleaf ▸ hbranch⟩

/-- **The values of a condition** are the variants under which its parameter is sighted, at one
path. There are some, and each is there once. -/
theorem exists_path_of_condition :
    c.values ≠ [] ∧ c.values.Nodup ∧ ∃ path, c.parameter = childPath path discriminatorName ∧
      ∀ v, v ∈ c.values ↔ ∃ way s, f.Sights ⟨name, ""⟩ none way s ∧ s.leaf = p.name ∧
        s.condition = some (variantCondition path v) := by
  obtain ⟨first, later, -, hseen, hfold⟩ := hb.exists_sighted hk hp
  obtain ⟨hs, hleaf⟩ := (hseen first.1 first.2).1 List.mem_cons_self
  obtain ⟨path, v, hv, hparameter, -⟩ := hb.exists_branch_of_condition hk hp hc hs hleaf
  have hmerged := hc
  rw [hfold] at hmerged
  obtain ⟨-, hvalues, hnodup⟩ := FlatParameter.condition_foldl_merge hmerged
  have hmap : _ :: later.map _
      = (first :: later).map fun e => f.descriptor (f.declarations.orderBy? name) e.2 := rfl
  have hexact (u : String) : u ∈ c.values ↔ ∃ way s, f.Sights ⟨name, ""⟩ none way s ∧
      s.leaf = p.name ∧ s.condition = some (variantCondition path u) := by
    rw [hvalues, hmap]
    constructor
    · rintro ⟨q, hq, d, hd, hu⟩
      obtain ⟨⟨way, s⟩, he, rfl⟩ := List.mem_map.1 hq
      obtain ⟨hs, hleaf⟩ := (hseen way s).1 he
      obtain ⟨path', v', hv', hparameter', -⟩ := hb.exists_branch_of_condition hk hp hc hs hleaf
      rw [condition_descriptor] at hd
      obtain rfl := Option.some.inj (hv'.symm.trans hd)
      obtain rfl := childPath_left_injective (hparameter.symm.trans hparameter')
      obtain rfl := List.mem_singleton.1 hu
      exact ⟨way, s, hs, hleaf, hv'⟩
    · rintro ⟨way, s, hs, hleaf, hu⟩
      refine ⟨_, List.mem_map_of_mem ((hseen way s).2 ⟨hs, hleaf⟩), variantCondition path u, ?_,
        List.mem_singleton.2 rfl⟩
      rw [condition_descriptor, hu]
  refine ⟨List.ne_nil_of_mem ((hexact v).2 ⟨_, _, hs, hleaf, hv⟩), hnodup fun d hd => ?_, path,
    hparameter, hexact⟩
  rw [condition_descriptor, hv] at hd
  rw [← Option.some.inj hd]
  exact List.nodup_singleton v

/-- **Every condition has its grounds.** -/
theorem grounded_of_mem_parameters :
    ∃ path, f.Grounded name (summarize (f.sightings name)).parameters p.name path c := by
  obtain ⟨hne, hnodup, path, hparameter, hexact⟩ := hb.exists_path_of_condition hk hp hc
  have hbranch : ∀ v ∈ c.values, f.Branch ⟨name, ""⟩ none p.name path v := by
    intro v hv
    obtain ⟨way, s, hs, hleaf, hcond⟩ := (hexact v).1 hv
    obtain ⟨path', v', hcond', -, hbranch⟩ := hb.exists_branch_of_condition hk hp hc hs hleaf
    obtain ⟨hpath, hvalues⟩ := ShowCondition.mk.inj (Option.some.inj (hcond.symm.trans hcond'))
    obtain rfl := childPath_left_injective hpath
    obtain rfl := List.singleton_inj.1 hvalues
    exact hbranch
  -- a branch sights the discriminator, so it is among the parameters
  obtain ⟨v, hv⟩ := List.exists_mem_of_ne_nil _ hne
  obtain ⟨d, hd, hname⟩ : ∃ d ∈ (summarize (f.sightings name)).parameters,
      d.name = childPath path discriminatorName := by
    cases hbranch v hv with
    | off seen =>
      obtain ⟨d, hd, hname⟩ := hb.exists_parameter_of_sights hk seen
      exact ⟨d, hd, hname⟩
  refine ⟨path, hne, hnodup, hparameter, ?_, hexact, fun u hu => ?_, hbranch⟩
  · exact ⟨d, hd, hname.trans hparameter.symm, fun enum henum u hu =>
      hb.mem_enum_of_branch hk hd hname (hbranch u hu) henum⟩
  · cases hbranch u hu with
    | off seen below => exact exists_class_of_mem_concrete below

end Condition

/-- **Conditions are closed and have grounds.** A known class is flattened, whatever the bound,
and whenever one of its parameters has a condition, the condition has its grounds: it names the
discriminator of a path, which is among the parameters and offers its values, and these are
variants whose lines lead from there to the parameter. Under any parameter that the class is
flattened from, conditions still name parameters. -/
theorem conditions_grounded :
    ∃ e, f.expand name = .ok e ∧
      (∀ p ∈ e.parameters, ∀ c, p.condition = some c →
        ∃ path, f.Grounded name e.parameters p.name path c) ∧
      ∀ root, FlatParameter.ConditionsClosed (e.parameters.map (·.qualified root)) := by
  refine ⟨_, hb.expand_eq hk, fun p hp c hc => hb.grounded_of_mem_parameters hk hp hc, ?_⟩
  refine FlatParameter.ConditionsClosed.qualified fun p hp c hc => ?_
  obtain ⟨path, hgrounded⟩ := hb.grounded_of_mem_parameters hk hp hc
  obtain ⟨d, hd, hname, -⟩ := hgrounded.offered
  exact ⟨d, hd, hname⟩

end Built

theorem conditions_grounded_petWalk :
    petWalk.Built ∧ petWalk.hierarchy.isKnown "Person" = true ∧
      ∃ e, petWalk.expand "Person" = .ok e ∧
        (∀ p ∈ e.parameters, ∀ c, p.condition = some c →
          ∃ path, petWalk.Grounded "Person" e.parameters p.name path c) ∧
        ∀ root, FlatParameter.ConditionsClosed (e.parameters.map (·.qualified root)) :=
  ⟨built_petWalk, by decide, built_petWalk.conditions_grounded (by decide)⟩

end Flattening

end SwaggerForge
