import SwaggerForge.Proofs.Flattening

/-!
# The depth bound only cuts

Two walks from one class that differ in their bounds do the same until the shallower one is
cut off. What the deeper one meets beyond a cut is deeper than the bound, but it stands between
sightings that both have, and it is merged into the same list of descriptors. That it disturbs
nothing there has two reasons: every name beyond a cut is deeper than the bound
(`Flattening.deeper_of_mem_visit`), and descriptors are merged by name, so that those of other
names may be left out before or after (`FlatParameter.mergeAll_filter`).

So the parameters under the lower bound are those under the higher one that are not too deep,
and where nothing is cut off the bound makes no difference at all
(`Flattening.Built.expand_boundedBy`). The depth of a name is the number of its segments only
if the names of properties have no brackets of their own.
-/

namespace SwaggerForge

/-! ## Merging some names only -/

namespace FlatParameter

section Filter

variable {keep : FlatParameter → Bool} (hkeep : ∀ p q, p.name = q.name → keep p = keep q)
include hkeep

theorem absorb_filter {p : FlatParameter} (hp : keep p = true) (qs : List FlatParameter) :
    p.absorb (qs.filter keep) = (p.absorb qs).filter keep := by
  induction qs with
  | nil =>
    show [p] = [p].filter keep
    rw [List.filter_cons_of_pos hp]
    rfl
  | cons q rest ih =>
    by_cases hname : q.name = p.name
    · have hq : keep q = true := (hkeep q p hname).trans hp
      have hmerged : keep (q.merge p) = true := (hkeep (q.merge p) q rfl).trans hq
      rw [List.filter_cons_of_pos hq, absorb, absorb, if_pos hname, if_pos hname,
        List.filter_cons_of_pos hmerged]
    · rw [absorb, if_neg hname]
      by_cases hq : keep q = true
      · rw [List.filter_cons_of_pos hq, List.filter_cons_of_pos hq, absorb, if_neg hname, ih]
      · rw [List.filter_cons_of_neg hq, List.filter_cons_of_neg hq, ih]

theorem filter_absorb {p : FlatParameter} (hp : ¬ keep p = true) (qs : List FlatParameter) :
    (p.absorb qs).filter keep = qs.filter keep := by
  induction qs with
  | nil => exact List.filter_cons_of_neg hp
  | cons q rest ih =>
    by_cases hname : q.name = p.name
    · have hq : ¬ keep q = true := fun hq => hp ((hkeep q p hname).symm.trans hq)
      have hmerged : ¬ keep (q.merge p) = true := fun hm =>
        hq ((hkeep (q.merge p) q rfl).symm.trans hm)
      rw [absorb, if_pos hname, List.filter_cons_of_neg hq, List.filter_cons_of_neg hmerged]
    · rw [absorb, if_neg hname, List.filter_cons, List.filter_cons, ih]

/-- **Names may be left out before or after merging.** -/
theorem mergeAll_filter (ps : List FlatParameter) :
    mergeAll (ps.filter keep) = (mergeAll ps).filter keep := by
  unfold mergeAll
  induction ps using List.reverseRecOn with
  | nil => rfl
  | append_singleton ps p ih =>
    rw [List.filter_append, List.foldl_append, List.foldl_append, ih]
    show _ = (p.absorb _).filter keep
    by_cases hp : keep p = true
    · rw [List.filter_cons_of_pos hp, ← absorb_filter hkeep hp]
      rfl
    · rw [List.filter_cons_of_neg hp, filter_absorb hkeep hp]
      rfl

end Filter

end FlatParameter

namespace Flattening

variable {f : Flattening} {orderBy : Option EnumValues}

/-- The name of a value is one step further on. -/
theorem name_of_input {path : String} {condition : Option ShowCondition} {p : DefinedProperty}
    {leaf : FlatParameter} (h : f.input orderBy path condition p = .value leaf) :
    leaf.name = childPath path p.name := by
  unfold input at h
  cases hshape : p.shape with
  | reference target =>
    rw [hshape] at h
    cases h
  | referenceArray target =>
    rw [hshape] at h
    rw [← FlatInput.value.inj h]
  | value type items default enum =>
    rw [hshape] at h
    rw [← FlatInput.value.inj h]

theorem mem_filterMap_parameter? {sightings : List Sighting} {p : FlatParameter} :
    p ∈ sightings.filterMap Sighting.parameter? ↔ .parameter p ∈ sightings := by
  rw [List.mem_filterMap]
  constructor
  · rintro ⟨s, hs, hsp⟩
    cases s with
    | parameter q =>
      obtain rfl := Option.some.inj hsp
      exact hs
    | cut _ => cases hsp
    | undefined _ => cases hsp
  · exact fun hp => ⟨_, hp, rfl⟩

/-- **What a visit meets is deeper** than its place. -/
theorem deeper_of_mem_visit {reach : Reach} {name path : String}
    {condition : Option ShowCondition} :
    ∀ p, .parameter p ∈ f.visit orderBy reach name path condition →
      bracketDepth path < bracketDepth p.name := by
  induction reach, name, path, condition using visit.induct f with
  | case1 reach name path condition hdeep =>
    intro p hp
    rw [visit_of_deep hdeep] at hp
    cases List.mem_singleton.1 hp
  | case2 reach path condition hdeep =>
    intro p hp
    rw [visit_root (Nat.not_le.1 hdeep)] at hp
    cases hp
  | case3 reach name path condition hdeep hne hnone =>
    intro p hp
    rw [visit_of_get?_eq_none (Nat.not_le.1 hdeep) hne hnone] at hp
    cases List.mem_singleton.1 hp
  | case4 reach name path condition hdeep hne d hd above inputs below =>
    intro p hp
    rw [visit_of_get? (Nat.not_le.1 hdeep) hne hd, List.mem_append, List.mem_append] at hp
    rcases hp with (hp | hp) | hp
    · split at hp
      · next hreach =>
        obtain ⟨ancestor, -, hp⟩ := List.mem_flatMap.1 hp
        exact above hreach ancestor p hp
      · cases hp
    · obtain ⟨q, -, hp⟩ := List.mem_flatMap.1 hp
      unfold seeInput at hp
      split at hp
      · next leaf hleaf =>
        cases List.mem_singleton.1 hp
        rw [name_of_input hleaf]
        exact bracketDepth_lt_childPath path q.name
      · next target htarget =>
        exact Nat.lt_trans (bracketDepth_lt_childPath path q.name) (inputs q target p hp)
    · split at hp
      · next hall =>
        rcases List.mem_cons.1 hp with hp | hp
        · cases hp
          exact bracketDepth_lt_childPath path discriminatorName
        · obtain ⟨variant, -, hp⟩ := List.mem_flatMap.1 hp
          exact below hall variant p hp
      · cases hp

/-! ## Two bounds -/

/-- The same walk under another bound. -/
def boundedBy (f : Flattening) (depth : Nat) : Flattening := { f with maxDepth := depth }

/-- **What a lower bound leaves** of what is sighted under a higher one: the parameters that
are not too deep, and everything where nothing is cut off. -/
structure Curbed (depth : Nat) (short long : List Sighting) : Prop where
  parameters : short.filterMap Sighting.parameter?
    = (long.filterMap Sighting.parameter?).filter fun p => bracketDepth p.name ≤ depth
  eq_of_uncut : (∀ s ∈ short, s.cut? = none) → short = long

namespace Curbed

variable {depth : Nat}

theorem refl_of_not_parameter {sightings : List Sighting}
    (h : ∀ s ∈ sightings, s.parameter? = none) : Curbed depth sightings sightings := by
  refine ⟨?_, fun _ => rfl⟩
  rw [List.filterMap_eq_nil_iff.2 h]
  rfl

theorem nil : Curbed depth [] [] := refl_of_not_parameter fun _ hs => nomatch hs

/-- A parameter that is not too deep is met under both bounds. -/
theorem parameter {p : FlatParameter} (hp : bracketDepth p.name ≤ depth) :
    Curbed depth [.parameter p] [.parameter p] := by
  refine ⟨?_, fun _ => rfl⟩
  have hkept : decide (bracketDepth p.name ≤ depth) = true := decide_eq_true hp
  show [p] = [p].filter fun p => decide (bracketDepth p.name ≤ depth)
  rw [List.filter_singleton, hkept]
  rfl

theorem append {short long short' long' : List Sighting} (h : Curbed depth short long)
    (h' : Curbed depth short' long') : Curbed depth (short ++ short') (long ++ long') := by
  refine ⟨?_, fun huncut => ?_⟩
  · rw [List.filterMap_append, List.filterMap_append, List.filter_append, h.parameters,
      h'.parameters]
  · obtain ⟨hcut, hcut'⟩ := List.forall_mem_append.1 huncut
    rw [h.eq_of_uncut hcut, h'.eq_of_uncut hcut']

theorem flatMap {α : Type} {xs : List α} {short long : α → List Sighting}
    (h : ∀ x ∈ xs, Curbed depth (short x) (long x)) :
    Curbed depth (xs.flatMap short) (xs.flatMap long) := by
  induction xs with
  | nil => exact nil
  | cons x rest ih =>
    obtain ⟨hx, hrest⟩ := List.forall_mem_cons.1 h
    rw [List.flatMap_cons, List.flatMap_cons]
    exact hx.append (ih hrest)

variable {short long : List Sighting} (h : Curbed depth short long)
include h

/-- **Merging keeps it so**: all sightings of one name are equally deep. -/
theorem parameters_summarize : (summarize short).parameters
    = (summarize long).parameters.filter fun p => bracketDepth p.name ≤ depth := by
  show FlatParameter.mergeAll _ = (FlatParameter.mergeAll _).filter _
  rw [h.parameters]
  refine FlatParameter.mergeAll_filter (fun p q hname => ?_) _
  rw [hname]

theorem summarize_eq (huncut : (summarize short).truncated = []) :
    summarize short = summarize long := by
  refine congrArg summarize (h.eq_of_uncut fun s hs => ?_)
  cases s with
  | cut path =>
    have hmem := Built.mem_truncated_summarize.2 hs
    rw [huncut] at hmem
    cases hmem
  | parameter _ => rfl
  | undefined _ => rfl

end Curbed

/-- No name of an input has a bracket. -/
def UnbracketedInputs (f : Flattening) : Prop :=
  ∀ name, ∀ p ∈ f.inputsOf name, bracketDepth p.name = 0

/-- Where the lower bound cuts a place off, all that is met beyond is deeper than it. -/
theorem curbed_of_deep {depth depth' : Nat} {reach : Reach} {name path : String}
    {condition : Option ShowCondition} (hcut : depth ≤ bracketDepth path) :
    Curbed depth ((f.boundedBy depth).visit orderBy reach name path condition)
      ((f.boundedBy depth').visit orderBy reach name path condition) := by
  rw [visit_of_deep (f := f.boundedBy depth) hcut]
  refine ⟨Eq.symm (List.filter_eq_nil_iff.2 fun p hp => ?_), fun huncut => ?_⟩
  · have hlt := deeper_of_mem_visit p (mem_filterMap_parameter?.1 hp)
    rw [decide_eq_true_iff]
    omega
  · exact nomatch huncut _ (List.mem_singleton.2 rfl)

/-- And so it is for what is seen of an input, if it is for the visits of classes. -/
theorem curbed_seeInput {depth depth' : Nat} {path : String} {condition : Option ShowCondition}
    {p : DefinedProperty} (hname : bracketDepth p.name = 0) (hdepth : bracketDepth path < depth)
    (ih : ∀ target, Curbed depth
      ((f.boundedBy depth).visit orderBy .full target (childPath path p.name) condition)
      ((f.boundedBy depth').visit orderBy .full target (childPath path p.name) condition)) :
    Curbed depth ((f.boundedBy depth).seeInput orderBy path condition p)
      ((f.boundedBy depth').seeInput orderBy path condition p) := by
  have hshort : (f.boundedBy depth).input orderBy path condition p
      = f.input orderBy path condition p := rfl
  have hlong : (f.boundedBy depth').input orderBy path condition p
      = f.input orderBy path condition p := rfl
  unfold seeInput
  rw [hshort, hlong]
  cases hinput : f.input orderBy path condition p with
  | object target => exact ih target
  | value leaf =>
    refine .parameter ?_
    rw [name_of_input hinput, bracketDepth_childPath]
    omega

/-- **A visit under a lower bound** leaves out what is too deep, and nothing else. -/
theorem curbed_visit (hnames : f.UnbracketedInputs) {depth depth' : Nat} (hle : depth ≤ depth')
    {reach : Reach} {name path : String} {condition : Option ShowCondition} :
    Curbed depth ((f.boundedBy depth).visit orderBy reach name path condition)
      ((f.boundedBy depth').visit orderBy reach name path condition) := by
  -- the recursion of the longer visit; the shorter one follows it until it is cut off
  induction reach, name, path, condition using visit.induct (f.boundedBy depth') with
  | case1 reach name path condition hdeep => exact curbed_of_deep (Nat.le_trans hle hdeep)
  | case2 reach path condition hdeep =>
    rcases Nat.lt_or_ge (bracketDepth path) depth with hdepth | hcut
    · rw [visit_root (Nat.not_le.1 hdeep)]
      exact (visit_root (f := f.boundedBy depth) hdepth reach).symm ▸ .nil
    · exact curbed_of_deep hcut
  | case3 reach name path condition hdeep hne hnone =>
    rcases Nat.lt_or_ge (bracketDepth path) depth with hdepth | hcut
    · rw [visit_of_get?_eq_none (Nat.not_le.1 hdeep) hne hnone,
        visit_of_get?_eq_none (f := f.boundedBy depth) hdepth hne hnone]
      exact .refl_of_not_parameter (List.forall_mem_singleton.2 rfl)
    · exact curbed_of_deep hcut
  | case4 reach name path condition hdeep hne d hd above inputs below =>
    rcases Nat.lt_or_ge (bracketDepth path) depth with hdepth | hcut
    · rw [visit_of_get? (Nat.not_le.1 hdeep) hne hd,
        visit_of_get? (f := f.boundedBy depth) hdepth hne hd]
      refine (Curbed.append ?_ ?_).append ?_
      · split
        · next hreach => exact Curbed.flatMap fun ancestor _ => above hreach ancestor
        · exact .nil
      · refine Curbed.flatMap fun p hp => ?_
        rw [← inputsOf_of_get? hd] at hp
        exact curbed_seeInput (hnames name p hp) hdepth (inputs p)
      · split
        · next hall =>
          refine (Curbed.parameter ?_).append (Curbed.flatMap fun variant _ => below hall variant)
          have hplain : bracketDepth discriminatorName = 0 := by decide
          show bracketDepth (childPath path discriminatorName) ≤ depth
          rw [bracketDepth_childPath]
          omega
        · exact .nil
    · exact curbed_of_deep hcut

namespace Built

variable (hb : f.Built)
include hb

/-- The names of inputs are those that classes declare, and one of the compiler's own. -/
theorem unbracketedInputs (hnames : ∀ c ∈ f.hierarchy.classes, ∀ p ∈ c.properties,
    '[' ∉ p.name.toList) : f.UnbracketedInputs := by
  intro name p hp
  obtain ⟨c, hc, d, hdef, hmem⟩ := hb.exists_define_of_mem_inputsOf hp
  rcases f.declarations.mem_properties hdef hmem with hdisc | horder | ⟨q, hq, r, hr, rfl⟩
  · rw [Declarations.name_of_mem_discriminator hdisc]
    decide
  · rw [Declarations.name_of_mem_addedOrderBy horder]
    decide
  · rw [Declarations.name_withOrderBy, hr.name_eq]
    exact List.count_eq_zero.2 (hnames c hc q hq)

/-- **The depth bound only cuts.** Under a bound the names of the parameters have between one
segment and as many as the bound; they are those parameters under a higher bound that have no
more, in the same order and with all that is said of them; and where nothing is cut off, the
higher bound makes no difference. -/
theorem expand_boundedBy (hnames : ∀ c ∈ f.hierarchy.classes, ∀ p ∈ c.properties,
      '[' ∉ p.name.toList) {name : String} (hk : f.hierarchy.isKnown name = true)
    {depth depth' : Nat} (hle : depth ≤ depth') :
    ∃ e e', (f.boundedBy depth).expand name = .ok e ∧ (f.boundedBy depth').expand name = .ok e' ∧
      (∀ p ∈ e.parameters, 1 ≤ bracketDepth p.name ∧ bracketDepth p.name ≤ depth) ∧
      e.parameters = e'.parameters.filter (fun p => bracketDepth p.name ≤ depth) ∧
      (e.truncated = [] → e = e') := by
  have hcurbed (bound : Nat) (hbound : depth ≤ bound) :
      Curbed depth ((f.boundedBy depth).sightings name) ((f.boundedBy bound).sightings name) :=
    curbed_visit (hb.unbracketedInputs hnames) hbound
  refine ⟨_, _, Built.expand_eq (f := f.boundedBy depth) hb hk,
    Built.expand_eq (f := f.boundedBy depth') hb hk, fun p hp => ⟨?_, ?_⟩,
    (hcurbed depth' hle).parameters_summarize, (hcurbed depth' hle).summarize_eq⟩
  · refine FlatParameter.forall_mem_mergeAll (P := fun p => 1 ≤ bracketDepth p.name)
      (fun p _ hp _ => hp) (fun q hq => ?_) p hp
    have hdeeper := deeper_of_mem_visit q (mem_filterMap_parameter?.1 hq)
    rwa [bracketDepth_empty] at hdeeper
  · -- the parameters are among themselves those that are not too deep
    rw [(hcurbed depth (Nat.le_refl depth)).parameters_summarize] at hp
    exact of_decide_eq_true (List.mem_filter.1 hp).2

end Built

theorem expand_boundedBy_petWalk :
    petWalk.Built ∧
      (∀ c ∈ petWalk.hierarchy.classes, ∀ p ∈ c.properties, '[' ∉ p.name.toList) ∧
      petWalk.hierarchy.isKnown "Person" = true ∧
      ∃ e e', (petWalk.boundedBy 1).expand "Person" = .ok e ∧
        (petWalk.boundedBy 2).expand "Person" = .ok e' ∧
        (∀ p ∈ e.parameters, 1 ≤ bracketDepth p.name ∧ bracketDepth p.name ≤ 1) ∧
        e.parameters = e'.parameters.filter (fun p => bracketDepth p.name ≤ 1) ∧
        (e.truncated = [] → e = e') := by
  have hnames : ∀ c ∈ petWalk.hierarchy.classes, ∀ p ∈ c.properties, '[' ∉ p.name.toList := by
    decide
  exact ⟨built_petWalk, hnames, by decide,
    built_petWalk.expand_boundedBy hnames (by decide) (by decide)⟩

end Flattening

end SwaggerForge
