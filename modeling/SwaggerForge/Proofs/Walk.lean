import SwaggerForge.Flat.Expansion
import SwaggerForge.Proofs.Definitions
import SwaggerForge.Proofs.Merging

/-!
# The walk over defined classes

A visit is defined by three kinds of visits that call each other. Over classes
that are all defined it can be told without them: what there is to see at a
place that holds a class is a list of **stops**, each under its condition – the
inputs of the classes above and of the class itself under the condition of the
place, then the discriminator, and then the inputs of every variant under the
condition that the discriminator names it. The visit is what is seen at these
stops, one after the other (`Flattening.visit_full`).

No class that such a walk enters is undefined, so flattening succeeds for every
known class (`Flattening.Built.expand_eq`).
-/

namespace SwaggerForge.Flattening

variable (f : Flattening)

/-- **A walk over classes that are all defined**: its definitions are those of
its declarations. -/
def Built : Prop := f.declarations.defineAll.result = .ok f.definitions

/-- The hierarchy of the classes. -/
abbrev hierarchy : Hierarchy := f.declarations.hierarchy

/-! ## Stops -/

/-- What there is to see at a place. -/
inductive Stop where
  /-- A property that a caller can set. -/
  | input (p : DefinedProperty)
  /-- The parameter that tells variants apart. -/
  | discriminator
deriving DecidableEq, Repr

/-- The inputs that a class brings along itself. -/
def inputsOf (name : String) : List DefinedProperty :=
  match f.definitions.get? name with
  | none => []
  | some d => d.inputs

variable {f} in
theorem inputsOf_of_get? {name : String} {d : Definition} (hd : f.definitions.get? name = some d) :
    f.inputsOf name = d.inputs := by
  unfold inputsOf
  rw [hd]

/-- The inputs of the classes above a class, topmost first, and then its own. -/
def lineageInputs (name : String) : List DefinedProperty :=
  (f.hierarchy.ancestors name ++ [name]).flatMap f.inputsOf

/-- **What there is to see at a place that holds a class**, in order: the inputs
of its line, and if concrete classes are below it the discriminator and the
inputs of the line of each. -/
def agenda (name : String) : List Stop :=
  (f.lineageInputs name).map .input ++
    match f.hierarchy.concreteDescendants name with
    | [] => []
    | below => .discriminator :: (below.flatMap f.lineageInputs).map .input

/-- The stops of a place, each with the condition under which it matters. -/
def stops (name path : String) (condition : Option ShowCondition) :
    List (Stop × Option ShowCondition) :=
  (f.lineageInputs name).map (fun p => (.input p, condition)) ++
    match f.hierarchy.concreteDescendants name with
    | [] => []
    | below => (.discriminator, condition) :: below.flatMap fun variant =>
        (f.lineageInputs variant).map fun p => (.input p, some (variantCondition path variant))

/-- Without their conditions the stops are the agenda. -/
theorem map_fst_stops (name path : String) (condition : Option ShowCondition) :
    (f.stops name path condition).map Prod.fst = f.agenda name := by
  unfold stops agenda
  rw [List.map_append, List.map_map]
  refine congrArg (List.map _ _ ++ ·) ?_
  split
  · rfl
  · rw [List.map_cons, List.map_flatMap, List.map_flatMap]
    refine congrArg (_ :: ·) (List.flatMap_congr fun variant _ => ?_)
    rw [List.map_map]
    rfl

theorem mem_agenda_of_mem_stops {name path : String} {condition : Option ShowCondition}
    {s : Stop × Option ShowCondition} (hs : s ∈ f.stops name path condition) :
    s.1 ∈ f.agenda name := by
  rw [← f.map_fst_stops name path condition]
  exact List.mem_map_of_mem hs

/-- **Where the stops come from**: the line of the class, the discriminator, and
the lines of the concrete classes below. -/
theorem mem_stops {name path : String} {condition : Option ShowCondition}
    {s : Stop × Option ShowCondition} :
    s ∈ f.stops name path condition ↔
      (∃ p ∈ f.lineageInputs name, s = (.input p, condition)) ∨
      (f.hierarchy.concreteDescendants name ≠ [] ∧ s = (.discriminator, condition)) ∨
      ∃ v ∈ f.hierarchy.concreteDescendants name, ∃ p ∈ f.lineageInputs v,
        s = (.input p, some (variantCondition path v)) := by
  have hline (ps : List DefinedProperty) (c : Option ShowCondition) :
      s ∈ ps.map (fun p => (Stop.input p, c)) ↔ ∃ p ∈ ps, s = (.input p, c) := by
    rw [List.mem_map]
    exact exists_congr fun p => and_congr_right fun _ => eq_comm
  unfold stops
  rw [List.mem_append, hline]
  refine or_congr_right ?_
  cases h : f.hierarchy.concreteDescendants name with
  | nil =>
    exact ⟨fun hs => (nomatch hs), fun hs => hs.elim (absurd rfl ·.1) fun ⟨_, hv, _⟩ => nomatch hv⟩
  | cons v rest =>
    show s ∈ _ :: (v :: rest).flatMap _ ↔ _
    rw [List.mem_cons, List.mem_flatMap]
    refine or_congr (and_iff_right (List.cons_ne_nil v rest)).symm ?_
    exact exists_congr fun u => and_congr_right fun _ => hline _ _

theorem shape_of_input {orderBy : Option EnumValues} {path : String}
    {condition : Option ShowCondition} {p : DefinedProperty} {target : String}
    (h : f.input orderBy path condition p = .object target) : p.shape = .reference target := by
  unfold input at h
  cases hshape : p.shape with
  | reference t =>
    rw [hshape] at h
    rw [FlatInput.object.inj h]
  | referenceArray t =>
    rw [hshape] at h
    cases h
  | value type items default enum =>
    rw [hshape] at h
    cases h

/-- **The values of an input** are those of its property, or those to sort by. -/
theorem enum_of_input {orderBy : Option EnumValues} {path : String}
    {condition : Option ShowCondition} {p : DefinedProperty} {leaf : FlatParameter}
    (h : f.input orderBy path condition p = .value leaf) {e : EnumValues}
    (he : leaf.enum = some e) :
    (∃ type items default, p.shape = .value type items default (some e)) ∨ orderBy = some e := by
  unfold input at h
  cases hshape : p.shape with
  | reference target =>
    rw [hshape] at h
    cases h
  | referenceArray target =>
    rw [hshape] at h
    obtain rfl := FlatInput.value.inj h
    cases he
  | value type items default enum =>
    rw [hshape] at h
    obtain rfl := FlatInput.value.inj h
    cases enum with
    | some own =>
      obtain rfl : own = e := Option.some.inj he
      exact Or.inl ⟨type, items, default, rfl⟩
    | none =>
      change (if p.name = orderByName then orderBy else none) = some e at he
      split at he
      · exact Or.inr he
      · cases he

/-- What is seen of an input of a place. -/
def seeInput (orderBy : Option EnumValues) (path : String) (condition : Option ShowCondition)
    (p : DefinedProperty) : List Sighting :=
  match f.input orderBy path condition p with
  | .value leaf => [.parameter leaf]
  | .object target => f.visit orderBy .full target (childPath path p.name) condition

/-- **What is seen of an input** goes by the shape of its property: the visit of the
class that it refers to, or else one parameter. -/
theorem seeInput_cases (orderBy : Option EnumValues) (path : String)
    (condition : Option ShowCondition) (p : DefinedProperty) :
    (∃ target, p.shape = .reference target ∧ f.seeInput orderBy path condition p
        = f.visit orderBy .full target (childPath path p.name) condition) ∨
      (∀ target, p.shape ≠ .reference target) ∧ ∃ leaf,
        f.seeInput orderBy path condition p = [.parameter leaf] ∧
          leaf.name = childPath path p.name ∧ leaf.condition = condition := by
  unfold seeInput input
  cases p.shape with
  | reference target => exact Or.inl ⟨target, rfl, rfl⟩
  | referenceArray target => exact Or.inr ⟨fun _ h => (nomatch h), _, rfl, rfl, rfl⟩
  | value type items default enum => exact Or.inr ⟨fun _ h => (nomatch h), _, rfl, rfl, rfl⟩

theorem seeInput_of_reference {orderBy : Option EnumValues} {path : String}
    {condition : Option ShowCondition} {p : DefinedProperty} {target : String}
    (h : p.shape = .reference target) : f.seeInput orderBy path condition p
      = f.visit orderBy .full target (childPath path p.name) condition := by
  rcases f.seeInput_cases orderBy path condition p with ⟨t, ht, hsee⟩ | ⟨hnone, -⟩
  · obtain rfl := Shape.reference.inj (h.symm.trans ht)
    exact hsee
  · exact absurd h (hnone target)

/-- The variants that a definition lists. -/
def variantsOf (name : String) : List String :=
  match f.definitions.get? name with
  | none => []
  | some d => d.variants

/-- **What is seen at a stop** of a place that holds a class. -/
def see (orderBy : Option EnumValues) (name path : String) :
    Stop × Option ShowCondition → List Sighting
  | (.input p, condition) => f.seeInput orderBy path condition p
  | (.discriminator, condition) => [.parameter (discriminatorAt path condition (f.variantsOf name))]

/-! ## Visits -/

section Visits

variable {f} {orderBy : Option EnumValues} {name path : String} {condition : Option ShowCondition}

/-- A place that is too deep is cut off, whatever it holds. -/
theorem visit_of_deep (hdeep : f.maxDepth ≤ bracketDepth path) (reach : Reach) :
    f.visit orderBy reach name path condition = [.cut path] := by
  rw [visit, dif_pos hdeep]

/-- At the root there is nothing. -/
theorem visit_root (hdepth : bracketDepth path < f.maxDepth) (reach : Reach) :
    f.visit orderBy reach f.definitions.root path condition = [] := by
  rw [visit, dif_neg (Nat.not_le.2 hdepth), if_pos rfl]

/-- A class without a definition is met as such. -/
theorem visit_of_get?_eq_none (hdepth : bracketDepth path < f.maxDepth)
    (hne : name ≠ f.definitions.root) (hd : f.definitions.get? name = none) (reach : Reach) :
    f.visit orderBy reach name path condition = [.undefined name] := by
  rw [visit, dif_neg (Nat.not_le.2 hdepth), if_neg hne, hd]

/-- **The visit of a defined class**: the classes above it, its inputs and its
variants, as far as they belong to the visit. -/
theorem visit_of_get? (hdepth : bracketDepth path < f.maxDepth) (hne : name ≠ f.definitions.root)
    {d : Definition} (hd : f.definitions.get? name = some d) (reach : Reach) :
    f.visit orderBy reach name path condition
      = (if reach ≠ .own then
          (f.hierarchy.ancestors name).flatMap fun ancestor =>
            f.visit orderBy .own ancestor path condition
        else [])
        ++ d.inputs.flatMap (f.seeInput orderBy path condition)
        ++ (if reach = .full ∧ d.isPolymorphic then
          .parameter (discriminatorAt path condition d.variants)
            :: (f.hierarchy.concreteDescendants name).flatMap fun variant =>
              f.visit orderBy .lineage variant path (some (variantCondition path variant))
        else []) := by
  rw [visit, dif_neg (Nat.not_le.2 hdepth), if_neg hne, hd]
  rfl

end Visits

/-! ## Over defined classes -/

namespace Built

variable {f} (hb : f.Built)
include hb

theorem root_eq : f.definitions.root = f.hierarchy.root := Declarations.root_eq hb

theorem ne_root {name : String} (hn : name ∈ f.hierarchy.names) : name ≠ f.definitions.root := by
  rw [hb.root_eq]
  exact f.hierarchy.ne_root_of_mem_names hn

variable {orderBy : Option EnumValues} {name path : String} {condition : Option ShowCondition}

theorem visit_own (hdepth : bracketDepth path < f.maxDepth) (hn : name ∈ f.hierarchy.names) :
    f.visit orderBy .own name path condition
      = (f.inputsOf name).flatMap (f.seeInput orderBy path condition) := by
  obtain ⟨d, hd⟩ := Declarations.exists_definition hb hn
  rw [visit_of_get? hdepth (hb.ne_root hn) hd, if_neg (fun h => h rfl),
    if_neg (fun h => Reach.noConfusion h.1), List.nil_append, List.append_nil,
    inputsOf_of_get? hd]

/-- **A visit of a line** sees its inputs from the top down. -/
theorem visit_lineage (hdepth : bracketDepth path < f.maxDepth) (hn : name ∈ f.hierarchy.names) :
    f.visit orderBy .lineage name path condition
      = (f.lineageInputs name).flatMap (f.seeInput orderBy path condition) := by
  obtain ⟨d, hd⟩ := Declarations.exists_definition hb hn
  have habove : (f.hierarchy.ancestors name).flatMap
        (fun ancestor => f.visit orderBy .own ancestor path condition)
      = ((f.hierarchy.ancestors name).flatMap f.inputsOf).flatMap
        (f.seeInput orderBy path condition) := by
    rw [List.flatMap_assoc]
    exact List.flatMap_congr fun ancestor ha =>
      hb.visit_own hdepth (f.hierarchy.mem_names_of_mem_ancestors ha)
  rw [visit_of_get? hdepth (hb.ne_root hn) hd, if_pos (show Reach.lineage ≠ Reach.own by decide),
    if_neg (fun h => Reach.noConfusion h.1), List.append_nil, habove,
    ← inputsOf_of_get? hd, ← List.flatMap_append]
  refine congrArg (List.flatMap _) ?_
  unfold lineageInputs
  rw [List.flatMap_append, List.flatMap_singleton]

/-- A full visit goes on from the visit of the line to the variants. -/
theorem visit_full_eq_append (hdepth : bracketDepth path < f.maxDepth)
    (hn : name ∈ f.hierarchy.names) {d : Definition} (hd : f.definitions.get? name = some d) :
    f.visit orderBy .full name path condition
      = f.visit orderBy .lineage name path condition
        ++ (if d.isPolymorphic then
          .parameter (discriminatorAt path condition d.variants)
            :: (f.hierarchy.concreteDescendants name).flatMap fun variant =>
              f.visit orderBy .lineage variant path (some (variantCondition path variant))
        else []) := by
  have hpart : ¬ (Reach.lineage = Reach.full ∧ d.isPolymorphic = true) :=
    fun h => Reach.noConfusion h.1
  have habove : Reach.full ≠ Reach.own ∧ Reach.lineage ≠ Reach.own := by decide
  have hne := hb.ne_root hn
  rw [visit_of_get? hdepth hne hd .full, visit_of_get? hdepth hne hd .lineage,
    if_pos habove.1, if_pos habove.2, if_neg hpart, List.append_nil]
  simp only [true_and]

/-- **A visit sees what there is at its stops**, one after the other. -/
theorem visit_full (hdepth : bracketDepth path < f.maxDepth) (hn : name ∈ f.hierarchy.names) :
    f.visit orderBy .full name path condition
      = (f.stops name path condition).flatMap (f.see orderBy name path) := by
  obtain ⟨d, hd⟩ := Declarations.exists_definition hb hn
  have hline (member : String) (c : Option ShowCondition) :
      (f.lineageInputs member).flatMap (f.seeInput orderBy path c)
        = ((f.lineageInputs member).map fun p => (Stop.input p, c)).flatMap
          (f.see orderBy name path) := by
    rw [List.flatMap_map]
    rfl
  rw [hb.visit_full_eq_append hdepth hn hd, hb.visit_lineage hdepth hn, hline]
  unfold stops
  rw [List.flatMap_append]
  refine congrArg (_ ++ ·) ?_
  -- the definition is polymorphic exactly where concrete classes are below
  cases hbelow : f.hierarchy.concreteDescendants name with
  | nil =>
    have hmono : ¬ d.isPolymorphic = true := fun h =>
      (Declarations.isPolymorphic_iff hb hd).1 h hbelow
    rw [if_neg hmono]
    rfl
  | cons v rest =>
    have hpoly : d.isPolymorphic = true :=
      (Declarations.isPolymorphic_iff hb hd).2 fun h => nomatch hbelow.symm.trans h
    have hvariants : f.variantsOf name = d.variants := by
      unfold variantsOf
      rw [hd]
    rw [if_pos hpoly]
    show _ = Sighting.parameter (discriminatorAt path condition (f.variantsOf name))
      :: ((v :: rest).flatMap _).flatMap (f.see orderBy name path)
    rw [hvariants, List.flatMap_assoc]
    refine congrArg (_ :: ·) (List.flatMap_congr fun variant hv => ?_)
    rw [← hbelow] at hv
    rw [hb.visit_lineage hdepth (f.hierarchy.mem_names_of_mem_concrete hv), hline]

/-! ## Nothing is undefined -/

/-- **An input** is a property that the definition of a class has. -/
theorem exists_define_of_mem_inputsOf {p : DefinedProperty} (hp : p ∈ f.inputsOf name) :
    ∃ c ∈ f.hierarchy.classes, ∃ d, (f.declarations.define c).result = .ok d ∧
      p ∈ d.properties := by
  unfold inputsOf at hp
  split at hp
  · cases hp
  · next d hd =>
    obtain ⟨c, hc, -, hdef⟩ := (Declarations.get?_eq_some_iff hb).1 hd
    exact ⟨c, hc, d, hdef, (List.mem_filter.1 hp).1⟩

/-- What an input refers to is known. -/
theorem isKnown_of_mem_inputsOf {p : DefinedProperty} (hp : p ∈ f.inputsOf name) {target : String}
    (ht : p.shape = .reference target) : f.hierarchy.isKnown target = true := by
  obtain ⟨c, -, d, hdef, hmem⟩ := hb.exists_define_of_mem_inputsOf hp
  exact Declarations.isKnown_target hdef hmem (by rw [ht]; rfl)

/-- **What a walk from a known class meets** are cuts, the values among the inputs of
the classes that it enters, and the discriminators of classes. -/
theorem forall_mem_visit {met : Sighting → Prop} (cut : ∀ path, met (.cut path))
    (value : ∀ member, ∀ p ∈ f.inputsOf member, ∀ path condition leaf,
      f.input orderBy path condition p = .value leaf → met (.parameter leaf))
    (discriminator : ∀ path condition c,
      met (.parameter (discriminatorAt path condition (f.declarations.variants c))))
    {reach : Reach} (hk : f.hierarchy.isKnown name = true) :
    ∀ s ∈ f.visit orderBy reach name path condition, met s := by
  -- the recursion of the visit: its depth, the root, and the three parts of a class
  induction reach, name, path, condition using visit.induct f with
  | case1 reach name path condition hdeep =>
    rw [visit_of_deep hdeep, List.forall_mem_singleton]
    exact cut path
  | case2 reach path condition hdeep =>
    rw [visit_root (Nat.not_le.1 hdeep)]
    exact fun _ hs => nomatch hs
  | case3 reach name path condition hdeep hne hnone =>
    rcases f.hierarchy.isKnown_iff.1 hk with hroot | hn
    · exact absurd (hroot.trans hb.root_eq.symm) hne
    · obtain ⟨d, hd⟩ := Declarations.exists_definition hb hn
      exact nomatch hnone.symm.trans hd
  | case4 reach name path condition hdeep hne d hd above inputs below =>
    rw [visit_of_get? (Nat.not_le.1 hdeep) hne hd, List.forall_mem_append, List.forall_mem_append]
    refine ⟨⟨?_, fun s hs => ?_⟩, ?_⟩
    · split
      · next hreach =>
        intro s hs
        obtain ⟨ancestor, ha, hs⟩ := List.mem_flatMap.1 hs
        exact above hreach ancestor
          (f.hierarchy.isKnown_of_mem_names (f.hierarchy.mem_names_of_mem_ancestors ha)) s hs
      · exact fun _ hs => nomatch hs
    · obtain ⟨p, hp, hs⟩ := List.mem_flatMap.1 hs
      rw [← inputsOf_of_get? hd] at hp
      unfold seeInput at hs
      split at hs
      · next leaf hleaf =>
        rw [List.mem_singleton.1 hs]
        exact value name p hp path condition leaf hleaf
      · next target htarget =>
        exact inputs p target (hb.isKnown_of_mem_inputsOf hp (f.shape_of_input htarget)) s hs
    · split
      · next hall =>
        obtain ⟨c, -, -, hdef⟩ := (Declarations.get?_eq_some_iff hb).1 hd
        rw [List.forall_mem_cons, f.declarations.variants_eq hdef]
        refine ⟨discriminator path condition c, fun s hs => ?_⟩
        obtain ⟨variant, hv, hs⟩ := List.mem_flatMap.1 hs
        exact below hall variant
          (f.hierarchy.isKnown_of_mem_names (f.hierarchy.mem_names_of_mem_concrete hv)) s hs
      · exact fun _ hs => nomatch hs

/-- **A walk from a known class meets no class without a definition.** -/
theorem undefined?_eq_none {reach : Reach} (hk : f.hierarchy.isKnown name = true) :
    ∀ s ∈ f.visit orderBy reach name path condition, s.undefined? = none :=
  hb.forall_mem_visit (fun _ => rfl) (fun _ _ _ _ _ _ _ => rfl) (fun _ _ _ => rfl) hk

/-- **Flattening a known class succeeds** with the summary of its walk. -/
theorem expand_eq (hk : f.hierarchy.isKnown name = true) :
    f.expand name = .ok (summarize (f.sightings name)) := by
  have hnone : (f.sightings name).findSome? Sighting.undefined? = none :=
    List.findSome?_eq_none_iff.2 (hb.undefined?_eq_none hk)
  unfold expand
  rw [hnone]

/-- **What the parameters of an expansion are like**: what all values among inputs and all
discriminators have, and merging keeps, all of them have. -/
theorem forall_mem_parameters {P : FlatParameter → Prop}
    (keep : ∀ p q, P p → P q → P (p.merge q))
    (value : ∀ member, ∀ p ∈ f.inputsOf member, ∀ path condition leaf,
      f.input (f.declarations.orderBy? name) path condition p = .value leaf → P leaf)
    (discriminator : ∀ path condition c,
      P (discriminatorAt path condition (f.declarations.variants c)))
    (hk : f.hierarchy.isKnown name = true) {e : Expansion} (he : f.expand name = .ok e) :
    ∀ p ∈ e.parameters, P p := by
  have hmet : ∀ s ∈ f.sightings name, ∀ p, s.parameter? = some p → P p := by
    refine hb.forall_mem_visit (fun _ _ hp => nomatch hp) ?_ ?_ hk
    · intro member p hp path condition leaf hin q hq
      rw [← Option.some.inj hq]
      exact value member p hp path condition leaf hin
    · intro path condition c q hq
      rw [← Option.some.inj hq]
      exact discriminator path condition c
  obtain rfl : summarize (f.sightings name) = e :=
    Except.ok.inj ((hb.expand_eq hk).symm.trans he)
  refine FlatParameter.forall_mem_mergeAll keep fun p hp => ?_
  obtain ⟨s, hs, hsp⟩ := List.mem_filterMap.1 hp
  exact hmet s hs p hsp

/-- **The values of the parameters of an expansion** are sets that the declarations supply, and
unions of such sets. -/
theorem forall_mem_enums {P : EnumValues → Prop} (union : ∀ a b, P a → P b → P (a.union b))
    (supplied : ∀ e, f.declarations.Supplies e → P e) (hk : f.hierarchy.isKnown name = true)
    {e : Expansion} (he : f.expand name = .ok e) :
    ∀ p ∈ e.parameters, ∀ values, p.enum = some values → P values := by
  refine hb.forall_mem_parameters (P := fun p => ∀ values, p.enum = some values → P values)
    ?_ ?_ ?_ hk he
  · intro p q hp hq values hvalues
    unfold FlatParameter.merge at hvalues
    dsimp only at hvalues
    split at hvalues
    · next a b ha hb =>
      rw [← Option.some.inj hvalues]
      exact union a b (hp a ha) (hq b hb)
    · exact hp values hvalues
  · intro member p hp path condition leaf hin values hvalues
    obtain ⟨c, -, d, hdef, hmem⟩ := hb.exists_define_of_mem_inputsOf hp
    rcases f.enum_of_input hin hvalues with ⟨type, items, default, hshape⟩ | horder
    · exact supplied values ((Declarations.supplies_of_mem_properties hdef hmem hshape).2 _ rfl)
    · exact supplied values (Declarations.supplies_of_orderBy? horder)
  · intro path condition c values hvalues
    rw [← Option.some.inj hvalues]
    exact supplied _ (.variants c)

end Built

/-! ## An example

A pet is known by what it can do, its owner by a name and a pet: two classes that
lead to each other, so that only the bound ends the walk. -/

/-- The classes of the example. -/
def pets : Hierarchy where
  root := "Object"
  classes := [
    { name := "Animal", base := some "Object", abstract := true,
      properties := [{ name := "owner", type := "Person" }] },
    { name := "Dog", base := some "Animal", properties := [{ name := "trick", type := "string" }] },
    { name := "Person", base := some "Object",
      properties := [{ name := "name", type := "string" }, { name := "pet", type := "Animal" }] }]
  names_nodup := by decide
  root_not_mem := by decide
  base_mem := by decide

/-- The walk over the example. -/
def petWalk : Flattening where
  declarations := ⟨pets, ⟨∅⟩⟩
  definitions := {
    root := "Object"
    definitions := Table.ofList [
      ("Animal", {
        name := "Animal"
        base := some "Object"
        abstract := true
        description := some "`abstract`"
        properties := [
          { name := "objectType", shape := .value .string none none (some (.ofVariants ["Dog"])),
            discriminator := true },
          { name := "owner", shape := .reference "Person" }]
        variants := ["Dog"] }),
      ("Dog", {
        name := "Dog"
        base := some "Animal"
        abstract := false
        description := none
        properties := [{ name := "trick", shape := .value .string none none none }]
        variants := [] }),
      ("Person", {
        name := "Person"
        base := some "Object"
        abstract := false
        description := none
        properties := [
          { name := "name", shape := .value .string none none none },
          { name := "pet", shape := .reference "Animal" }]
        variants := [] })] }
  maxDepth := 2

theorem built_petWalk : petWalk.Built := by
  have hbelow : pets.descendants "Animal" = ["Dog"] ∧ pets.descendants "Dog" = []
      ∧ pets.descendants "Person" = [] := by
    refine ⟨?_, ?_, ?_⟩ <;> cbv
  obtain ⟨hanimal, hdog, hperson⟩ := hbelow
  have hclasses : pets.classes = [
      { name := "Animal", base := some "Object", abstract := true,
        properties := [{ name := "owner", type := "Person" }] },
      { name := "Dog", base := some "Animal",
        properties := [{ name := "trick", type := "string" }] },
      { name := "Person", base := some "Object",
        properties := [
          { name := "name", type := "string" }, { name := "pet", type := "Animal" }] }] := rfl
  show (Declarations.mk pets ⟨∅⟩).defineAll.result = .ok petWalk.definitions
  unfold Declarations.defineAll Declarations.define Declarations.variants
    Hierarchy.concreteDescendants
  rw [hclasses]
  -- what is below a class is found by a search, the rest is computed
  simp only [List.mapM_cons, List.mapM_nil, hanimal, hdog, hperson]
  decide +kernel

end SwaggerForge.Flattening
