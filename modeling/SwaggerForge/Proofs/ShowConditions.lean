import SwaggerForge.Proofs.Merging
import SwaggerForge.Proofs.Places

/-!
# Show conditions hide nothing that matters

A caller who fills in a class decides at each place which class the object there
is really of: the discriminator of the place says so. From the place the caller
goes on along a property of that class or of one above it, and in the end gives a
value. Such a **journey** agrees with the values of the discriminators.

The parameter at its end is there and is to be shown
(`Flattening.Built.exists_shown`). The invariant of the walk is that the condition
under which it visits a place is met: it is replaced only on the way to a variant,
and then by the condition that the discriminator names the variant, which on a
journey is met as well. Merging with what is met on other ways only makes the
condition weaker.
-/

namespace SwaggerForge.Flattening

variable (f : Flattening) (values : String → Option String)

/-- **The class in effect** where a class stands: the class itself if no concrete
class is below it, and otherwise the one that the discriminator names, which is the
class itself, unless it is abstract, or a concrete one below. -/
inductive InEffect (place : Place) : String → Prop
  | only (alone : f.hierarchy.concreteDescendants place.name = []) : InEffect place place.name
  | itself (below : f.hierarchy.concreteDescendants place.name ≠ [])
      (named : values (childPath place.path discriminatorName) = some place.name)
      (concrete : f.hierarchy.isConcrete place.name = true) : InEffect place place.name
  | variant {v : String} (below : v ∈ f.hierarchy.concreteDescendants place.name)
      (named : values (childPath place.path discriminatorName) = some v) : InEffect place v

/-- **A journey that agrees with the values** from a place to a parameter: at each
place along a property of the class in effect or of a class above it. Every declared
property that is not read-only can be taken (`Built.exists_settable`), and `tells` asks
nothing of it: it is about the discriminator alone, which can be given only where it
tells classes apart (`Built.journey_last`, `Built.journey_hop`). -/
inductive Journey : Place → String → Prop
  | last {place : Place} {v member : String} {p : DefinedProperty}
      (depth : bracketDepth place.path < f.maxDepth) (effect : f.InEffect values place v)
      (line : member = v ∨ member ∈ f.hierarchy.ancestors v)
      (settable : f.Settable member p) (shape : ∀ target, p.shape ≠ .reference target)
      (tells : p.discriminator = true → f.hierarchy.concreteDescendants place.name ≠ []) :
      Journey place (childPath place.path p.name)
  | hop {place : Place} {v member : String} {p : DefinedProperty} {target leaf : String}
      (depth : bracketDepth place.path < f.maxDepth) (effect : f.InEffect values place v)
      (line : member = v ∨ member ∈ f.hierarchy.ancestors v)
      (settable : f.Settable member p) (shape : p.shape = .reference target)
      (rest : Journey ⟨target, childPath place.path p.name⟩ leaf) : Journey place leaf

variable {f values}

/-! ## Stops on a journey -/

/-- **The inputs of the class in effect** are among the stops of the place, and where
the condition of the place is met, so is theirs. -/
theorem exists_met_stop {place : Place} {condition : Option ShowCondition}
    (hc : ShowCondition.Met values condition) {v member : String} {p : DefinedProperty}
    (effect : f.InEffect values place v) (line : member = v ∨ member ∈ f.hierarchy.ancestors v)
    (hp : p ∈ f.inputsOf member) :
    ∃ c, (Stop.input p, c) ∈ f.stops place.name place.path condition ∧
      ShowCondition.Met values c := by
  have hline : p ∈ f.lineageInputs v := mem_lineageInputs.2 ⟨member, line.symm, hp⟩
  cases effect with
  | only alone => exact ⟨condition, f.mem_stops.2 (Or.inl ⟨p, hline, rfl⟩), hc⟩
  | itself below named concrete =>
    exact ⟨condition, f.mem_stops.2 (Or.inl ⟨p, hline, rfl⟩), hc⟩
  | variant below named =>
    refine ⟨some (variantCondition place.path v), ?_, ?_⟩
    · exact f.mem_stops.2 (Or.inr (Or.inr ⟨v, below, p, hline, rfl⟩))
    · exact ShowCondition.met_some.2 ⟨v, List.mem_singleton.2 rfl, named⟩

namespace Built

variable (hb : f.Built)
include hb

section Declared

variable {place : Place} {v leaf : String} {c : ClassDecl} {p : Property}
  (depth : bracketDepth place.path < f.maxDepth) (effect : f.InEffect values place v)
  (line : c.name = v ∨ c.name ∈ f.hierarchy.ancestors v) (hc : c ∈ f.hierarchy.classes)
  (hp : p ∈ c.properties) (hro : p.readOnly = false)
include depth effect line hc hp hro

/-- **A journey may end at any declared property** that is not read-only and not of a class. -/
theorem journey_last (value : f.hierarchy.isReference p.type = false) :
    f.Journey values place (childPath place.path p.name) := by
  obtain ⟨q, settable, hname, plain, hshape⟩ := hb.exists_settable hc hp hro
  rw [← hname]
  refine .last depth effect line settable (fun target shape => ?_) fun hdisc => ?_
  · exact absurd ((hshape target).1 shape).1 (Bool.eq_false_iff.1 value)
  · exact absurd hdisc (Bool.eq_false_iff.1 plain)

/-- **It goes on along any** that is of a class. -/
theorem journey_hop (refers : f.hierarchy.isReference p.type = true)
    (rest : f.Journey values ⟨p.type, childPath place.path p.name⟩ leaf) :
    f.Journey values place leaf := by
  obtain ⟨q, settable, hname, -, hshape⟩ := hb.exists_settable hc hp hro
  rw [← hname] at rest
  exact .hop depth effect line settable ((hshape p.type).2 ⟨refers, rfl⟩) rest

end Declared

/-- A discriminator bears the name of all discriminators. -/
theorem name_of_discriminator {member : String} {p : DefinedProperty}
    (hp : f.Settable member p) (hdisc : p.discriminator = true) : p.name = discriminatorName := by
  obtain ⟨d, hd, hmem, -⟩ := hp
  obtain ⟨c, -, -, hdef⟩ := (Declarations.get?_eq_some_iff hb).1 hd
  exact Declarations.name_of_mem_discriminator
    (Declarations.mem_discriminator_of_eq_true hdef hmem hdisc)

/-- A place that a journey goes on from holds a class: the root has no properties. -/
theorem mem_names_of_inEffect {place : Place} {v member : String} {p : DefinedProperty}
    (hk : f.hierarchy.isKnown place.name = true) (effect : f.InEffect values place v)
    (line : member = v ∨ member ∈ f.hierarchy.ancestors v) (settable : f.Settable member p) :
    place.name ∈ f.hierarchy.names := by
  rcases f.hierarchy.isKnown_iff.1 hk with hroot | hn
  · have hv : v = f.hierarchy.root := by
      cases effect with
      | only => exact hroot
      | itself => exact hroot
      | variant below =>
        rw [hroot, f.hierarchy.concreteDescendants_root] at below
        cases below
    rw [hv, f.hierarchy.ancestors_root, or_iff_left List.not_mem_nil] at line
    obtain ⟨d, hd, -⟩ := settable
    exact absurd (line ▸ Declarations.mem_names_of_get? hb hd) f.hierarchy.root_not_mem
  · exact hn

/-- **The walk comes by** where a journey leads, under a condition that is met. -/
theorem exists_met_sighting (orderBy : Option EnumValues) {place : Place} {leaf : String}
    (journey : f.Journey values place leaf) (hk : f.hierarchy.isKnown place.name = true)
    {condition : Option ShowCondition} (hc : ShowCondition.Met values condition) :
    ∃ q, Sighting.parameter q ∈ f.visit orderBy .full place.name place.path condition ∧
      q.name = leaf ∧ ShowCondition.Met values q.condition := by
  -- towards a variant the condition is replaced, so it varies along the journey
  induction journey generalizing condition with
  | @last place v member p depth effect line settable shape tells =>
    have hn := hb.mem_names_of_inEffect hk effect line settable
    rw [hb.visit_full depth hn]
    cases hdisc : p.discriminator with
    | true =>
      rw [hb.name_of_discriminator settable hdisc]
      refine ⟨discriminatorAt place.path condition (f.variantsOf place.name),
        List.mem_flatMap.2 ⟨(.discriminator, condition), ?_, List.mem_singleton.2 rfl⟩, rfl, hc⟩
      exact f.mem_stops.2 (Or.inr (Or.inl ⟨tells hdisc, rfl⟩))
    | false =>
      obtain ⟨c, hs, hmet⟩ := exists_met_stop hc effect line (mem_inputsOf.2 ⟨settable, hdisc⟩)
      rcases f.seeInput_cases orderBy place.path c p with
        ⟨target, ht, -⟩ | ⟨-, q, hsee, hname, hcond⟩
      · exact absurd ht (shape target)
      · refine ⟨q, List.mem_flatMap.2 ⟨_, hs, ?_⟩, hname, hcond ▸ hmet⟩
        show Sighting.parameter q ∈ f.seeInput orderBy place.path c p
        rw [hsee]
        exact List.mem_singleton.2 rfl
  | @hop place v member p target leaf depth effect line settable shape rest ih =>
    have hn := hb.mem_names_of_inEffect hk effect line settable
    have hp := hb.mem_inputsOf_of_reference settable shape
    obtain ⟨c, hs, hmet⟩ := exists_met_stop hc effect line hp
    obtain ⟨q, hq, hq'⟩ := ih (hb.isKnown_of_mem_inputsOf hp shape) hmet
    refine ⟨q, ?_, hq'⟩
    rw [hb.visit_full depth hn]
    refine List.mem_flatMap.2 ⟨_, hs, ?_⟩
    show Sighting.parameter q ∈ f.seeInput orderBy place.path c p
    rw [f.seeInput_of_reference shape]
    exact hq

/-- **A show condition never hides a parameter that matters.** Whatever values the
discriminators have, the parameter at the end of a journey that agrees with them is
among those of the class, and it is to be shown: either always, or because the
parameter that it depends on has one of the values for it. -/
theorem exists_shown {name leaf : String} (hk : f.hierarchy.isKnown name = true)
    (journey : f.Journey values ⟨name, ""⟩ leaf) :
    ∃ e, f.expand name = .ok e ∧ leaf ∈ e.parameters.map (·.name) ∧
      ∀ p ∈ e.parameters, p.name = leaf → p.condition = none ∨
        ∃ c, p.condition = some c ∧ ∃ v ∈ c.values, values c.parameter = some v := by
  obtain ⟨q, hq, rfl, hmet⟩ :=
    hb.exists_met_sighting (f.declarations.orderBy? name) journey hk ShowCondition.met_none
  have hq' : q ∈ (f.sightings name).filterMap Sighting.parameter? :=
    List.mem_filterMap.2 ⟨_, hq, rfl⟩
  obtain ⟨r, hr, hname, hmet⟩ := FlatParameter.exists_met_mergeAll hq' hmet
  refine ⟨_, hb.expand_eq hk, List.mem_map.2 ⟨r, hr, hname⟩, fun p hp hpn => ?_⟩
  -- names are distinct, so this is the only parameter of the name
  obtain rfl : p = r :=
    List.inj_on_of_nodup_map (FlatParameter.nodup_names_mergeAll _) hp hr (hpn.trans hname.symm)
  cases hc : p.condition with
  | none => exact Or.inl rfl
  | some c => exact Or.inr ⟨c, rfl, hmet c hc⟩

end Built

/-- The values for a person with a dog. -/
def dogOwner (name : String) : Option String :=
  if name = "[pet][objectType]" then some "Dog" else none

theorem exists_shown_petWalk :
    petWalk.Built ∧ petWalk.hierarchy.isKnown "Person" = true ∧
      petWalk.Journey dogOwner ⟨"Person", ""⟩ "[pet][trick]" ∧
      ∃ e, petWalk.expand "Person" = .ok e ∧ "[pet][trick]" ∈ e.parameters.map (·.name) ∧
        ∀ p ∈ e.parameters, p.name = "[pet][trick]" → p.condition = none ∨
          ∃ c, p.condition = some c ∧ ∃ v ∈ c.values, dogOwner c.parameter = some v := by
  have hperson : petWalk.hierarchy.concreteDescendants "Person" = [] := by
    show pets.concreteDescendants "Person" = []
    cbv
  have hanimal : petWalk.hierarchy.concreteDescendants "Animal" = ["Dog"] := by
    show pets.concreteDescendants "Animal" = ["Dog"]
    cbv
  have hdog : "Dog" ∈ petWalk.hierarchy.concreteDescendants "Animal" := by
    rw [hanimal]
    exact List.mem_singleton.2 rfl
  have trick : petWalk.Journey dogOwner ⟨"Animal", "[pet]"⟩ "[pet][trick]" :=
    built_petWalk.journey_last (c := pets.classes[1]) (p := { name := "trick", type := "string" })
      (by decide) (.variant hdog (by decide)) (Or.inl rfl) (by decide) (by decide) rfl (by decide)
  have journey : petWalk.Journey dogOwner ⟨"Person", ""⟩ "[pet][trick]" :=
    built_petWalk.journey_hop (c := pets.classes[2]) (p := { name := "pet", type := "Animal" })
      (by decide) (.only hperson) (Or.inl rfl) (by decide) (by decide) rfl (by decide) trick
  exact ⟨built_petWalk, by decide, journey, built_petWalk.exists_shown (by decide) journey⟩

end SwaggerForge.Flattening
