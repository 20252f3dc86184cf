import Mathlib.Logic.Relation
import SwaggerForge.Proofs.Walk

/-!
# Places, leaves and ways

What a walk reaches, told without the walk. A **place** is a class at a bracket
path. At a place that is entered – its class is not the root, and the depth
bound allows it – the properties of its members can be set: of the class, the
classes above it, and the concrete classes below with all that is above those.
A property that refers to a class leads on to the next place (`Hop`), every other
one is a leaf, and so is the discriminator where concrete classes are below.

One leaf can be met in several **ways**. A way is told by the positions at which
the stops that it makes stand in the agendas of the places on it, so that the
order of ways, position by position, is the order in which a depth-first walk
meets their ends (`MetBefore`).
-/

namespace SwaggerForge.Flattening

/-- **A class at a bracket path.** -/
structure Place where
  name : String
  path : String

variable (f : Flattening)

/-- Whether a place is entered: its class is not the root, and it is not too
deep. -/
def Enters (place : Place) : Prop :=
  place.name ≠ f.definitions.root ∧ bracketDepth place.path < f.maxDepth

/-- **The members of a class**, whose properties show where the class stands. -/
inductive Member (name : String) : String → Prop
  | self : Member name name
  | above {a : String} (above : a ∈ f.hierarchy.ancestors name) : Member name a
  | variant {v : String} (below : v ∈ f.hierarchy.concreteDescendants name) : Member name v
  | aboveVariant {v a : String} (below : v ∈ f.hierarchy.concreteDescendants name)
      (above : a ∈ f.hierarchy.ancestors v) : Member name a

/-- A property that a class is defined with and that is not read-only. -/
def Settable (member : String) (p : DefinedProperty) : Prop :=
  ∃ d, f.definitions.get? member = some d ∧ p ∈ d.properties ∧ p.readOnly = false

/-- **One place leads to the next** along a property that refers to a class. -/
inductive Hop : Place → Place → Prop
  | along {place : Place} {member target : String} {p : DefinedProperty}
      (enters : f.Enters place) (shows : f.Member place.name member)
      (settable : f.Settable member p) (shape : p.shape = .reference target) :
      Hop place ⟨target, childPath place.path p.name⟩

/-- **A leaf of a place**: a property that does not refer to a class, or the
discriminator. -/
inductive LeafAt (place : Place) : String → Prop
  | value {member : String} {p : DefinedProperty}
      (enters : f.Enters place) (shows : f.Member place.name member)
      (settable : f.Settable member p) (plain : p.discriminator = false)
      (shape : ∀ target, p.shape ≠ .reference target) :
      LeafAt place (childPath place.path p.name)
  | discriminator (enters : f.Enters place)
      (below : f.hierarchy.concreteDescendants place.name ≠ []) :
      LeafAt place (childPath place.path discriminatorName)

/-- **The places reached from a class**, which itself stands at the empty path. -/
def Reached (name : String) (place : Place) : Prop :=
  Relation.ReflTransGen f.Hop ⟨name, ""⟩ place

/-- **The leaves of a class** are those of the places reached from it. -/
def Leaf (name leaf : String) : Prop := ∃ place, f.Reached name place ∧ f.LeafAt place leaf

/-- **A way to a leaf**, told by the positions of the stops on it. -/
inductive Way : Place → List Nat → String → Prop
  | value {place : Place} {i : Nat} {p : DefinedProperty} (enters : f.Enters place)
      (stop : (f.agenda place.name)[i]? = some (.input p))
      (shape : ∀ target, p.shape ≠ .reference target) :
      Way place [i] (childPath place.path p.name)
  | discriminator {place : Place} {i : Nat} (enters : f.Enters place)
      (stop : (f.agenda place.name)[i]? = some .discriminator) :
      Way place [i] (childPath place.path discriminatorName)
  | hop {place : Place} {i : Nat} {p : DefinedProperty} {target : String} {way : List Nat}
      {leaf : String} (enters : f.Enters place)
      (stop : (f.agenda place.name)[i]? = some (.input p)) (shape : p.shape = .reference target)
      (rest : Way ⟨target, childPath place.path p.name⟩ way leaf) :
      Way place (i :: way) leaf

/-- **What a depth-first walk meets before something else**: one way to it comes
before every way to the other. -/
def MetBefore (name a b : String) : Prop :=
  ∃ way, f.Way ⟨name, ""⟩ way a ∧ ∀ other, f.Way ⟨name, ""⟩ other b → way < other

/-! ## What is on an agenda -/

variable {f} {name : String}

theorem mem_inputsOf {p : DefinedProperty} :
    p ∈ f.inputsOf name ↔ f.Settable name p ∧ p.discriminator = false := by
  unfold inputsOf Settable
  cases hd : f.definitions.get? name with
  | none => exact ⟨fun h => (nomatch h), fun ⟨⟨_, h, _⟩, _⟩ => nomatch h⟩
  | some d =>
    have hfree : ((!p.discriminator && !p.readOnly) = true) ↔
        p.readOnly = false ∧ p.discriminator = false := by
      rw [Bool.and_eq_true, Bool.not_eq_true', Bool.not_eq_true', and_comm]
    show p ∈ d.properties.filter _ ↔ _
    rw [List.mem_filter, hfree]
    constructor
    · rintro ⟨hp, hro, hdisc⟩
      exact ⟨⟨d, rfl, hp, hro⟩, hdisc⟩
    · rintro ⟨⟨e, he, hp, hro⟩, hdisc⟩
      obtain rfl := Option.some.inj he
      exact ⟨hp, hro, hdisc⟩

theorem mem_lineageInputs {p : DefinedProperty} :
    p ∈ f.lineageInputs name ↔
      ∃ member, (member ∈ f.hierarchy.ancestors name ∨ member = name) ∧ p ∈ f.inputsOf member := by
  unfold lineageInputs
  rw [List.mem_flatMap]
  refine exists_congr fun member => and_congr_left fun _ => ?_
  rw [List.mem_append, List.mem_singleton]

theorem mem_agenda {stop : Stop} :
    stop ∈ f.agenda name ↔
      (∃ p ∈ f.lineageInputs name, stop = .input p) ∨
      (f.hierarchy.concreteDescendants name ≠ [] ∧ stop = .discriminator) ∨
      ∃ v ∈ f.hierarchy.concreteDescendants name, ∃ p ∈ f.lineageInputs v, stop = .input p := by
  rw [← f.map_fst_stops name "" none, List.mem_map]
  constructor
  · rintro ⟨s, hs, rfl⟩
    rcases f.mem_stops.1 hs with ⟨p, hp, rfl⟩ | ⟨hne, rfl⟩ | ⟨v, hv, p, hp, rfl⟩
    · exact Or.inl ⟨p, hp, rfl⟩
    · exact Or.inr (Or.inl ⟨hne, rfl⟩)
    · exact Or.inr (Or.inr ⟨v, hv, p, hp, rfl⟩)
  · rintro (⟨p, hp, rfl⟩ | ⟨hne, rfl⟩ | ⟨v, hv, p, hp, rfl⟩)
    · exact ⟨_, f.mem_stops.2 (Or.inl ⟨p, hp, rfl⟩), rfl⟩
    · exact ⟨_, f.mem_stops.2 (Or.inr (Or.inl ⟨hne, rfl⟩)), rfl⟩
    · exact ⟨_, f.mem_stops.2 (Or.inr (Or.inr ⟨v, hv, p, hp, rfl⟩)), rfl⟩

/-- **The inputs on an agenda** are those of the members. -/
theorem input_mem_agenda {p : DefinedProperty} :
    Stop.input p ∈ f.agenda name ↔ ∃ member, f.Member name member ∧ p ∈ f.inputsOf member := by
  rw [mem_agenda]
  constructor
  · rintro (⟨q, hq, he⟩ | ⟨-, he⟩ | ⟨v, hv, q, hq, he⟩)
    · obtain rfl := Stop.input.inj he
      obtain ⟨member, ha | rfl, hp⟩ := mem_lineageInputs.1 hq
      · exact ⟨member, .above ha, hp⟩
      · exact ⟨member, .self, hp⟩
    · cases he
    · obtain rfl := Stop.input.inj he
      obtain ⟨member, ha | rfl, hp⟩ := mem_lineageInputs.1 hq
      · exact ⟨member, .aboveVariant hv ha, hp⟩
      · exact ⟨member, .variant hv, hp⟩
  · rintro ⟨member, shows, hp⟩
    cases shows with
    | self => exact Or.inl ⟨p, mem_lineageInputs.2 ⟨_, Or.inr rfl, hp⟩, rfl⟩
    | above ha => exact Or.inl ⟨p, mem_lineageInputs.2 ⟨_, Or.inl ha, hp⟩, rfl⟩
    | variant hv =>
      exact Or.inr (Or.inr ⟨_, hv, p, mem_lineageInputs.2 ⟨_, Or.inr rfl, hp⟩, rfl⟩)
    | aboveVariant hv ha =>
      exact Or.inr (Or.inr ⟨_, hv, p, mem_lineageInputs.2 ⟨_, Or.inl ha, hp⟩, rfl⟩)

/-- The discriminator is on the agenda where concrete classes are below. -/
theorem discriminator_mem_agenda :
    Stop.discriminator ∈ f.agenda name ↔ f.hierarchy.concreteDescendants name ≠ [] := by
  rw [mem_agenda]
  constructor
  · rintro (⟨_, -, he⟩ | ⟨hne, -⟩ | ⟨_, -, _, -, he⟩)
    · cases he
    · exact hne
    · cases he
  · exact fun hne => Or.inr (Or.inl ⟨hne, rfl⟩)

namespace Built

variable (hb : f.Built)
include hb

/-- **A declared property that is not read-only can be set** under its own name, and it
leads on to a class exactly when its type is one. -/
theorem exists_settable {c : ClassDecl} (hc : c ∈ f.hierarchy.classes) {p : Property}
    (hp : p ∈ c.properties) (hro : p.readOnly = false) :
    ∃ q, f.Settable c.name q ∧ q.name = p.name ∧ q.discriminator = false ∧
      ∀ target, q.shape = .reference target ↔
        f.hierarchy.isReference p.type = true ∧ target = p.type := by
  obtain ⟨d, hd⟩ := Declarations.exists_definition hb (List.mem_map.2 ⟨c, hc, rfl⟩)
  obtain ⟨c', hc', hname, hdef⟩ := (Declarations.get?_eq_some_iff hb).1 hd
  -- names are distinct, so the definition is that of the class itself
  obtain rfl : c' = c := List.inj_on_of_nodup_map f.hierarchy.names_nodup hc' hc hname
  obtain ⟨r, hr, hmem⟩ := Declarations.exists_mem_properties _ hdef hp
  refine ⟨_, ⟨d, hd, hmem, ?_⟩, ?_, ?_, fun target => ?_⟩
  · rw [Declarations.readOnly_withOrderBy, hr.readOnly_eq, hro]
  · rw [Declarations.name_withOrderBy, hr.name_eq]
  · rw [Declarations.discriminator_withOrderBy, hr.discriminator_eq]
  · rw [Declarations.shape_withOrderBy_eq_reference]
    exact hr.shape_eq_reference

/-! ## Ways and leaves -/

/-- A property that refers to a class is not a discriminator. -/
theorem mem_inputsOf_of_reference {p : DefinedProperty} (hp : f.Settable name p) {target : String}
    (ht : p.shape = .reference target) : p ∈ f.inputsOf name := by
  obtain ⟨d, hd, hmem, -⟩ := id hp
  obtain ⟨c, -, -, hdef⟩ := (Declarations.get?_eq_some_iff hb).1 hd
  exact mem_inputsOf.2 ⟨hp, Declarations.discriminator_of_target? hdef hmem (by rw [ht]; rfl)⟩

/-- **A hop goes along an input on the agenda.** -/
theorem hop_iff {place next : Place} :
    f.Hop place next ↔ f.Enters place ∧ ∃ p target, Stop.input p ∈ f.agenda place.name ∧
      p.shape = .reference target ∧ next = ⟨target, childPath place.path p.name⟩ := by
  constructor
  · intro h
    cases h with
    | along enters shows settable shape =>
      have hp := hb.mem_inputsOf_of_reference settable shape
      exact ⟨enters, _, _, input_mem_agenda.2 ⟨_, shows, hp⟩, shape, rfl⟩
  · rintro ⟨enters, p, target, hp, shape, rfl⟩
    obtain ⟨member, shows, hp⟩ := input_mem_agenda.1 hp
    exact .along enters shows (mem_inputsOf.1 hp).1 shape

omit hb in
/-- **A leaf stands on the agenda**, as an input or as the discriminator. -/
theorem leafAt_iff {place : Place} {leaf : String} :
    f.LeafAt place leaf ↔ f.Enters place ∧
      ((∃ p, Stop.input p ∈ f.agenda place.name ∧ (∀ target, p.shape ≠ .reference target) ∧
          leaf = childPath place.path p.name) ∨
        Stop.discriminator ∈ f.agenda place.name ∧
          leaf = childPath place.path discriminatorName) := by
  constructor
  · intro h
    cases h with
    | value enters shows settable plain shape =>
      exact ⟨enters, Or.inl ⟨_, input_mem_agenda.2 ⟨_, shows, mem_inputsOf.2 ⟨settable, plain⟩⟩,
        shape, rfl⟩⟩
    | discriminator enters below =>
      exact ⟨enters, Or.inr ⟨discriminator_mem_agenda.2 below, rfl⟩⟩
  · rintro ⟨enters, ⟨p, hp, shape, rfl⟩ | ⟨hdisc, rfl⟩⟩
    · obtain ⟨member, shows, hp⟩ := input_mem_agenda.1 hp
      exact .value enters shows (mem_inputsOf.1 hp).1 (mem_inputsOf.1 hp).2 shape
    · exact .discriminator enters (discriminator_mem_agenda.1 hdisc)

/-- **Ways end in leaves**, and every leaf of a place that is reached is the end of
a way. -/
theorem exists_way_iff {start : Place} {leaf : String} :
    (∃ way, f.Way start way leaf) ↔
      ∃ place, Relation.ReflTransGen f.Hop start place ∧ f.LeafAt place leaf := by
  constructor
  · rintro ⟨way, hway⟩
    induction hway with
    | value enters stop shape =>
      exact ⟨_, .refl, leafAt_iff.2
        ⟨enters, Or.inl ⟨_, List.mem_of_getElem? stop, shape, rfl⟩⟩⟩
    | discriminator enters stop =>
      exact ⟨_, .refl, leafAt_iff.2 ⟨enters, Or.inr ⟨List.mem_of_getElem? stop, rfl⟩⟩⟩
    | hop enters stop shape rest ih =>
      obtain ⟨place, hreach, hleaf⟩ := ih
      exact ⟨place, .head
        (hb.hop_iff.2 ⟨enters, _, _, List.mem_of_getElem? stop, shape, rfl⟩) hreach, hleaf⟩
  · rintro ⟨place, hreach, hleaf⟩
    -- a leaf of the start is one stop away, and each hop before it adds one more
    induction hreach using Relation.ReflTransGen.head_induction_on with
    | refl =>
      obtain ⟨enters, ⟨p, hp, shape, rfl⟩ | ⟨hdisc, rfl⟩⟩ := leafAt_iff.1 hleaf
      · obtain ⟨i, hi⟩ := List.getElem?_of_mem hp
        exact ⟨[i], .value enters hi shape⟩
      · obtain ⟨i, hi⟩ := List.getElem?_of_mem hdisc
        exact ⟨[i], .discriminator enters hi⟩
    | head hhop _ ih =>
      obtain ⟨way, hway⟩ := ih
      obtain ⟨enters, p, target, hp, shape, rfl⟩ := hb.hop_iff.1 hhop
      obtain ⟨i, hi⟩ := List.getElem?_of_mem hp
      exact ⟨i :: way, .hop enters hi shape hway⟩

end Built

end SwaggerForge.Flattening
