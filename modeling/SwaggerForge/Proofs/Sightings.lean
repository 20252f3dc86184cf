import SwaggerForge.Proofs.Places

/-!
# What a walk sights, way by way

Ways tell where a walk gets to, but not under which condition it gets there: the condition
is that of the last variant that the way turned off to. So a **sighting** is a stop of a
place under its condition, and `Flattening.Sights` says which way leads to which sighting.
What the walk then meets is determined by the sighting alone (`Flattening.descriptor`).

The walk does not say by which way it came to what it meets. So the induction, from places
too deep towards shallower ones, shows that the ways can be written beside it: there is a
**journal**, a list of all ways in order, each with its sighting, and what the walk meets are
the descriptors of these sightings, one after the other
(`Flattening.Built.exists_journal`). So the journal also tells what each parameter of a class
is merged from (`Flattening.Built.exists_sighted`).
-/

namespace SwaggerForge.Flattening

variable {f : Flattening}

/-! ## Towards shallower places -/

/-- **What holds of a place if it holds one step further on** holds of every place:
steps from a place that is not too deep come closer to the bound. -/
theorem place_induction {motive : Place → Prop}
    (step : ∀ place, (bracketDepth place.path < f.maxDepth →
      ∀ target segment, motive ⟨target, childPath place.path segment⟩) → motive place)
    (place : Place) : motive place := by
  induction hn : f.maxDepth - bracketDepth place.path using Nat.strongRecOn
    generalizing place with
  | _ n ih =>
    refine step place fun hdepth target segment => ih _ ?_ _ rfl
    have := bracketDepth_lt_childPath place.path segment
    show f.maxDepth - bracketDepth (childPath place.path segment) < n
    omega

/-! ## Journals -/

section Journals

universe u v w

variable {α : Type u} {β : Type v}

/-- **A journal** of what is met: a list of ways in order, which holds all that lead
somewhere, and beside each what it leads to. Read one after the other, this is what is
met. -/
structure Journal (read : α → β) (met : List β) (leads : List Nat → α → Prop)
    (journal : List (List Nat × α)) : Prop where
  met_eq : journal.map (fun e => read e.2) = met
  sorted : journal.Pairwise fun a b => a.1 < b.1
  mem_iff : ∀ way a, (way, a) ∈ journal ↔ leads way a

theorem Journal.nil {read : α → β} {leads : List Nat → α → Prop} (h : ∀ way a, ¬ leads way a) :
    Journal read [] leads [] :=
  ⟨rfl, .nil, fun way a => ⟨fun hm => (nomatch hm), fun hl => absurd hl (h way a)⟩⟩

theorem Journal.here (read : α → β) (a : α) :
    Journal read [read a] (fun way b => way = [] ∧ b = a) [([], a)] := by
  refine ⟨rfl, List.pairwise_singleton _ _, fun way b => ?_⟩
  rw [List.mem_singleton, Prod.mk.injEq]

/-- **Journals of the stops of a list** make up a journal of the list, in which each way
begins with the position of its stop. -/
theorem exists_journal_flatMap {γ : Type w} {read : α → β} {met : γ → List β}
    {leads : γ → List Nat → α → Prop} {stops : List γ}
    (h : ∀ s ∈ stops, ∃ journal, Journal read (met s) (leads s) journal) :
    ∃ journal, Journal read (stops.flatMap met) (fun way a => ∃ i s rest,
      stops[i]? = some s ∧ way = i :: rest ∧ leads s rest a) journal := by
  -- each further stop comes behind all others, so its ways come last
  induction stops using List.reverseRecOn with
  | nil => exact ⟨[], .nil fun _ _ ⟨_, _, _, hs, _⟩ => nomatch hs⟩
  | append_singleton stops s ih =>
    obtain ⟨journal, hjournal⟩ := ih fun t ht => h t (List.mem_append_left _ ht)
    obtain ⟨last, hlast⟩ := h s (List.mem_append_right _ (List.mem_singleton.2 rfl))
    have hat (i : Nat) (t : γ) : (stops ++ [s])[i]? = some t ↔
        stops[i]? = some t ∨ (i = stops.length ∧ s = t) := by
      grind
    refine ⟨journal ++ last.map fun e => (stops.length :: e.1, e.2), ?_, ?_, fun way a => ?_⟩
    · rw [List.map_append, hjournal.met_eq, List.map_map, List.flatMap_append,
        List.flatMap_singleton, ← hlast.met_eq]
      rfl
    · refine List.pairwise_append.2 ⟨hjournal.sorted, ?_, fun a ha b hb => ?_⟩
      · rw [List.pairwise_map]
        exact hlast.sorted.imp fun hlt => List.cons_lt_cons_iff.2 (Or.inr ⟨rfl, hlt⟩)
      · -- the earlier ways begin with earlier positions
        obtain ⟨i, t, rest, hi, hway, -⟩ := (hjournal.mem_iff a.1 a.2).1 ha
        obtain ⟨e, -, rfl⟩ := List.mem_map.1 hb
        obtain ⟨hlt, -⟩ := List.getElem?_eq_some_iff.1 hi
        rw [hway]
        exact List.cons_lt_cons_iff.2 (Or.inl hlt)
    · rw [List.mem_append, hjournal.mem_iff]
      constructor
      · rintro (⟨i, t, rest, hi, rfl, hleads⟩ | hmem)
        · exact ⟨i, t, rest, (hat i t).2 (Or.inl hi), rfl, hleads⟩
        · obtain ⟨⟨rest, b⟩, he, heq⟩ := List.mem_map.1 hmem
          obtain ⟨rfl, rfl⟩ := Prod.mk.inj heq
          exact ⟨_, s, rest, (hat _ s).2 (Or.inr ⟨rfl, rfl⟩), rfl, (hlast.mem_iff _ _).1 he⟩
      · rintro ⟨i, t, rest, hi, rfl, hleads⟩
        rcases (hat i t).1 hi with hi | ⟨rfl, rfl⟩
        · exact Or.inl ⟨i, t, rest, hi, rfl, hleads⟩
        · exact Or.inr (List.mem_map.2 ⟨(rest, a), (hlast.mem_iff _ _).2 hleads, rfl⟩)

end Journals

/-! ## Sightings -/

/-- The segment that a stop adds to the path of its place. -/
def Stop.segment : Stop → String
  | .input p => p.name
  | .discriminator => discriminatorName

/-- Whether a stop leads no further: it does not refer to a class. -/
def Stop.Ends : Stop → Prop
  | .input p => ∀ target, p.shape ≠ .reference target
  | .discriminator => True

theorem Stop.exists_reference {stop : Stop} (h : ¬ stop.Ends) :
    ∃ p target, stop = .input p ∧ p.shape = .reference target := by
  cases stop with
  | input p =>
    obtain ⟨target, ht⟩ := not_forall.1 h
    exact ⟨p, target, rfl, not_not.1 ht⟩
  | discriminator => exact absurd trivial h

/-- **What a walk sights**: a stop of a place under the condition that it has there. -/
structure Seen where
  place : Place
  stop : Stop
  condition : Option ShowCondition

/-- The name of the parameter that is sighted. -/
def Seen.leaf (s : Seen) : String := childPath s.place.path s.stop.segment

variable (f) in
/-- **Which way leads to which sighting** from a place that is visited under a condition. -/
inductive Sights : Place → Option ShowCondition → List Nat → Seen → Prop
  | here {place : Place} {condition c : Option ShowCondition} {i : Nat} {stop : Stop}
      (enters : f.Enters place)
      (stops : (f.stops place.name place.path condition)[i]? = some (stop, c))
      (ends : stop.Ends) : Sights place condition [i] ⟨place, stop, c⟩
  | hop {place : Place} {condition c : Option ShowCondition} {i : Nat} {p : DefinedProperty}
      {target : String} {way : List Nat} {s : Seen} (enters : f.Enters place)
      (stops : (f.stops place.name place.path condition)[i]? = some (.input p, c))
      (shape : p.shape = .reference target)
      (rest : Sights ⟨target, childPath place.path p.name⟩ c way s) :
      Sights place condition (i :: way) s

variable (f) in
/-- **The parameter that is met** where something is sighted. -/
def descriptor (orderBy : Option EnumValues) (s : Seen) : FlatParameter :=
  match s.stop with
  | .discriminator => discriminatorAt s.place.path s.condition (f.variantsOf s.place.name)
  | .input p =>
    match f.input orderBy s.place.path s.condition p with
    | .value leaf => leaf
    | .object _ => { name := s.leaf, condition := s.condition }

section Descriptor

variable (orderBy : Option EnumValues) (s : Seen)

theorem name_and_condition_descriptor :
    (f.descriptor orderBy s).name = s.leaf ∧ (f.descriptor orderBy s).condition = s.condition := by
  obtain ⟨place, stop, condition⟩ := s
  cases stop with
  | discriminator => exact ⟨rfl, rfl⟩
  | input p =>
    unfold descriptor input
    dsimp only
    cases p.shape with
    | reference target => exact ⟨rfl, rfl⟩
    | referenceArray target => exact ⟨rfl, rfl⟩
    | value type items default enum => exact ⟨rfl, rfl⟩

theorem name_descriptor : (f.descriptor orderBy s).name = s.leaf :=
  (f.name_and_condition_descriptor orderBy s).1

theorem condition_descriptor : (f.descriptor orderBy s).condition = s.condition :=
  (f.name_and_condition_descriptor orderBy s).2

/-- **At a stop that leads no further** one parameter is met. -/
theorem see_of_ends (place : Place) {stop : Stop} (condition : Option ShowCondition)
    (ends : stop.Ends) : f.see orderBy place.name place.path (stop, condition)
      = [.parameter (f.descriptor orderBy ⟨place, stop, condition⟩)] := by
  cases stop with
  | discriminator => rfl
  | input p =>
    show f.seeInput orderBy place.path condition p = _
    unfold seeInput descriptor
    dsimp only
    cases hinput : f.input orderBy place.path condition p with
    | value leaf => rfl
    | object target => exact absurd (f.shape_of_input hinput) (ends target)

end Descriptor

variable (f) in
/-- Where the rest of a way leads from a stop of a place. -/
def SightsFrom (place : Place) (x : Stop × Option ShowCondition) (way : List Nat) (s : Seen) :
    Prop :=
  (x.1.Ends ∧ way = [] ∧ s = ⟨place, x.1, x.2⟩) ∨
    ∃ p target, x.1 = .input p ∧ p.shape = .reference target ∧
      f.Sights ⟨target, childPath place.path p.name⟩ x.2 way s

/-- **A way goes to a stop of its place** and on from there. -/
theorem sights_iff {place : Place} {condition : Option ShowCondition} {way : List Nat} {s : Seen} :
    f.Sights place condition way s ↔ f.Enters place ∧ ∃ i x rest,
      (f.stops place.name place.path condition)[i]? = some x ∧ way = i :: rest ∧
        f.SightsFrom place x rest s := by
  constructor
  · intro h
    cases h with
    | here enters stops ends => exact ⟨enters, _, _, [], stops, rfl, Or.inl ⟨ends, rfl, rfl⟩⟩
    | hop enters stops shape rest =>
      exact ⟨enters, _, _, _, stops, rfl, Or.inr ⟨_, _, rfl, shape, rest⟩⟩
  · rintro ⟨enters, i, ⟨stop, c⟩, rest, stops, rfl, ⟨ends, rfl, rfl⟩ | ⟨p, target, hp, shape, h⟩⟩
    · exact .here enters stops ends
    · obtain rfl : stop = .input p := hp
      exact .hop enters stops shape h

/-- **Where a sighting is from**: it is among the stops of its place, which is entered. -/
theorem Sights.mem_stops {place : Place} {condition : Option ShowCondition} {way : List Nat}
    {s : Seen} (h : f.Sights place condition way s) :
    f.Enters s.place ∧ s.stop.Ends ∧
      ∃ c, (s.stop, s.condition) ∈ f.stops s.place.name s.place.path c := by
  induction h with
  | @here place condition c i stop enters stops ends =>
    exact ⟨enters, ends, condition, List.mem_of_getElem? stops⟩
  | hop enters stops shape rest ih => exact ih

/-- **Ways lead to sightings**, whatever the condition they start from. -/
theorem way_iff_sights {place : Place} (condition : Option ShowCondition) {way : List Nat}
    {leaf : String} : f.Way place way leaf ↔ ∃ s, f.Sights place condition way s ∧ s.leaf = leaf := by
  have hstop (place : Place) (condition : Option ShowCondition) (i : Nat) (stop : Stop) :
      (f.agenda place.name)[i]? = some stop ↔
        ∃ c, (f.stops place.name place.path condition)[i]? = some (stop, c) := by
    rw [← f.map_fst_stops place.name place.path condition, List.getElem?_map,
      Option.map_eq_some_iff]
    constructor
    · rintro ⟨⟨stop, c⟩, h, rfl⟩
      exact ⟨c, h⟩
    · rintro ⟨c, h⟩
      exact ⟨(stop, c), h, rfl⟩
  constructor
  · intro h
    induction h generalizing condition with
    | value enters stop shape =>
      obtain ⟨c, h⟩ := (hstop _ condition _ _).1 stop
      exact ⟨_, .here enters h shape, rfl⟩
    | discriminator enters stop =>
      obtain ⟨c, h⟩ := (hstop _ condition _ _).1 stop
      exact ⟨_, .here enters h trivial, rfl⟩
    | hop enters stop shape _ ih =>
      obtain ⟨c, h⟩ := (hstop _ condition _ _).1 stop
      obtain ⟨s, hs, rfl⟩ := ih c
      exact ⟨s, .hop enters h shape hs, rfl⟩
  · rintro ⟨s, h, rfl⟩
    induction h with
    | @here place condition c i stop enters stops ends =>
      have hat := (hstop place condition i stop).2 ⟨c, stops⟩
      cases stop with
      | input p => exact .value enters hat ends
      | discriminator => exact .discriminator enters hat
    | @hop place condition c i p target way s enters stops shape rest ih =>
      exact .hop enters ((hstop place condition i _).2 ⟨c, stops⟩) shape ih

namespace Built

variable (hb : f.Built) (orderBy : Option EnumValues)
include hb

omit orderBy in
/-- The class that an input on an agenda refers to is known. -/
theorem isKnown_of_mem_agenda {name : String} {p : DefinedProperty}
    (hp : Stop.input p ∈ f.agenda name) {target : String} (ht : p.shape = .reference target) :
    f.hierarchy.isKnown target = true := by
  obtain ⟨member, -, hp⟩ := input_mem_agenda.1 hp
  exact hb.isKnown_of_mem_inputsOf hp ht

omit orderBy in
/-- Ways from a known class lead to known classes. -/
theorem isKnown_of_sights {place : Place} {condition : Option ShowCondition} {way : List Nat}
    {s : Seen} (h : f.Sights place condition way s)
    (hk : f.hierarchy.isKnown place.name = true) : f.hierarchy.isKnown s.place.name = true := by
  induction h with
  | here => exact hk
  | hop enters stops shape rest ih =>
    exact ih (hb.isKnown_of_mem_agenda
      (f.mem_agenda_of_mem_stops (List.mem_of_getElem? stops)) shape)

/-- Stops have journals if the places they lead to have. -/
theorem exists_journal_see {place : Place} {x : Stop × Option ShowCondition}
    (hx : x.1 ∈ f.agenda place.name)
    (ih : ∀ target segment, f.hierarchy.isKnown target = true → ∀ condition, ∃ journal,
      Journal (f.descriptor orderBy)
        ((f.visit orderBy .full target (childPath place.path segment) condition).filterMap
          Sighting.parameter?)
        (f.Sights ⟨target, childPath place.path segment⟩ condition) journal) :
    ∃ journal, Journal (f.descriptor orderBy)
      ((f.see orderBy place.name place.path x).filterMap Sighting.parameter?)
      (f.SightsFrom place x) journal := by
  obtain ⟨stop, condition⟩ := x
  by_cases ends : stop.Ends
  · obtain ⟨hmet, hsorted, hmem⟩ :=
      Journal.here (f.descriptor orderBy) (⟨place, stop, condition⟩ : Seen)
    rw [see_of_ends orderBy place condition ends]
    refine ⟨_, hmet, hsorted, fun way s => (hmem way s).trans (Iff.symm ?_)⟩
    refine (or_iff_left ?_).trans (and_iff_right ends)
    rintro ⟨p, target, rfl, shape, -⟩
    exact ends target shape
  · obtain ⟨p, target, rfl, shape⟩ := Stop.exists_reference ends
    obtain ⟨journal, hmet, hsorted, hmem⟩ :=
      ih target p.name (hb.isKnown_of_mem_agenda hx shape) condition
    show ∃ journal, Journal _ ((f.seeInput orderBy place.path condition p).filterMap _) _ journal
    rw [f.seeInput_of_reference shape]
    refine ⟨journal, hmet, hsorted, fun way s => (hmem way s).trans ⟨fun h => ?_, ?_⟩⟩
    · exact Or.inr ⟨p, target, rfl, shape, h⟩
    · rintro (⟨ends', -⟩ | ⟨p', target', hp, shape', h⟩)
      · exact absurd ends' ends
      · obtain rfl := Stop.input.inj hp
        obtain rfl := Shape.reference.inj (shape.symm.trans shape')
        exact h

/-- **Every walk has a journal**: the parameters that it meets are the descriptors of all that
ways lead to, in order. -/
theorem exists_journal (place : Place) (hk : f.hierarchy.isKnown place.name = true)
    (condition : Option ShowCondition) :
    ∃ journal, Journal (f.descriptor orderBy)
      ((f.visit orderBy .full place.name place.path condition).filterMap Sighting.parameter?)
      (f.Sights place condition) journal := by
  induction place using place_induction (f := f) generalizing condition with
  | step place ih =>
    by_cases hdepth : bracketDepth place.path < f.maxDepth
    · rcases f.hierarchy.isKnown_iff.1 hk with hroot | hn
      · rw [hroot, ← hb.root_eq, visit_root hdepth]
        exact ⟨[], .nil fun way s h => (sights_iff.1 h).1.1 (hroot.trans hb.root_eq.symm)⟩
      · have enters : f.Enters place := ⟨hb.ne_root hn, hdepth⟩
        rw [hb.visit_full hdepth hn, List.filterMap_flatMap]
        obtain ⟨journal, hmet, hsorted, hmem⟩ := exists_journal_flatMap fun x hx =>
          hb.exists_journal_see orderBy (f.mem_agenda_of_mem_stops hx)
            fun target segment hk condition => ih hdepth target segment hk condition
        refine ⟨journal, hmet, hsorted, fun way s => ?_⟩
        rw [hmem, sights_iff, and_iff_right enters]
    · rw [visit_of_deep (Nat.not_lt.1 hdepth)]
      exact ⟨[], .nil fun way s h => hdepth (sights_iff.1 h).1.2⟩

variable {name : String} (hk : f.hierarchy.isKnown name = true)
include hk

omit orderBy in
/-- **What a parameter of a class is merged from**: all that ways lead to under its name, in the
order of the ways. -/
theorem exists_sighted {r : FlatParameter} (hr : r ∈ (summarize (f.sightings name)).parameters) :
    ∃ first later, (first :: later).Pairwise (fun a b => a.1 < b.1) ∧
      (∀ way s, (way, s) ∈ first :: later ↔ f.Sights ⟨name, ""⟩ none way s ∧ s.leaf = r.name) ∧
      r = (later.map fun e => f.descriptor (f.declarations.orderBy? name) e.2).foldl
        FlatParameter.merge (f.descriptor (f.declarations.orderBy? name) first.2) := by
  obtain ⟨journal, hmet, hsorted, hmem⟩ :=
    hb.exists_journal (f.declarations.orderBy? name) ⟨name, ""⟩ hk none
  obtain ⟨p, rest, hfilter, hr⟩ := FlatParameter.exists_foldl_of_mem_mergeAll hr
  -- the descriptors of the name are those of the part of the journal with this leaf
  unfold sightings at hfilter
  rw [← hmet, List.filter_map] at hfilter
  obtain ⟨first, later, hpart, rfl, rfl⟩ := List.map_eq_cons_iff.1 hfilter
  refine ⟨first, later, hpart ▸ hsorted.filter _, fun way s => ?_, hr⟩
  rw [← hpart, List.mem_filter, hmem]
  refine and_congr_right fun _ => ?_
  rw [Function.comp_apply, beq_iff_eq, name_descriptor]

omit orderBy in
/-- **Whatever is sighted** is merged into some parameter. -/
theorem exists_parameter_of_sights {way : List Nat} {s : Seen}
    (h : f.Sights ⟨name, ""⟩ none way s) :
    ∃ r ∈ (summarize (f.sightings name)).parameters, r.name = s.leaf := by
  obtain ⟨journal, hmet, -, hmem⟩ :=
    hb.exists_journal (f.declarations.orderBy? name) ⟨name, ""⟩ hk none
  refine List.mem_map.1 ?_
  show _ ∈ (FlatParameter.mergeAll ((f.visit _ .full name "" none).filterMap _)).map (·.name)
  rw [FlatParameter.names_mergeAll, FirstSeen.mem_addAll, ← hmet, List.map_map]
  refine Or.inr (List.mem_map.2 ⟨(way, s), (hmem way s).2 h, ?_⟩)
  rw [Function.comp_apply, name_descriptor]

end Built

end SwaggerForge.Flattening
