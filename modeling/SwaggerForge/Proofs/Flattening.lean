import SwaggerForge.Proofs.Merging
import SwaggerForge.Proofs.Sightings

/-!
# Flattening is exact

What comes out of flattening a class is what there is to reach from it: the
parameters are the leaves, each once and in the order of a depth-first walk, and
what is reported as cut off are the paths of the places that are reached and too
deep (`Flattening.Built.expand_exact`).

The names of the parameters are read off from the journal of the walk: written without the
conditions of the sightings it is a **chart**, a list of all ways in order, each with its leaf,
whose leaves are the names that are met (`Flattening.Built.exists_chart`).
-/

namespace SwaggerForge.Flattening

variable {f : Flattening}

/-! ## Charts -/

/-- **A chart** of names that are met: a list of ways in order, which holds all that
lead somewhere and shows beside each the name that it leads to. -/
structure Chart (names : List String) (leads : List Nat → String → Prop)
    (chart : List (List Nat × String)) : Prop where
  names_eq : chart.map Prod.snd = names
  sorted : chart.Pairwise fun a b => a.1 < b.1
  mem_iff : ∀ way name, (way, name) ∈ chart ↔ leads way name

/-- The names of the parameters that are met. -/
def metNames (sightings : List Sighting) : List String :=
  (sightings.filterMap Sighting.parameter?).map (·.name)

namespace Built

variable (hb : f.Built) (orderBy : Option EnumValues)
include hb

/-- **Every walk has a chart**: what it meets are the ends of all ways in order. -/
theorem exists_chart (place : Place) (hk : f.hierarchy.isKnown place.name = true)
    (condition : Option ShowCondition) :
    ∃ chart, Chart (metNames (f.visit orderBy .full place.name place.path condition))
      (f.Way place) chart := by
  obtain ⟨journal, hmet, hsorted, hmem⟩ := hb.exists_journal orderBy place hk condition
  refine ⟨journal.map fun e => (e.1, e.2.leaf), ?_, ?_, fun way leaf => ?_⟩
  · unfold metNames
    rw [← hmet, List.map_map, List.map_map]
    exact List.map_congr_left fun e _ => (f.name_descriptor orderBy e.2).symm
  · rw [List.pairwise_map]
    exact hsorted
  · rw [way_iff_sights condition, List.mem_map]
    constructor
    · rintro ⟨⟨_, s⟩, hs, heq⟩
      obtain ⟨rfl, rfl⟩ := Prod.mk.inj heq
      exact ⟨s, (hmem _ s).1 hs, rfl⟩
    · rintro ⟨s, hs, rfl⟩
      exact ⟨(way, s), (hmem way s).2 hs, rfl⟩

/-! ## Cuts -/

omit hb in
/-- Only where a stop leads on to a place something can be cut off. -/
theorem cut_mem_see_iff {name path cut : String} {s : Stop × Option ShowCondition} :
    Sighting.cut cut ∈ f.see orderBy name path s ↔
      ∃ p target, s.1 = .input p ∧ p.shape = .reference target ∧
        Sighting.cut cut ∈ f.visit orderBy .full target (childPath path p.name) s.2 := by
  obtain ⟨stop, condition⟩ := s
  cases stop with
  | discriminator =>
    refine ⟨fun h => ?_, fun ⟨_, _, h, _⟩ => nomatch h⟩
    cases List.mem_singleton.1 h
  | input p =>
    show Sighting.cut cut ∈ f.seeInput orderBy path condition p ↔ _
    constructor
    · intro h
      rcases f.seeInput_cases orderBy path condition p with
        ⟨target, shape, hsee⟩ | ⟨-, leaf, hsee, -, -⟩
      · rw [hsee] at h
        exact ⟨p, target, rfl, shape, h⟩
      · rw [hsee] at h
        cases List.mem_singleton.1 h
    · rintro ⟨_, target, ⟨⟩, shape, h⟩
      rw [f.seeInput_of_reference shape]
      exact h

/-- **What is cut off** of a walk are the paths of the places that are reached and
too deep. -/
theorem cut_mem_visit_iff (place : Place) (hk : f.hierarchy.isKnown place.name = true)
    (condition : Option ShowCondition) {path : String} :
    Sighting.cut path ∈ f.visit orderBy .full place.name place.path condition ↔
      ∃ target, Relation.ReflTransGen f.Hop place ⟨target, path⟩ ∧
        f.maxDepth ≤ bracketDepth path := by
  induction place using place_induction (f := f) generalizing condition with
  | step place ih =>
    -- from a place that is not entered only the place itself is reached
    have hstay (hout : ¬ f.Enters place) {target : String}
        (h : Relation.ReflTransGen f.Hop place ⟨target, path⟩) : path = place.path := by
      rcases Relation.ReflTransGen.cases_head_iff.1 h with rfl | ⟨next, hhop, -⟩
      · rfl
      · exact absurd (hb.hop_iff.1 hhop).1 hout
    by_cases hdepth : bracketDepth place.path < f.maxDepth
    · rcases f.hierarchy.isKnown_iff.1 hk with hroot | hn
      · have hroot := hroot.trans hb.root_eq.symm
        rw [hroot, visit_root hdepth]
        refine ⟨fun h => (nomatch h), fun ⟨target, h, hdeep⟩ => ?_⟩
        rw [hstay (fun enters => enters.1 hroot) h] at hdeep
        exact absurd hdepth (Nat.not_lt.2 hdeep)
      · have enters : f.Enters place := ⟨hb.ne_root hn, hdepth⟩
        rw [hb.visit_full hdepth hn, List.mem_flatMap]
        constructor
        · rintro ⟨s, hs, hcut⟩
          have hstop := f.mem_agenda_of_mem_stops hs
          obtain ⟨p, target, hinput, shape, hcut⟩ := (cut_mem_see_iff orderBy).1 hcut
          rw [hinput] at hstop
          obtain ⟨last, hreach, hdeep⟩ :=
            (ih hdepth target p.name (hb.isKnown_of_mem_agenda hstop shape) s.2).1 hcut
          exact ⟨last, .head (hb.hop_iff.2 ⟨enters, p, target, hstop, shape, rfl⟩) hreach, hdeep⟩
        · rintro ⟨last, hreach, hdeep⟩
          rcases Relation.ReflTransGen.cases_head_iff.1 hreach with rfl | ⟨next, hhop, hreach⟩
          · exact absurd hdepth (Nat.not_lt.2 hdeep)
          · obtain ⟨-, p, target, hp, shape, rfl⟩ := hb.hop_iff.1 hhop
            have hknown := hb.isKnown_of_mem_agenda hp shape
            rw [← f.map_fst_stops place.name place.path condition] at hp
            obtain ⟨s, hs, hinput⟩ := List.mem_map.1 hp
            have hcut := (ih hdepth target p.name hknown s.2).2 ⟨last, hreach, hdeep⟩
            exact ⟨s, hs, (cut_mem_see_iff orderBy).2 ⟨p, target, hinput, shape, hcut⟩⟩
    · rw [visit_of_deep (Nat.not_lt.1 hdepth), List.mem_singleton]
      constructor
      · rintro ⟨⟩
        exact ⟨place.name, .refl, Nat.not_lt.1 hdepth⟩
      · rintro ⟨target, h, -⟩
        rw [hstay (fun enters => hdepth enters.2) h]

/-! ## The result -/

omit hb orderBy in
/-- What is reported as cut off has been cut off. -/
theorem mem_truncated_summarize {sightings : List Sighting} {path : String} :
    path ∈ (summarize sightings).truncated ↔ Sighting.cut path ∈ sightings := by
  show path ∈ FirstSeen.addAll [] (sightings.filterMap Sighting.cut?) ↔ _
  rw [FirstSeen.mem_addAll, or_iff_right List.not_mem_nil, List.mem_filterMap]
  constructor
  · rintro ⟨s, hs, hcut⟩
    cases s with
    | cut p =>
      obtain rfl := Option.some.inj hcut
      exact hs
    | parameter p => cases hcut
    | undefined n => cases hcut
  · exact fun h => ⟨_, h, rfl⟩

section Expansions

variable {name : String} (hk : f.hierarchy.isKnown name = true) {e : Expansion}
  (he : f.expand name = .ok e)
include hk he

omit orderBy in
theorem eq_summarize : e = summarize (f.sightings name) :=
  Except.ok.inj (he.symm.trans (hb.expand_eq hk))

omit orderBy in
/-- **The names of the parameters** are the leaves of the class. -/
theorem mem_parameterNames_iff {leaf : String} :
    leaf ∈ e.parameters.map (·.name) ↔ f.Leaf name leaf := by
  obtain ⟨chart, hchart⟩ := hb.exists_chart (f.declarations.orderBy? name) ⟨name, ""⟩ hk none
  rw [hb.eq_summarize hk he]
  show leaf ∈ (FlatParameter.mergeAll ((f.sightings name).filterMap _)).map (·.name) ↔ _
  rw [FlatParameter.names_mergeAll, FirstSeen.mem_addAll, or_iff_right List.not_mem_nil]
  change leaf ∈ metNames (f.sightings name) ↔ _
  rw [sightings, ← hchart.names_eq, List.mem_map]
  refine Iff.trans ?_ hb.exists_way_iff
  constructor
  · rintro ⟨⟨way, _⟩, h, rfl⟩
    exact ⟨way, (hchart.mem_iff _ _).1 h⟩
  · rintro ⟨way, h⟩
    exact ⟨(way, leaf), (hchart.mem_iff _ _).2 h, rfl⟩

omit orderBy in
/-- No two parameters have one name. -/
theorem nodup_parameterNames : (e.parameters.map (·.name)).Nodup := by
  rw [hb.eq_summarize hk he]
  exact FlatParameter.nodup_names_mergeAll _

omit orderBy in
/-- **What is reported as cut off** are the paths of the places that are reached and too deep. -/
theorem mem_truncated_iff {path : String} : path ∈ e.truncated ↔
    ∃ target, f.Reached name ⟨target, path⟩ ∧ f.maxDepth ≤ bracketDepth path := by
  rw [hb.eq_summarize hk he, mem_truncated_summarize]
  exact hb.cut_mem_visit_iff (f.declarations.orderBy? name) ⟨name, ""⟩ hk none

end Expansions

omit orderBy in
/-- **Flattening is exact.** A known class can be flattened. The names of the
parameters are its leaves, each once and in the order in which a depth-first walk
meets them first, and the paths that are cut off are those of the places that are
reached and too deep, each once. -/
theorem expand_exact {name : String} (hk : f.hierarchy.isKnown name = true) :
    ∃ e, f.expand name = .ok e ∧
      (∀ leaf, leaf ∈ e.parameters.map (·.name) ↔ f.Leaf name leaf) ∧
      (e.parameters.map (·.name)).Nodup ∧
      (e.parameters.map (·.name)).Pairwise (f.MetBefore name) ∧
      (∀ path, path ∈ e.truncated ↔
        ∃ target, f.Reached name ⟨target, path⟩ ∧ f.maxDepth ≤ bracketDepth path) ∧
      e.truncated.Nodup := by
  have he := hb.expand_eq hk
  obtain ⟨chart, hchart⟩ := hb.exists_chart (f.declarations.orderBy? name) ⟨name, ""⟩ hk none
  refine ⟨_, he, fun leaf => hb.mem_parameterNames_iff hk he, hb.nodup_parameterNames hk he, ?_,
    fun path => hb.mem_truncated_iff hk he, FirstSeen.nodup_addAll List.nodup_nil _⟩
  have hnames : (summarize (f.sightings name)).parameters.map (·.name)
      = FirstSeen.addAll [] (chart.map Prod.snd) := by
    rw [hchart.names_eq]
    exact FlatParameter.names_mergeAll _
  rw [hnames]
  refine (FirstSeen.pairwise_addAll hchart.sorted).imp ?_
  rintro a b ⟨way, ha, hbefore⟩
  exact ⟨way, (hchart.mem_iff _ _).1 ha, fun other hother =>
    hbefore other ((hchart.mem_iff _ _).2 hother)⟩

end Built

theorem expand_exact_petWalk :
    petWalk.Built ∧ petWalk.hierarchy.isKnown "Animal" = true ∧
      ∃ e, petWalk.expand "Animal" = .ok e ∧
        (∀ leaf, leaf ∈ e.parameters.map (·.name) ↔ petWalk.Leaf "Animal" leaf) ∧
        (e.parameters.map (·.name)).Nodup ∧
        (e.parameters.map (·.name)).Pairwise (petWalk.MetBefore "Animal") ∧
        (∀ path, path ∈ e.truncated ↔ ∃ target,
          petWalk.Reached "Animal" ⟨target, path⟩ ∧ petWalk.maxDepth ≤ bracketDepth path) ∧
        e.truncated.Nodup :=
  ⟨built_petWalk, by decide, built_petWalk.expand_exact (by decide)⟩

end SwaggerForge.Flattening
