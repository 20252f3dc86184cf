import SwaggerForge.Proofs.DepthBound
import SwaggerForge.Proofs.SharedKeys

/-!
# What is beyond a cut

A walk is cut off at every place that is as deep as the bound, and the cut is reported before
anything is known of the class that stands there. All that a larger bound brings is beyond the
reported paths, but the converse fails: a cut does not say that something is missing. It may be the
root that stands there, which has no properties, or a class that leads to nothing but other
classes, round and round; then no walk finds anything beyond, however deep it goes.

Whether there is something is a question about classes alone, and not about paths or bounds: it is
whether a class at the cut holds values, itself or inside one that it leads to
(`Flattening.HoldsValues`). If one does, a walk that goes deep enough finds parameters there
(`Flattening.Built.exists_inside`). The other way round, a name that is found beyond a depth has
been found on a way through a place of this depth, because each step adds one bracket
(`Flattening.Built.exists_through`), and a path is known by its depth among those that a name is
inside (`eq_of_inside`). Together this is what is reported, what of it is cut off, and that nothing
else is (`Flattening.Built.beyond_cuts`).
-/

namespace SwaggerForge

/-- **A name inside a path**: it goes on from the path with a segment. -/
def Inside (path name : String) : Prop := ∃ rest, Bracketed rest ∧ name = path ++ rest

theorem childPath_append (path rest name : String) :
    childPath (path ++ rest) name = path ++ childPath rest name := by
  simp only [childPath, String.append_assoc]

/-- Texts that go on with the same character, after as many of it, are the same so far. -/
theorem eq_of_append_cons_of_count_eq {c : Char} {xs ys us vs : List Char}
    (hcount : xs.count c = ys.count c) (h : xs ++ c :: us = ys ++ c :: vs) : xs = ys := by
  induction xs generalizing ys with
  | nil =>
    cases ys with
    | nil => rfl
    | cons y ys =>
      obtain ⟨rfl, -⟩ := List.cons.inj h
      rw [List.count_cons_self] at hcount
      cases hcount
  | cons x xs ih =>
    cases ys with
    | nil =>
      obtain ⟨rfl, -⟩ := List.cons.inj h
      rw [List.count_cons_self] at hcount
      cases hcount
    | cons y ys =>
      obtain ⟨rfl, hrest⟩ := List.cons.inj h
      rw [List.count_cons, List.count_cons] at hcount
      rw [ih (Nat.add_right_cancel hcount) hrest]

/-- **A path is known by its depth** among the paths that a name is inside. -/
theorem eq_of_inside {path path' name : String} (hdepth : bracketDepth path = bracketDepth path')
    (h : Inside path name) (h' : Inside path' name) : path = path' := by
  obtain ⟨rest, ⟨tail, htail⟩, rfl⟩ := h
  obtain ⟨rest', ⟨tail', htail'⟩, heq⟩ := h'
  have hlists := congrArg String.toList heq
  rw [String.toList_append, String.toList_append, htail, htail'] at hlists
  exact String.toList_injective (eq_of_append_cons_of_count_eq hdepth hlists)

/-- A path that a name is inside is no deeper than the path of the name's place. -/
theorem bracketDepth_le_of_inside {path last segment : String} (hplain : bracketDepth segment = 0)
    (h : Inside path (childPath last segment)) : bracketDepth path ≤ bracketDepth last := by
  obtain ⟨rest, ⟨tail, htail⟩, heq⟩ := h
  have hrest : 0 < bracketDepth rest := by
    unfold bracketDepth
    rw [htail, List.count_cons_self]
    exact Nat.succ_pos _
  have hdepths := congrArg bracketDepth heq
  rw [bracketDepth_childPath, bracketDepth_append, hplain] at hdepths
  omega

namespace Flattening

variable (f : Flattening)

/-! ## Classes that hold values -/

/-- **One class leads to another** by an input that refers to it. -/
def LeadsTo (name target : String) : Prop :=
  name ≠ f.definitions.root ∧ ∃ p, Stop.input p ∈ f.agenda name ∧ p.shape = .reference target

/-- **A class has values of its own**: an input that refers to no class, or a discriminator. -/
def HasValues (name : String) : Prop :=
  name ≠ f.definitions.root ∧ ∃ stop ∈ f.agenda name, stop.Ends

/-- **A class holds values**, itself or inside a class that it leads to. -/
def HoldsValues (name : String) : Prop :=
  ∃ inner, Relation.ReflTransGen f.LeadsTo name inner ∧ f.HasValues inner

/-- **The root holds nothing**, and leads nowhere. -/
theorem not_holdsValues_root : ¬ f.HoldsValues f.definitions.root := by
  rintro ⟨inner, hleads, hvalues⟩
  rcases Relation.ReflTransGen.cases_head hleads with rfl | ⟨next, hfirst, -⟩
  · exact hvalues.1 rfl
  · exact hfirst.1 rfl

/-- **Something is cut off at a path** by a depth bound: under a larger one there is a parameter
whose name goes on from the path. -/
def CutsOff (depth : Nat) (name path : String) : Prop :=
  ∃ depth' > depth, ∃ e, (f.boundedBy depth').expand name = .ok e ∧
    ∃ p ∈ e.parameters, Inside path p.name

namespace Built

variable {f} (hb : f.Built) {depth : Nat}
include hb

/-! ## Walks that go deep enough -/

/-- **What is on the agenda of a class** leads on from every place that is not too deep. -/
theorem hop_boundedBy_iff {place next : Place} : (f.boundedBy depth).Hop place next ↔
    (place.name ≠ f.definitions.root ∧ bracketDepth place.path < depth) ∧
      ∃ p target, Stop.input p ∈ f.agenda place.name ∧ p.shape = .reference target ∧
        next = ⟨target, childPath place.path p.name⟩ :=
  Built.hop_iff (f := f.boundedBy depth) hb

theorem hop_mono {depth' : Nat} (hle : depth ≤ depth') {place next : Place}
    (h : (f.boundedBy depth).Hop place next) : (f.boundedBy depth').Hop place next := by
  obtain ⟨⟨hinner, hlt⟩, hnext⟩ := hb.hop_boundedBy_iff.1 h
  exact hb.hop_boundedBy_iff.2 ⟨⟨hinner, Nat.lt_of_lt_of_le hlt hle⟩, hnext⟩

theorem hops_mono {depth' : Nat} (hle : depth ≤ depth') {place last : Place}
    (h : Relation.ReflTransGen (f.boundedBy depth).Hop place last) :
    Relation.ReflTransGen (f.boundedBy depth').Hop place last :=
  Relation.ReflTransGen.mono (fun _ _ => hb.hop_mono hle) _ _ h

/-- What leads from class to class leads from place to place, if the bound allows it. -/
theorem exists_hops {name inner : String} (h : Relation.ReflTransGen f.LeadsTo name inner)
    (path : String) : ∃ rest, (rest = "" ∨ Bracketed rest) ∧
      ∀ depth, bracketDepth (path ++ rest) ≤ depth →
        Relation.ReflTransGen (f.boundedBy depth).Hop ⟨name, path⟩ ⟨inner, path ++ rest⟩ := by
  induction h with
  | refl =>
    refine ⟨"", Or.inl rfl, fun depth _ => ?_⟩
    rw [String.append_empty]
  | tail _ hlast ih =>
    obtain ⟨rest, hrest, hhops⟩ := ih
    obtain ⟨hinner, p, hp, shape⟩ := hlast
    refine ⟨childPath rest p.name, Or.inr (bracketed_childPath hrest _), fun depth hdepth => ?_⟩
    rw [← childPath_append] at hdepth ⊢
    have hlt := Nat.lt_of_lt_of_le (bracketDepth_lt_childPath _ _) hdepth
    exact (hhops depth (Nat.le_of_lt hlt)).tail
      (hb.hop_boundedBy_iff.2 ⟨⟨hinner, hlt⟩, p, _, hp, shape, rfl⟩)

/-- **Beyond a place whose class holds values** a walk that goes deep enough finds some. -/
theorem exists_inside {name target path : String} (hk : f.hierarchy.isKnown name = true)
    (hreached : (f.boundedBy depth).Reached name ⟨target, path⟩) (hholds : f.HoldsValues target) :
    f.CutsOff depth name path := by
  obtain ⟨inner, hleads, hne, stop, hstop, ends⟩ := hholds
  obtain ⟨rest, hrest, hhops⟩ := hb.exists_hops hleads path
  obtain ⟨depth', hdepth', hplace⟩ :
      ∃ depth' > depth, bracketDepth (path ++ rest) < depth' :=
    ⟨max depth (bracketDepth (path ++ rest)) + 1, by omega, by omega⟩
  have hreached' : (f.boundedBy depth').Reached name ⟨inner, path ++ rest⟩ :=
    (hb.hops_mono (Nat.le_of_lt hdepth') hreached).trans (hhops depth' (Nat.le_of_lt hplace))
  have hleaf : (f.boundedBy depth').LeafAt ⟨inner, path ++ rest⟩
      (childPath (path ++ rest) stop.segment) := by
    refine leafAt_iff.2 ⟨⟨hne, hplace⟩, ?_⟩
    cases stop with
    | input p => exact Or.inl ⟨p, hstop, ends, rfl⟩
    | discriminator => exact Or.inr ⟨hstop, rfl⟩
  have he := Built.expand_eq (f := f.boundedBy depth') hb hk
  obtain ⟨p, hp, hname⟩ := List.mem_map.1
    ((Built.mem_parameterNames_iff (f := f.boundedBy depth') hb hk he).2 ⟨_, hreached', hleaf⟩)
  refine ⟨depth', hdepth', _, he, p, hp, ?_⟩
  rw [hname, childPath_append]
  exact ⟨_, bracketed_childPath hrest _, rfl⟩

/-! ## Walks through a place -/

omit hb in
/-- A leaf of a place is one under every bound that the place is not too deep for. -/
theorem leafAt_boundedBy {depth' : Nat} {place : Place} {leaf : String}
    (h : (f.boundedBy depth').LeafAt place leaf) (hlt : bracketDepth place.path < depth) :
    (f.boundedBy depth).LeafAt place leaf := by
  obtain ⟨⟨hne, -⟩, hstop⟩ := leafAt_iff.1 h
  exact leafAt_iff.2 ⟨⟨hne, hlt⟩, hstop⟩

/-- Along a way from place to place the classes lead to each other. -/
theorem leadsTo_of_hops {place last : Place}
    (h : Relation.ReflTransGen (f.boundedBy depth).Hop place last) :
    Relation.ReflTransGen f.LeadsTo place.name last.name := by
  induction h with
  | refl => exact .refl
  | tail _ hlast ih =>
    obtain ⟨⟨hinner, -⟩, p, target, hp, shape, rfl⟩ := hb.hop_boundedBy_iff.1 hlast
    exact ih.tail ⟨hinner, p, hp, shape⟩

/-- A way from place to place goes further into the path. -/
theorem exists_rest_of_hops {place last : Place}
    (h : Relation.ReflTransGen (f.boundedBy depth).Hop place last) :
    ∃ rest, (rest = "" ∨ Bracketed rest) ∧ last.path = place.path ++ rest := by
  induction h with
  | refl => exact ⟨"", Or.inl rfl, String.append_empty.symm⟩
  | tail _ hlast ih =>
    obtain ⟨rest, hrest, hpath⟩ := ih
    obtain ⟨-, p, target, -, -, rfl⟩ := hb.hop_boundedBy_iff.1 hlast
    exact ⟨childPath rest p.name, Or.inr (bracketed_childPath hrest _),
      by rw [hpath, childPath_append]⟩

section Unbracketed

variable (hnames : f.UnbracketedInputs)
include hnames

/-- **Each step makes a path deeper by one.** -/
theorem bracketDepth_of_hop {place next : Place} (h : (f.boundedBy depth).Hop place next) :
    bracketDepth next.path = bracketDepth place.path + 1 ∧ bracketDepth next.path ≤ depth := by
  obtain ⟨⟨-, hlt⟩, p, target, hp, -, rfl⟩ := hb.hop_boundedBy_iff.1 h
  obtain ⟨member, -, hmember⟩ := input_mem_agenda.1 hp
  have hplain := hnames member p hmember
  show bracketDepth (childPath place.path p.name) = bracketDepth place.path + 1 ∧
    bracketDepth (childPath place.path p.name) ≤ depth
  rw [bracketDepth_childPath, hplain]
  omega

/-- What is reached is no deeper than the bound. -/
theorem bracketDepth_le_of_reached {name : String} {place : Place}
    (h : (f.boundedBy depth).Reached name place) : bracketDepth place.path ≤ depth := by
  rcases Relation.ReflTransGen.cases_tail h with rfl | ⟨_, -, hlast⟩
  · exact Nat.zero_le _
  · exact (hb.bracketDepth_of_hop hnames hlast).2

/-- A way to a place does not need a bound beyond the depth of the place. -/
theorem hops_of_hops {place last : Place}
    (h : Relation.ReflTransGen (f.boundedBy depth).Hop place last) :
    Relation.ReflTransGen (f.boundedBy (bracketDepth last.path)).Hop place last := by
  induction h with
  | refl => exact .refl
  | @tail mid last _ hlast ih =>
    have hdepth := (hb.bracketDepth_of_hop hnames hlast).1
    refine (hb.hops_mono (by omega) ih).tail ?_
    obtain ⟨⟨hinner, -⟩, hnext⟩ := hb.hop_boundedBy_iff.1 hlast
    exact hb.hop_boundedBy_iff.2 ⟨⟨hinner, by omega⟩, hnext⟩

/-- **A way passes through every depth** between those of its ends. -/
theorem exists_at_depth {place last : Place} {k : Nat}
    (h : Relation.ReflTransGen (f.boundedBy depth).Hop place last)
    (hlower : bracketDepth place.path ≤ k) (hupper : k ≤ bracketDepth last.path) :
    ∃ mid, bracketDepth mid.path = k ∧
      Relation.ReflTransGen (f.boundedBy depth).Hop place mid ∧
      Relation.ReflTransGen (f.boundedBy depth).Hop mid last := by
  induction h with
  | refl => exact ⟨place, by omega, .refl, .refl⟩
  | @tail mid last hhops hlast ih =>
    have hdepth := (hb.bracketDepth_of_hop hnames hlast).1
    rcases Nat.lt_or_ge (bracketDepth mid.path) k with hlt | hle
    · exact ⟨last, by omega, hhops.tail hlast, .refl⟩
    · obtain ⟨at_k, hk, hbefore, hafter⟩ := ih hle
      exact ⟨at_k, hk, hbefore, hafter.tail hlast⟩

omit hb in
/-- **A leaf is one bracket deeper than its place**, at a value of the class there. -/
theorem exists_stop_of_leafAt {place : Place} {leaf : String}
    (h : (f.boundedBy depth).LeafAt place leaf) :
    f.HasValues place.name ∧
      ∃ segment, bracketDepth segment = 0 ∧ leaf = childPath place.path segment := by
  obtain ⟨⟨hne, -⟩, ⟨p, hp, shape, hleaf⟩ | ⟨hdisc, hleaf⟩⟩ := leafAt_iff.1 h
  · obtain ⟨member, -, hmember⟩ := input_mem_agenda.1 hp
    exact ⟨⟨hne, .input p, hp, shape⟩, p.name, hnames member p hmember, hleaf⟩
  · exact ⟨⟨hne, .discriminator, hdisc, trivial⟩, discriminatorName, by decide, hleaf⟩

/-- **A leaf of a deep place** has been found through a place of every lesser depth, which is
reached under a bound of just this depth. -/
theorem exists_through {name leaf : String} {last : Place} {k : Nat}
    (hreached : (f.boundedBy depth).Reached name last)
    (hleaf : (f.boundedBy depth).LeafAt last leaf) (hk : k ≤ bracketDepth last.path) :
    ∃ mid, bracketDepth mid.path = k ∧ (f.boundedBy k).Reached name mid ∧
      Inside mid.path leaf ∧ f.HoldsValues mid.name := by
  obtain ⟨hvalues, segment, -, rfl⟩ := exists_stop_of_leafAt hnames hleaf
  obtain ⟨mid, rfl, hbefore, hafter⟩ := hb.exists_at_depth hnames hreached (Nat.zero_le k) hk
  obtain ⟨rest, hrest, hlast⟩ := hb.exists_rest_of_hops hafter
  refine ⟨mid, rfl, hb.hops_of_hops hnames hbefore, ?_, last.name, hb.leadsTo_of_hops hafter,
    hvalues⟩
  rw [hlast, childPath_append]
  exact ⟨_, bracketed_childPath hrest segment, rfl⟩

/-- **A leaf inside a path that is not too deep** has been found through a place with this path,
whose class holds values. -/
theorem exists_reached_of_inside {depth' : Nat} {name leaf path : String}
    (hpath : bracketDepth path ≤ depth) (hleaf : (f.boundedBy depth').Leaf name leaf)
    (hinside : Inside path leaf) :
    ∃ target, (f.boundedBy depth).Reached name ⟨target, path⟩ ∧ f.HoldsValues target := by
  obtain ⟨last, hreached, hleaf⟩ := hleaf
  obtain ⟨-, segment, hplain, hname⟩ := exists_stop_of_leafAt hnames hleaf
  have hdeep := bracketDepth_le_of_inside hplain (hname ▸ hinside)
  obtain ⟨⟨target, path'⟩, hsame, hmid, hthrough, hholds⟩ :=
    hb.exists_through hnames hreached hleaf hdeep
  -- there is only one such path of this depth
  obtain rfl : path' = path := eq_of_inside hsame hthrough hinside
  exact ⟨target, hb.hops_mono hpath hmid, hholds⟩

/-- **What a bound cuts off**: of the leaves under any bound, those that are none under this one
are inside the paths of places that are reached and as deep as the bound. -/
theorem not_leaf_iff {depth' : Nat} {name leaf : String}
    (hleaf : (f.boundedBy depth').Leaf name leaf) :
    ¬ (f.boundedBy depth).Leaf name leaf ↔ ∃ place, (f.boundedBy depth).Reached name place ∧
      bracketDepth place.path = depth ∧ Inside place.path leaf := by
  constructor
  · intro hnone
    obtain ⟨last, hreached, hleaf⟩ := hleaf
    have hdeep : depth ≤ bracketDepth last.path := by
      refine Nat.le_of_not_lt fun hlt => hnone ?_
      exact ⟨last, hb.hops_mono (Nat.le_of_lt hlt) (hb.hops_of_hops hnames hreached),
        leafAt_boundedBy hleaf hlt⟩
    obtain ⟨mid, hdepth, hmid, hinside, -⟩ := hb.exists_through hnames hreached hleaf hdeep
    exact ⟨mid, hmid, hdepth, hinside⟩
  · rintro ⟨place, -, hdepth, hinside⟩ ⟨last, -, hleaf⟩
    obtain ⟨⟨-, hlt⟩, -⟩ := leafAt_iff.1 hleaf
    obtain ⟨-, segment, hplain, rfl⟩ := exists_stop_of_leafAt hnames hleaf
    have hle := bracketDepth_le_of_inside hplain hinside
    exact absurd (Nat.lt_of_le_of_lt (hdepth ▸ hle) hlt) (Nat.lt_irrefl depth)

end Unbracketed

/-- **What is reported as cut off, and what is cut off.** A known class is flattened under every
bound. Reported are the paths of the places that are reached and as deep as the bound, whatever
class stands there. At such a path something is cut off exactly if a class that stands there holds
values, itself or inside a class that it leads to; where none does, as where the root alone stands,
the report is in vain. Nothing else is cut off: of the parameters under a larger bound those are
missing that are inside a reported path. -/
theorem beyond_cuts (hnames : ∀ c ∈ f.hierarchy.classes, ∀ p ∈ c.properties,
      '[' ∉ p.name.toList) {name : String} (hk : f.hierarchy.isKnown name = true) (depth : Nat) :
    ∃ e, (f.boundedBy depth).expand name = .ok e ∧
      (∀ path, path ∈ e.truncated ↔
        ∃ target, (f.boundedBy depth).Reached name ⟨target, path⟩ ∧ bracketDepth path = depth) ∧
      (∀ path ∈ e.truncated, f.CutsOff depth name path ↔
        ∃ target, (f.boundedBy depth).Reached name ⟨target, path⟩ ∧ f.HoldsValues target) ∧
      ∀ depth' > depth, ∀ e', (f.boundedBy depth').expand name = .ok e' → ∀ p ∈ e'.parameters,
        (p.name ∉ e.parameters.map (·.name) ↔ ∃ path ∈ e.truncated, Inside path p.name) := by
  have hplain := hb.unbracketedInputs hnames
  have he := Built.expand_eq (f := f.boundedBy depth) hb hk
  have hleaf {depth' : Nat} {e' : Expansion} (he' : (f.boundedBy depth').expand name = .ok e')
      {p : FlatParameter} (hp : p ∈ e'.parameters) : (f.boundedBy depth').Leaf name p.name :=
    (Built.mem_parameterNames_iff (f := f.boundedBy depth') hb hk he').1 (List.mem_map_of_mem hp)
  have hreported : ∀ path, path ∈ (summarize ((f.boundedBy depth).sightings name)).truncated ↔
      ∃ target, (f.boundedBy depth).Reached name ⟨target, path⟩ ∧ bracketDepth path = depth := by
    intro path
    rw [Built.mem_truncated_iff (f := f.boundedBy depth) hb hk he]
    refine exists_congr fun target => and_congr_right fun hreached => ?_
    exact ⟨fun hdeep => Nat.le_antisymm (hb.bracketDepth_le_of_reached hplain hreached) hdeep,
      fun hdepth => Nat.le_of_eq hdepth.symm⟩
  refine ⟨_, he, hreported, fun path hpath => ?_, fun depth' _ e' he' p hp => ?_⟩
  · obtain ⟨-, -, hdepth⟩ := (hreported path).1 hpath
    constructor
    · rintro ⟨depth', -, e', he', p, hp, hinside⟩
      exact hb.exists_reached_of_inside hplain (Nat.le_of_eq hdepth) (hleaf he' hp) hinside
    · rintro ⟨target, hreached, hholds⟩
      exact hb.exists_inside hk hreached hholds
  · rw [Built.mem_parameterNames_iff (f := f.boundedBy depth) hb hk he,
      hb.not_leaf_iff hplain (hleaf he' hp)]
    constructor
    · rintro ⟨⟨target, path⟩, hreached, hdepth, hinside⟩
      exact ⟨path, (hreported path).2 ⟨target, hreached, hdepth⟩, hinside⟩
    · rintro ⟨path, hpath, hinside⟩
      obtain ⟨target, hreached, hdepth⟩ := (hreported path).1 hpath
      exact ⟨⟨target, path⟩, hreached, hdepth, hinside⟩

end Built

/-! ## An example

A folder has a name, an owner, of which no more is known than that it is some object, and a folder
that it is in. -/

/-- The classes of the example. -/
def folders : Hierarchy where
  root := "Object"
  classes := [
    { name := "Folder", base := some "Object",
      properties := [
        { name := "name", type := "string" }, { name := "owner", type := "Object" },
        { name := "parent", type := "Folder" }] }]
  names_nodup := by decide
  root_not_mem := by decide
  base_mem := by decide

/-- The walk over the example. -/
def folderWalk : Flattening where
  declarations := ⟨folders, ⟨∅⟩⟩
  definitions := {
    root := "Object"
    definitions := Table.ofList [
      ("Folder", {
        name := "Folder"
        base := some "Object"
        abstract := false
        description := none
        properties := [
          { name := "name", shape := .value .string none none none },
          { name := "owner", shape := .reference "Object" },
          { name := "parent", shape := .reference "Folder" }]
        variants := [] })] }
  maxDepth := 4

theorem built_folderWalk : folderWalk.Built := by
  have hbelow : folders.descendants "Folder" = [] := by cbv
  have hclasses : folders.classes = [
      { name := "Folder", base := some "Object",
        properties := [
          { name := "name", type := "string" }, { name := "owner", type := "Object" },
          { name := "parent", type := "Folder" }] }] := rfl
  show (Declarations.mk folders ⟨∅⟩).defineAll.result = .ok folderWalk.definitions
  unfold Declarations.defineAll Declarations.define Declarations.variants
    Hierarchy.concreteDescendants
  rw [hclasses]
  simp only [List.mapM_cons, List.mapM_nil, hbelow]
  decide +kernel

theorem agenda_folderWalk : folderWalk.agenda "Folder" = [
    .input { name := "name", shape := .value .string none none none },
    .input { name := "owner", shape := .reference "Object" },
    .input { name := "parent", shape := .reference "Folder" }] := by
  have hbelow : folderWalk.hierarchy.concreteDescendants "Folder" = [] := by
    show folders.concreteDescendants "Folder" = _
    cbv
  have habove : folders.ancestors "Folder" = [] := by cbv
  have hline : folderWalk.lineageInputs "Folder"
      = (folders.ancestors "Folder" ++ ["Folder"]).flatMap folderWalk.inputsOf := rfl
  unfold agenda
  rw [hbelow, hline, habove]
  decide +kernel

/-- A walk that is bounded by one bracket comes to a folder, its owner and its parent. -/
theorem reached_folderWalk {place : Place} :
    (folderWalk.boundedBy 1).Reached "Folder" place ↔
      place ∈ [⟨"Folder", ""⟩, ⟨"Object", "[owner]"⟩, ⟨"Folder", "[parent]"⟩] := by
  have hhop {next : Place} : (folderWalk.boundedBy 1).Hop ⟨"Folder", ""⟩ next ↔
      next = ⟨"Object", "[owner]"⟩ ∨ next = ⟨"Folder", "[parent]"⟩ := by
    rw [built_folderWalk.hop_boundedBy_iff, and_iff_right ⟨by decide, by decide⟩]
    simp only [agenda_folderWalk, List.mem_cons, Stop.input.injEq, List.not_mem_nil, or_false]
    constructor
    · rintro ⟨p, target, rfl | rfl | rfl, shape, rfl⟩ <;> cases shape
      · exact Or.inl rfl
      · exact Or.inr rfl
    · rintro (rfl | rfl)
      · exact ⟨_, "Object", Or.inr (Or.inl rfl), rfl, rfl⟩
      · exact ⟨_, "Folder", Or.inr (Or.inr rfl), rfl, rfl⟩
  simp only [List.mem_cons, List.not_mem_nil, or_false]
  constructor
  · intro h
    induction h with
    | refl => exact Or.inl rfl
    | tail _ hlast ih =>
      rcases ih with rfl | rfl | rfl
      · exact Or.inr (hhop.1 hlast)
      · exact absurd rfl (built_folderWalk.hop_boundedBy_iff.1 hlast).1.1
      · exact absurd (built_folderWalk.hop_boundedBy_iff.1 hlast).1.2 (by decide)
  · rintro (rfl | hnext)
    · exact .refl
    · exact .single (hhop.2 hnext)

/-- The only parameter within one bracket is the name of a folder. -/
theorem eq_name_of_leaf_folderWalk {leaf : String}
    (h : (folderWalk.boundedBy 1).Leaf "Folder" leaf) : leaf = "[name]" := by
  obtain ⟨place, hreached, hleaf⟩ := h
  obtain ⟨⟨-, hlt⟩, hstop⟩ := Built.leafAt_iff.1 hleaf
  have hplaces := reached_folderWalk.1 hreached
  simp only [List.mem_cons, List.not_mem_nil, or_false] at hplaces
  obtain rfl | rfl | rfl := hplaces
  · change (∃ p, Stop.input p ∈ folderWalk.agenda "Folder" ∧ _) ∨
      Stop.discriminator ∈ folderWalk.agenda "Folder" ∧ _ at hstop
    simp only [agenda_folderWalk, List.mem_cons, Stop.input.injEq, List.not_mem_nil, or_false,
      reduceCtorEq, false_and] at hstop
    obtain ⟨p, rfl | rfl | rfl, shape, rfl⟩ := hstop
    · rfl
    · exact absurd rfl (shape "Object")
    · exact absurd rfl (shape "Folder")
  · exact absurd hlt (by decide)
  · exact absurd hlt (by decide)

/-- **A report may be in vain.** The owner and the parent of a folder are reported as cut off at
the first bracket, and of the owner nothing is: under no larger bound is there a parameter whose
name so much as starts with its path. -/
theorem nothing_beyond_folderWalk :
    folderWalk.Built ∧
      (∀ c ∈ folderWalk.hierarchy.classes, ∀ p ∈ c.properties, '[' ∉ p.name.toList) ∧
      folderWalk.hierarchy.isKnown "Folder" = true ∧
      ∃ e, (folderWalk.boundedBy 1).expand "Folder" = .ok e ∧
        "[parent]" ∈ e.truncated ∧ folderWalk.CutsOff 1 "Folder" "[parent]" ∧
        "[owner]" ∈ e.truncated ∧ ¬ folderWalk.CutsOff 1 "Folder" "[owner]" ∧
        ∀ depth' > 1, ∀ e', (folderWalk.boundedBy depth').expand "Folder" = .ok e' →
          ∀ p ∈ e'.parameters, ¬ "[owner]".toList <+: p.name.toList := by
  have hnames : ∀ c ∈ folderWalk.hierarchy.classes, ∀ p ∈ c.properties, '[' ∉ p.name.toList := by
    decide
  have hknown : folderWalk.hierarchy.isKnown "Folder" = true := by decide
  obtain ⟨e, he, hreported, hcut, hmissing⟩ := built_folderWalk.beyond_cuts hnames hknown 1
  have howner := (hreported "[owner]").2 ⟨"Object", reached_folderWalk.2 (by simp), by decide⟩
  have hparent := (hreported "[parent]").2 ⟨"Folder", reached_folderWalk.2 (by simp), by decide⟩
  have hname : Stop.input { name := "name", shape := .value .string none none none }
      ∈ folderWalk.agenda "Folder" := by
    rw [agenda_folderWalk]
    exact List.mem_cons_self
  have hbeyond : folderWalk.CutsOff 1 "Folder" "[parent]" := by
    refine (hcut _ hparent).2 ⟨"Folder", reached_folderWalk.2 (by simp), "Folder", .refl,
      by decide, _, hname, ?_⟩
    rintro target ⟨⟩
  have hnothing : ¬ folderWalk.CutsOff 1 "Folder" "[owner]" := by
    rw [hcut _ howner]
    rintro ⟨target, hreached, hholds⟩
    obtain rfl : target = "Object" := by simpa using reached_folderWalk.1 hreached
    exact folderWalk.not_holdsValues_root hholds
  refine ⟨built_folderWalk, hnames, hknown, e, he, hparent, hbeyond, howner, hnothing, ?_⟩
  intro depth' hdepth' e' he' p hp hstarts
  by_cases hwithin : p.name ∈ e.parameters.map (·.name)
  · have hleaf := (Built.mem_parameterNames_iff (f := folderWalk.boundedBy 1) built_folderWalk
      hknown he).1 hwithin
    rw [eq_name_of_leaf_folderWalk hleaf] at hstarts
    exact absurd hstarts (by decide)
  · obtain ⟨path, hpath, hinside⟩ := (hmissing depth' hdepth' e' he' p hp).1 hwithin
    obtain ⟨target, hreached, hdepth⟩ := (hreported path).1 hpath
    have hplaces := reached_folderWalk.1 hreached
    simp only [List.mem_cons, Place.mk.injEq, List.not_mem_nil, or_false] at hplaces
    obtain ⟨-, rfl⟩ | ⟨-, rfl⟩ | ⟨-, rfl⟩ := hplaces
    · exact absurd hdepth (by decide)
    · exact hnothing ⟨depth', hdepth', e', he', p, hp, hinside⟩
    · obtain ⟨rest, -, heq⟩ := hinside
      rw [heq, String.toList_append] at hstarts
      -- the two paths part at their second character
      have hfirst := List.prefix_of_prefix_length_le hstarts (List.prefix_append _ _) (by decide)
      exact absurd hfirst (by decide)

end Flattening

end SwaggerForge
