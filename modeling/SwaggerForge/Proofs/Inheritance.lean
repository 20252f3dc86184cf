import Mathlib.Data.List.Chain
import Mathlib.Logic.Relation
import SwaggerForge.Proofs.Kinship

/-!
# Inheritance, up and down

Every class has at most one base, so from a class there is one way up, and what is below a
class is a tree – unless the bases go round in circles, which an accepted list of classes may
let them do. The two traversals of a hierarchy stop at circles by different means: the way up
ends where the next base has been passed already, and the walk down leaves out what it has
found and the class that it starts from.

Both are held against one relation, that a class derives from another
(`Hierarchy.DerivesFrom`). The way up passes exactly the classes that a class derives from
(`mem_ancestors_iff`), and the walk down finds exactly the others that derive from it
(`mem_descendants_iff`). So the two are dual, but for a class on a circle. The walk down leaves
out the class that it starts from, and the way up does not: it comes round to the class and only
then finds that it has been there. Such a class is above itself and never below itself, and what
goes up from it, or up to it, has no top (`ancestors_exact`). Away from circles the walk down is
the direct subclasses followed by what is below each of them (`descendants_eq_append`).
-/

namespace SwaggerForge.Hierarchy

variable (h : Hierarchy)

/-! ## Bases -/

/-- **A class extends another** when it declares it as its base. -/
def Extends (name base : String) : Prop := ∃ c ∈ h.classes, c.name = name ∧ c.base = some base

/-- **A class derives from another** that is reached by going from base to base. -/
def DerivesFrom (name above : String) : Prop := Relation.TransGen h.Extends name above

/-- **A class on a circle** derives from itself. -/
def OnCircle (name : String) : Prop := h.DerivesFrom name name

/-- **The bases of a class run into a circle**, on which the class may be itself. -/
def RunsInCircles (name : String) : Prop :=
  ∃ x, Relation.ReflTransGen h.Extends name x ∧ h.OnCircle x

/-- **No class extends two.** -/
theorem rightUnique_extends : Relator.RightUnique h.Extends := by
  rintro name base base' ⟨c, hc, rfl, hbase⟩ ⟨c', hc', hname, hbase'⟩
  obtain rfl := List.inj_on_of_nodup_map h.names_nodup hc' hc hname
  exact Option.some.inj (hbase.symm.trans hbase')

variable {h} in
theorem extends_iff_of_mem {c : ClassDecl} (hc : c ∈ h.classes) {base : String} :
    h.Extends c.name base ↔ c.base = some base := by
  refine ⟨?_, fun hbase => ⟨c, hc, rfl, hbase⟩⟩
  rintro ⟨c', hc', hname, hbase⟩
  rwa [← List.inj_on_of_nodup_map h.names_nodup hc' hc hname]

/-- **A base is the root or a class.** -/
theorem eq_root_or_mem_names_of_extends {name base : String} (he : h.Extends name base) :
    base = h.root ∨ base ∈ h.names := by
  obtain ⟨c, hc, -, hbase⟩ := he
  exact h.base_mem c hc base hbase

theorem baseClass?_eq_some_iff {name base : String} :
    h.baseClass? name = some base ↔ h.Extends name base ∧ base ∈ h.names := by
  rw [mem_names_iff]
  constructor
  · intro hb
    unfold baseClass? at hb
    split at hb
    · cases hb
    · next c hc =>
      split at hb
      · cases hb
      · next b hbase =>
        obtain ⟨c', hc', rfl⟩ := Option.map_eq_some_iff.1 hb
        have hname := (h.mem_names_of_class? hc).1
        exact ⟨⟨c, List.mem_of_find?_eq_some hc, hname, hbase⟩, c', hc'⟩
  · rintro ⟨⟨c, hc, rfl, hbase⟩, c', hc'⟩
    unfold baseClass?
    rw [h.class?_of_mem hc]
    dsimp only
    rw [hbase]
    dsimp only
    rw [hc']
    rfl

/-- **The direct subclasses** of a class are those that extend it. -/
theorem mem_children_iff {name d : String} (hname : name ≠ h.root) :
    d ∈ h.children name ↔ h.Extends d name := by
  unfold children
  rw [if_neg hname, List.mem_map]
  constructor
  · rintro ⟨c, hc, rfl⟩
    obtain ⟨hc, hbase⟩ := List.mem_filter.1 hc
    exact ⟨c, hc, rfl, eq_of_beq hbase⟩
  · rintro ⟨c, hc, rfl, hbase⟩
    exact ⟨c, List.mem_filter.2 ⟨hc, beq_iff_eq.2 hbase⟩, rfl⟩

theorem mem_names_of_extends {name base : String} (he : h.Extends name base) :
    name ∈ h.names := by
  obtain ⟨c, hc, rfl, -⟩ := he
  exact List.mem_map.2 ⟨c, hc, rfl⟩

/-- **Two classes above one class** are the same, or one of them is above the other. -/
theorem comparable {d x y : String} (hx : h.DerivesFrom d x) (hy : h.DerivesFrom d y) :
    x = y ∨ h.DerivesFrom x y ∨ h.DerivesFrom y x := by
  have htotal := Relation.ReflTransGen.total_of_right_unique h.rightUnique_extends
    hx.to_reflTransGen hy.to_reflTransGen
  rw [Relation.reflTransGen_iff_eq_or_transGen, Relation.reflTransGen_iff_eq_or_transGen] at htotal
  rcases htotal with (rfl | hxy) | rfl | hyx
  · exact Or.inl rfl
  · exact Or.inr (Or.inl hxy)
  · exact Or.inl rfl
  · exact Or.inr (Or.inr hyx)

/-- What derives from a class goes by the base of its own. -/
theorem DerivesFrom.eq_or_of_extends {d x base : String} (hx : h.DerivesFrom d x)
    (he : h.Extends d base) : base = x ∨ h.DerivesFrom base x := by
  obtain ⟨b, hb, hbx⟩ := Relation.TransGen.head'_iff.1 hx
  obtain rfl := h.rightUnique_extends hb he
  exact (Relation.reflTransGen_iff_eq_or_transGen.1 hbx).imp_left Eq.symm

/-- **From a circle there is no way off it**: what a class on a circle leads up to leads back. -/
theorem OnCircle.derivesFrom {x y : String} (hx : h.OnCircle x)
    (hy : Relation.ReflTransGen h.Extends x y) : h.DerivesFrom y x := by
  induction hy with
  | refl => exact hx
  | tail _ he ih =>
    rcases DerivesFrom.eq_or_of_extends h ih he with rfl | hback
    · exact hx
    · exact hback

/-! ## The way up -/

/-- **How far a way up has come**: from the class that it starts from to its top, by the given
classes. -/
structure Climbed (name top : String) (chain : List String) : Prop where
  head?_eq : (chain ++ [name]).head? = some top
  /-- Each is the base of the one behind it. -/
  linked : (chain ++ [name]).IsChain fun base derived => h.Extends derived base
  nodup : chain.Nodup
  derives : ∀ a ∈ chain, h.DerivesFrom name a
  /-- The way has gone on from every class but the top. -/
  closed : ∀ x ∈ chain ++ [name], x ≠ top → ∀ base, h.baseClass? x = some base → base ∈ chain

theorem climbed_start (name : String) : h.Climbed name name [] where
  head?_eq := rfl
  linked := List.isChain_singleton name
  nodup := List.nodup_nil
  derives := fun _ ha => nomatch ha
  closed := fun _ hx hne => absurd (List.mem_singleton.1 hx) hne

section Climbed

variable {h} {name top : String} {chain : List String} (hc : h.Climbed name top chain)
include hc

/-- **Everything on the way leads up to its top**, the class that it starts from as well. -/
theorem Climbed.reach_top {x : String} (hx : x ∈ chain ++ [name]) :
    Relation.ReflTransGen h.Extends x top := by
  refine hc.linked.induction (fun x => Relation.ReflTransGen h.Extends x top) _ ?_ ?_ x hx
  · exact fun x y hxy hx => hx.head hxy
  · intro hne
    obtain rfl := Option.some.inj ((List.head?_eq_some_head hne).symm.trans hc.head?_eq)
    exact .refl

/-- The first class of the way is its top. -/
theorem Climbed.eq_top {first : String} (hfirst : chain.head? = some first) : first = top := by
  have hhead := hc.head?_eq
  rw [List.head?_append, hfirst] at hhead
  exact Option.some.inj hhead

/-- **One step up**, to a base that is not on the way yet. -/
theorem Climbed.step {base : String} (hb : h.baseClass? top = some base) (hnew : base ∉ chain) :
    h.Climbed name base (base :: chain) where
  head?_eq := rfl
  linked := by
    rw [List.cons_append, List.isChain_cons]
    refine ⟨fun y hy => ?_, hc.linked⟩
    obtain rfl := Option.some.inj (hc.head?_eq.symm.trans hy)
    exact (h.baseClass?_eq_some_iff.1 hb).1
  nodup := List.nodup_cons.2 ⟨hnew, hc.nodup⟩
  derives := by
    rw [List.forall_mem_cons]
    have hname : name ∈ chain ++ [name] := List.mem_append_right _ (List.mem_singleton.2 rfl)
    exact ⟨.tail' (hc.reach_top hname) (h.baseClass?_eq_some_iff.1 hb).1, hc.derives⟩
  closed := by
    intro x hx hne base' hbase'
    have hx := (List.mem_cons.1 hx).resolve_left hne
    by_cases htop : x = top
    · subst htop
      obtain rfl := Option.some.inj (hbase'.symm.trans hb)
      exact List.mem_cons_self
    · exact List.mem_cons_of_mem _ (hc.closed x hx htop base' hbase')

end Climbed

/-- **The way up, when it has ended**: no base of a class on it leads on. -/
theorem exists_climbed {name top : String} {chain : List String} (hc : h.Climbed name top chain) :
    ∃ top', h.Climbed name top' (h.climb chain top) ∧
      ∀ base, h.baseClass? top' = some base → base ∈ h.climb chain top := by
  induction chain, top using climb.induct h with
  | case1 chain top hb =>
    rw [h.climb_of_none hb]
    refine ⟨top, hc, fun base hb' => ?_⟩
    rw [hb] at hb'
    cases hb'
  | case2 chain top base hb hmem =>
    rw [h.climb_of_some hb, if_pos hmem]
    refine ⟨top, hc, fun base' hb' => ?_⟩
    rwa [← Option.some.inj (hb.symm.trans hb')]
  | case3 chain top base hb hmem ih =>
    rw [h.climb_of_some hb, if_neg hmem]
    exact ih (hc.step hb hmem)

/-- **Above a class is exactly what it derives from**, but for the root. -/
theorem mem_ancestors_iff {name a : String} :
    a ∈ h.ancestors name ↔ a ∈ h.names ∧ h.DerivesFrom name a := by
  obtain ⟨top, hc, hend⟩ := h.exists_climbed (h.climbed_start name)
  refine ⟨fun ha => ⟨h.mem_names_of_mem_ancestors ha, hc.derives a ha⟩, ?_⟩
  rintro ⟨hn, ha⟩
  have hclosed : ∀ x ∈ h.ancestors name ++ [name], ∀ base, h.Extends x base → base ∈ h.names →
      base ∈ h.ancestors name := by
    intro x hx base he hbase
    have hb := h.baseClass?_eq_some_iff.2 ⟨he, hbase⟩
    by_cases htop : x = top
    · exact hend base (htop ▸ hb)
    · exact hc.closed x hx htop base hb
  induction ha with
  | single he => exact hclosed name (List.mem_append_right _ (List.mem_singleton.2 rfl)) _ he hn
  | tail _ he ih =>
    exact hclosed _ (List.mem_append_left _ (ih (h.mem_names_of_extends he))) _ he hn

/-! ## The walk down -/

/-- **A walk goes through the classes in hand** one after the other. -/
theorem descend_append (top : String) (xs ys found : List String) :
    h.descend top (xs ++ ys) found = h.descend top ys (h.descend top xs found) := by
  induction xs, found using descend.induct h top with
  | case1 found =>
    rw [descend]
    rfl
  | case2 name rest found ih =>
    rw [List.cons_append, descend, descend, ← ih, List.append_assoc]

theorem mem_freshChildren_iff {top name d : String} {found : List String} :
    d ∈ h.freshChildren top found name ↔ d ∈ h.children name ∧ d ≠ top ∧ d ∉ found := by
  unfold freshChildren
  rw [List.mem_filter, Bool.and_eq_true, bne_iff_ne, Bool.not_eq_true', List.contains_eq_mem,
    decide_eq_false_iff_not]

/-- A child extends its parent, which is then not the root. -/
theorem extends_of_mem_children {name d : String} (hd : d ∈ h.children name) :
    h.Extends d name := by
  have hne : name ≠ h.root := by
    intro heq
    unfold children at hd
    rw [if_pos heq] at hd
    cases hd
  exact (h.mem_children_iff hne).1 hd

/-- **What a walk finds** derives from the class that it starts from. -/
theorem derivesFrom_of_mem_descend {top : String} {inHand found : List String}
    (hinHand : ∀ x ∈ inHand, Relation.ReflTransGen h.Extends x top)
    (hfound : ∀ x ∈ found, h.DerivesFrom x top) :
    ∀ d ∈ h.descend top inHand found, h.DerivesFrom d top := by
  induction inHand, found using descend.induct h top with
  | case1 found =>
    rw [descend]
    exact hfound
  | case2 name rest found ih =>
    obtain ⟨hname, hrest⟩ := List.forall_mem_cons.1 hinHand
    have hfresh : ∀ d ∈ h.freshChildren top found name, h.DerivesFrom d top := fun d hd =>
      .head' (h.extends_of_mem_children (h.mem_freshChildren_iff.1 hd).1) hname
    rw [descend]
    refine ih ?_ (List.forall_mem_append.2 ⟨hfound, hfresh⟩)
    exact List.forall_mem_append.2 ⟨fun d hd => (hfresh d hd).to_reflTransGen, hrest⟩

theorem derivesFrom_of_mem_descendants {name d : String} (hd : d ∈ h.descendants name) :
    h.DerivesFrom d name :=
  h.derivesFrom_of_mem_descend (List.forall_mem_singleton.2 .refl)
    (fun _ hx => absurd hx List.not_mem_nil) d hd

/-- **Nothing is missed**: a walk that has in hand whatever it found and has not gone on from
yet ends with the subclasses of all that it found. -/
theorem mem_descend_of_mem_children {top : String} {inHand found : List String}
    (hopen : ∀ x, x = top ∨ x ∈ found → x ∈ inHand ∨ ∀ d ∈ h.children x, d = top ∨ d ∈ found) :
    ∀ x, x = top ∨ x ∈ h.descend top inHand found →
      ∀ d ∈ h.children x, d = top ∨ d ∈ h.descend top inHand found := by
  induction inHand, found using descend.induct h top with
  | case1 found =>
    rw [descend]
    exact fun x hx => (hopen x hx).resolve_left List.not_mem_nil
  | case2 name rest found ih =>
    rw [descend]
    refine ih fun x hx => ?_
    have hgrown {d : String} (hd : d = top ∨ d ∈ found) :
        d = top ∨ d ∈ found ++ h.freshChildren top found name :=
      hd.imp_right (List.mem_append_left _)
    have hold (hx : x = top ∨ x ∈ found) : x ∈ h.freshChildren top found name ++ rest ∨
        ∀ d ∈ h.children x, d = top ∨ d ∈ found ++ h.freshChildren top found name := by
      rcases hopen x hx with hmem | hdone
      · rcases List.mem_cons.1 hmem with rfl | hrest
        · -- the class is taken out of hand, and its children are found
          refine Or.inr fun d hd => ?_
          by_cases hknown : d = top ∨ d ∈ found
          · exact hgrown hknown
          · obtain ⟨hne, hnew⟩ := not_or.1 hknown
            exact Or.inr (List.mem_append_right _ (h.mem_freshChildren_iff.2 ⟨hd, hne, hnew⟩))
        · exact Or.inl (List.mem_append_right _ hrest)
      · exact Or.inr fun d hd => hgrown (hdone d hd)
    rcases hx with htop | hx
    · exact hold (Or.inl htop)
    · rcases List.mem_append.1 hx with hfound | hfresh
      · exact hold (Or.inr hfound)
      · exact Or.inl (List.mem_append_left _ hfresh)

/-- **Below a class is exactly what derives from it**, but for the class itself. -/
theorem mem_descendants_iff {name d : String} (hname : name ∈ h.names) :
    d ∈ h.descendants name ↔ d ≠ name ∧ h.DerivesFrom d name := by
  constructor
  · intro hd
    refine ⟨fun heq => ?_, h.derivesFrom_of_mem_descendants hd⟩
    exact (List.nodup_cons.1 (h.nodup_descendants name)).1 (heq ▸ hd)
  · rintro ⟨hne, hd⟩
    have hclosed : ∀ x, x = name ∨ x ∈ h.descendants name →
        ∀ d ∈ h.children x, d = name ∨ d ∈ h.descendants name :=
      h.mem_descend_of_mem_children fun x hx =>
        Or.inl (List.mem_singleton.2 (hx.resolve_right List.not_mem_nil))
    refine Or.resolve_left ?_ hne
    clear hne
    -- from the class down to what derives from it
    induction hd using Relation.TransGen.head_induction_on with
    | single he =>
      have hchild := (h.mem_children_iff (h.ne_root_of_mem_names hname)).2 he
      exact hclosed name (Or.inl rfl) _ hchild
    | head he hd ih =>
      obtain ⟨_, hbase, -⟩ := Relation.TransGen.head'_iff.1 hd
      have hne := h.ne_root_of_mem_names (h.mem_names_of_extends hbase)
      exact hclosed _ ih _ ((h.mem_children_iff hne).2 he)

/-! ## Away from circles -/

section Acyclic

variable {h} {name : String} (hacyclic : ¬ h.OnCircle name)
include hacyclic

/-- What derives from a subclass is no subclass itself. -/
theorem not_extends_of_derivesFrom {x d : String} (hx : h.Extends x name)
    (hd : h.DerivesFrom d x) : ¬ h.Extends d name := by
  intro he
  refine hacyclic ?_
  rcases DerivesFrom.eq_or_of_extends h hd he with rfl | hname
  · exact Relation.TransGen.single hx
  · exact hname.tail hx

/-- **Nothing derives from two subclasses.** -/
theorem eq_of_derivesFrom {x y d : String} (hx : h.Extends x name) (hy : h.Extends y name)
    (hdx : h.DerivesFrom d x) (hdy : h.DerivesFrom d y) : x = y := by
  rcases h.comparable hdx hdy with heq | hxy | hyx
  · exact heq
  · exact absurd hx (not_extends_of_derivesFrom hacyclic hy hxy)
  · exact absurd hy (not_extends_of_derivesFrom hacyclic hx hyx)

end Acyclic

/-- **What was found before does not matter** to a walk that does not come to it, nor does the
class that the walk started from. -/
theorem descend_found_append {top top' : String} {inHand found : List String}
    {before : List String} (hbefore : ∀ x ∈ inHand, ∀ d, h.DerivesFrom d x → d ∉ before)
    (htop : ∀ x ∈ inHand, ¬ h.DerivesFrom top x) (htop' : ∀ x ∈ inHand, ¬ h.DerivesFrom top' x) :
    h.descend top inHand (before ++ found) = before ++ h.descend top' inHand found := by
  induction inHand, found using descend.induct h top' with
  | case1 found => rw [descend, descend]
  | case2 name rest found ih =>
    obtain ⟨hbefore, hbefores⟩ := List.forall_mem_cons.1 hbefore
    obtain ⟨htop, htops⟩ := List.forall_mem_cons.1 htop
    obtain ⟨htop', htops'⟩ := List.forall_mem_cons.1 htop'
    have hfresh : h.freshChildren top (before ++ found) name = h.freshChildren top' found name := by
      refine List.filter_congr fun d hd => ?_
      have hd : h.DerivesFrom d name := .single (h.extends_of_mem_children hd)
      have hne : d ≠ top := fun heq => htop (heq ▸ hd)
      have hne' : d ≠ top' := fun heq => htop' (heq ▸ hd)
      rw [bne_iff_ne.2 hne, bne_iff_ne.2 hne', List.contains_eq_mem, List.contains_eq_mem,
        decide_eq_decide.2 (List.mem_append.trans (or_iff_right (hbefore d hd)))]
    -- what derives from a child derives from its parent
    have hbelow {x d : String} (hx : x ∈ h.freshChildren top' found name)
        (hd : h.DerivesFrom d x) : h.DerivesFrom d name :=
      hd.tail (h.extends_of_mem_children (h.mem_freshChildren_iff.1 hx).1)
    rw [descend, descend, hfresh, List.append_assoc]
    refine ih ?_ ?_ ?_
    · exact List.forall_mem_append.2 ⟨fun x hx d hd => hbefore d (hbelow hx hd), hbefores⟩
    · exact List.forall_mem_append.2 ⟨fun x hx hd => htop (hbelow hx hd), htops⟩
    · exact List.forall_mem_append.2 ⟨fun x hx hd => htop' (hbelow hx hd), htops'⟩

/-- Subclasses that are in hand contribute what is below each of them. -/
theorem descend_children {name : String} (hacyclic : ¬ h.OnCircle name) {inHand found : List String}
    (hinHand : ∀ x ∈ inHand, h.Extends x name) (hnodup : inHand.Nodup)
    (hfound : ∀ x ∈ inHand, ∀ d, h.DerivesFrom d x → d ∉ found) :
    h.descend name inHand found = found ++ inHand.flatMap h.descendants := by
  induction inHand generalizing found with
  | nil => rw [descend, List.flatMap_nil, List.append_nil]
  | cons x rest ih =>
    obtain ⟨hx, hrest⟩ := List.forall_mem_cons.1 hinHand
    obtain ⟨hnew, hnodup⟩ := List.nodup_cons.1 hnodup
    obtain ⟨hfoundx, hfound⟩ := List.forall_mem_cons.1 hfound
    have hone : h.descend name [x] (found ++ []) = found ++ h.descendants x := by
      refine h.descend_found_append ?_ ?_ ?_
      · exact List.forall_mem_singleton.2 hfoundx
      · exact List.forall_mem_singleton.2 fun hd => hacyclic (hd.tail hx)
      · refine List.forall_mem_singleton.2 fun hd => hacyclic ?_
        rcases DerivesFrom.eq_or_of_extends h hd hx with rfl | hd
        · exact hd
        · exact hd.tail hx
    rw [← List.singleton_append, h.descend_append, ← List.append_nil found, hone,
      ih hrest hnodup, List.flatMap_append, List.flatMap_singleton, List.append_nil,
      List.append_assoc]
    intro y hy d hd hmem
    rcases List.mem_append.1 hmem with hmem | hmem
    · exact hfound y hy d hd hmem
    · have heq := eq_of_derivesFrom hacyclic hx (hrest y hy)
        (h.derivesFrom_of_mem_descendants hmem) hd
      exact hnew (heq ▸ hy)

/-- **Below a class that is on no circle** are its direct subclasses, followed by what is below
each of them. -/
theorem descendants_eq_append {name : String} (hacyclic : ¬ h.OnCircle name) :
    h.descendants name = h.children name ++ (h.children name).flatMap h.descendants := by
  have hfresh : h.freshChildren name [] name = h.children name := by
    refine List.filter_eq_self.2 fun d hd => ?_
    have hne : d ≠ name := by
      rintro rfl
      exact hacyclic (.single (h.extends_of_mem_children hd))
    rw [bne_iff_ne.2 hne]
    rfl
  show h.descend name [name] [] = _
  rw [descend, hfresh, List.append_nil, List.nil_append]
  refine h.descend_children hacyclic (fun x hx => h.extends_of_mem_children hx)
    (h.nodup_children name) fun x hx d hd hmem => ?_
  exact not_extends_of_derivesFrom hacyclic (h.extends_of_mem_children hx) hd
    (h.extends_of_mem_children hmem)

/-! ## Accepted lists of classes -/

/-- **A line of bases** above a class. -/
structure LineAbove (c : ClassDecl) (line : List String) : Prop where
  /-- Each is the base of the one behind it, and the last that of the class. -/
  linked : (line ++ [c.name]).IsChain fun base derived => h.Extends derived base
  nodup : line.Nodup
  root_not_mem : h.root ∉ line
  eq_nil_iff : line = [] ↔ c.base = none ∨ c.base = some h.root
  /-- Where the line is left off there is nothing new: no base but the root, or one in the line. -/
  top : ∀ top, line.head? = some top → ∀ base, h.Extends top base → base = h.root ∨ base ∈ line

theorem ancestors_eq_nil_iff {c : ClassDecl} (hc : c ∈ h.classes) :
    h.ancestors c.name = [] ↔ c.base = none ∨ c.base = some h.root := by
  have hbase : h.baseClass? c.name = none ↔ c.base = none ∨ c.base = some h.root := by
    rw [Option.eq_none_iff_forall_ne_some]
    constructor
    · intro hnone
      cases hb : c.base with
      | none => exact Or.inl rfl
      | some base =>
        rcases h.base_mem c hc base hb with rfl | hn
        · exact Or.inr rfl
        · exact absurd (h.baseClass?_eq_some_iff.2 ⟨⟨c, hc, rfl, hb⟩, hn⟩) (hnone base)
    · intro hc' base hb
      obtain ⟨he, hn⟩ := h.baseClass?_eq_some_iff.1 hb
      have hb := (extends_iff_of_mem hc).1 he
      rcases hc' with hnone | hroot
      · exact nomatch hnone.symm.trans hb
      · exact h.ne_root_of_mem_names hn (Option.some.inj (hb.symm.trans hroot))
  rw [← hbase]
  constructor
  · intro hnil
    rw [Option.eq_none_iff_forall_ne_some]
    intro base hb
    obtain ⟨he, hn⟩ := h.baseClass?_eq_some_iff.1 hb
    have hmem := h.mem_ancestors_iff.2 ⟨hn, .single he⟩
    rw [hnil] at hmem
    cases hmem
  · exact h.climb_of_none

/-- **The classes above a class** are a line of bases. -/
theorem lineAbove_ancestors {c : ClassDecl} (hc : c ∈ h.classes) :
    h.LineAbove c (h.ancestors c.name) := by
  obtain ⟨top, hclimbed, hend⟩ := h.exists_climbed (h.climbed_start c.name)
  refine {
    linked := hclimbed.linked
    nodup := hclimbed.nodup
    root_not_mem := fun hroot => h.root_not_mem (h.mem_names_of_mem_ancestors hroot)
    eq_nil_iff := h.ancestors_eq_nil_iff hc
    top := ?_ }
  intro top' htop' base he
  obtain rfl : top' = top := hclimbed.eq_top htop'
  exact (h.eq_root_or_mem_names_of_extends he).imp_right fun hn =>
    hend base (h.baseClass?_eq_some_iff.2 ⟨he, hn⟩)

/-- **The line above a class has no top exactly if the bases run in circles**: its first class then
has a base that is in the line again. -/
theorem exists_base_of_top_iff {name : String} :
    (∃ top base, (h.ancestors name).head? = some top ∧ h.Extends top base ∧ base ≠ h.root) ↔
      h.RunsInCircles name := by
  obtain ⟨top, hclimbed, hend⟩ := h.exists_climbed (h.climbed_start name)
  change h.Climbed name top (h.ancestors name) at hclimbed
  have hbase {base : String} (he : h.Extends top base) (hne : base ≠ h.root) :
      base ∈ h.ancestors name :=
    hend base (h.baseClass?_eq_some_iff.2
      ⟨he, (h.eq_root_or_mem_names_of_extends he).resolve_left hne⟩)
  constructor
  · rintro ⟨top', base, htop, he, hne⟩
    obtain rfl : top' = top := hclimbed.eq_top htop
    have hmem := hbase he hne
    exact ⟨base, (hclimbed.derives base hmem).to_reflTransGen,
      .tail' (hclimbed.reach_top (List.mem_append_left _ hmem)) he⟩
  · rintro ⟨x, hx, hcircle⟩
    have hname : name ∈ h.ancestors name ++ [name] :=
      List.mem_append_right _ (List.mem_singleton.2 rfl)
    -- the top of the way is reached from the circle, or reaches it
    have htop : h.DerivesFrom top x := by
      rcases Relation.ReflTransGen.total_of_right_unique h.rightUnique_extends hx
        (hclimbed.reach_top hname) with hup | hdown
      · exact OnCircle.derivesFrom h hcircle hup
      · exact .trans_right hdown hcircle
    obtain ⟨base, he, hback⟩ := Relation.TransGen.head'_iff.1 htop
    obtain ⟨_, hup, -⟩ := Relation.TransGen.head'_iff.1 (.trans_right hback hcircle)
    have hne : base ≠ h.root := h.ne_root_of_mem_names (h.mem_names_of_extends hup)
    have hhead := hclimbed.head?_eq
    rw [List.head?_append_of_ne_nil _ (List.ne_nil_of_mem (hbase he hne))] at hhead
    exact ⟨top, base, hhead, he, hne⟩

/-- **Above and below are dual, but for a class on a circle.** The classes above a class are a line
of bases, which starts with a class that extends nothing but the root unless the bases run in
circles, and never then. A class is above itself exactly if it is on a circle. It is never below
itself, and in this case alone a class is above another without having it below. -/
theorem ancestors_exact {root : String} {classes : List ClassDecl} {h : Hierarchy}
    (hok : ofClasses root classes = .ok h) {c : ClassDecl} (hc : c ∈ classes) :
    h.LineAbove c (h.ancestors c.name) ∧
      (c.name ∈ h.ancestors c.name ↔ h.OnCircle c.name) ∧
      ((∃ top base, (h.ancestors c.name).head? = some top ∧ h.Extends top base ∧ base ≠ h.root) ↔
        h.RunsInCircles c.name) ∧
      ∀ a ∈ classes, (a.name ∈ h.ancestors c.name ↔ c.name ∈ h.descendants a.name) ↔
        ¬ (a = c ∧ h.OnCircle c.name) := by
  obtain ⟨-, rfl⟩ := root_and_classes_of_ofClasses hok
  have hname {a : ClassDecl} (ha : a ∈ h.classes) : a.name ∈ h.names :=
    List.mem_map.2 ⟨a, ha, rfl⟩
  refine ⟨h.lineAbove_ancestors hc, ?_, h.exists_base_of_top_iff, fun a ha => ?_⟩
  · rw [h.mem_ancestors_iff, and_iff_right (hname hc)]
    rfl
  · rw [h.mem_ancestors_iff, h.mem_descendants_iff (hname ha), and_iff_right (hname ha)]
    constructor
    · rintro hdual ⟨rfl, hcircle⟩
      exact (hdual.1 hcircle).1 rfl
    · intro hcircle
      refine (and_iff_right_of_imp fun hderives heq => hcircle ?_).symm
      obtain rfl := List.inj_on_of_nodup_map h.names_nodup hc ha heq
      exact ⟨rfl, hderives⟩

/-- **What is below a class**: each class that derives from it, once, and never the class
itself; the concrete ones among them in the same order; and away from circles the direct
subclasses before what is below each of them. Nothing below a class is on a circle unless the
class is, so that it is enough to ask for the class. -/
theorem descendants_exact {root : String} {classes : List ClassDecl} {h : Hierarchy}
    (hok : ofClasses root classes = .ok h) {c : ClassDecl} (hc : c ∈ classes) :
    (∀ d, d ∈ h.descendants c.name ↔ d ≠ c.name ∧ h.DerivesFrom d c.name) ∧
      (c.name :: h.descendants c.name).Nodup ∧
      (h.concreteDescendants c.name).Sublist (h.descendants c.name) ∧
      (∀ d ∈ classes, d.name ∈ h.concreteDescendants c.name ↔
        d.name ∈ h.descendants c.name ∧ d.abstract = false) ∧
      (¬ h.OnCircle c.name → h.descendants c.name
        = h.children c.name ++ (h.children c.name).flatMap h.descendants) := by
  obtain ⟨-, rfl⟩ := root_and_classes_of_ofClasses hok
  have hn : c.name ∈ h.names := List.mem_map.2 ⟨c, hc, rfl⟩
  refine ⟨fun d => h.mem_descendants_iff hn, h.nodup_descendants c.name, List.filter_sublist,
    fun d hd => ?_, h.descendants_eq_append⟩
  unfold concreteDescendants
  rw [List.mem_filter, h.isConcrete_of_mem hd, Bool.not_eq_true']

/-! ## An example

A hen comes from an egg and an egg from a hen, and a chick from an egg. -/

/-- The classes of the example. -/
def coop : List ClassDecl := [
  { name := "Hen", base := some "Egg" },
  { name := "Egg", base := some "Hen", abstract := true },
  { name := "Chick", base := some "Egg" },
  { name := "Pullet", base := some "Chick" }]

/-- The hierarchy of the example. -/
def coopHierarchy : Hierarchy where
  root := "Object"
  classes := coop
  names_nodup := by decide
  root_not_mem := by decide
  base_mem := by decide

theorem ofClasses_coop : ofClasses "Object" coop = .ok coopHierarchy := rfl

/-- **On a circle** a class is above itself, though not below itself. -/
theorem not_dual_coop :
    ofClasses "Object" coop = .ok coopHierarchy ∧ ∃ c ∈ coop,
      coopHierarchy.LineAbove c (coopHierarchy.ancestors c.name) ∧
      c.name ∈ coopHierarchy.ancestors c.name ∧
      (∃ top base, (coopHierarchy.ancestors c.name).head? = some top ∧
        coopHierarchy.Extends top base ∧ base ≠ coopHierarchy.root) ∧
      ¬ (c.name ∈ coopHierarchy.ancestors c.name ↔ c.name ∈ coopHierarchy.descendants c.name) := by
  have hegg : coopHierarchy.Extends "Hen" "Egg" := ⟨coop[0], by decide, rfl, rfl⟩
  have hhen : coopHierarchy.Extends "Egg" "Hen" := ⟨coop[1], by decide, rfl, rfl⟩
  have hcircle : coopHierarchy.OnCircle "Hen" := .tail (.single hegg) hhen
  obtain ⟨hline, hself, htop, hdual⟩ := ancestors_exact ofClasses_coop (c := coop[0]) (by decide)
  exact ⟨ofClasses_coop, coop[0], by decide, hline, hself.2 hcircle,
    htop.2 ⟨"Hen", .refl, hcircle⟩, fun hboth => (hdual coop[0] (by decide)).1 hboth ⟨rfl, hcircle⟩⟩

theorem descendants_exact_coop :
    ∃ c ∈ coop, (∀ d, d ∈ coopHierarchy.descendants c.name ↔
        d ≠ c.name ∧ coopHierarchy.DerivesFrom d c.name) ∧
      coopHierarchy.descendants c.name = coopHierarchy.children c.name
        ++ (coopHierarchy.children c.name).flatMap coopHierarchy.descendants := by
  have habove : coopHierarchy.ancestors "Chick" = ["Hen", "Egg"] := by cbv
  have hcircle : ¬ coopHierarchy.OnCircle "Chick" := by
    intro hcircle
    have hmem := coopHierarchy.mem_ancestors_iff.2 ⟨by decide, hcircle⟩
    rw [habove] at hmem
    exact absurd hmem (by decide)
  obtain ⟨hbelow, -, -, -, happend⟩ := descendants_exact ofClasses_coop (c := coop[2]) (by decide)
  exact ⟨coop[2], by decide, hbelow, happend hcircle⟩

end SwaggerForge.Hierarchy
