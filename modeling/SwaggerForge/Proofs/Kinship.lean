import Mathlib.Data.List.Nodup
import SwaggerForge.Hierarchy

/-!
# Kin are classes

What the traversals of a hierarchy find are classes of it: descendants,
ancestors and variants all have declarations. A name that denotes a reference
is that of a class or of the root, and the root is neither above nor below
anything.
-/

namespace SwaggerForge

theorem Primitive.ofName?_eq_file {name : String} (h : ofName? name = some .file) :
    name = "file" := by
  unfold ofName? at h
  split at h <;> first | rfl | cases h

theorem Primitive.ofName?_eq_array {name : String} (h : ofName? name = some .array) :
    name = "array" := by
  unfold ofName? at h
  split at h <;> first | rfl | cases h

namespace Hierarchy

variable (h : Hierarchy)

/-- **A name has a class** exactly when it is one of the names. -/
theorem mem_names_iff {name : String} : name ∈ h.names ↔ ∃ c, h.class? name = some c := by
  constructor
  · intro hn
    obtain ⟨c, hc, rfl⟩ := List.mem_map.1 hn
    have hsome : (h.classes.find? (·.name == c.name)).isSome :=
      List.find?_isSome.2 ⟨c, hc, beq_self_eq_true _⟩
    exact Option.isSome_iff_exists.1 hsome
  · rintro ⟨c, hc⟩
    exact (h.mem_names_of_class? hc).2

/-- **A known name** is the root's or that of a class. -/
theorem isKnown_iff {name : String} : h.isKnown name = true ↔ name = h.root ∨ name ∈ h.names := by
  unfold isKnown
  rw [Bool.or_eq_true, beq_iff_eq, Option.isSome_iff_exists, mem_names_iff]

theorem isKnown_of_mem_names {name : String} (hn : name ∈ h.names) : h.isKnown name = true :=
  h.isKnown_iff.2 (Or.inr hn)

theorem ne_root_of_mem_names {name : String} (hn : name ∈ h.names) : name ≠ h.root :=
  fun e => h.root_not_mem (e ▸ hn)

/-- **A reference** is a known name that means no primitive type. -/
theorem isReference_iff {type : String} :
    h.isReference type = true ↔ Primitive.ofName? type = none ∧ h.isKnown type = true := by
  unfold isReference Primitive.isName
  rw [Bool.and_eq_true, Bool.not_eq_true', Option.isSome_eq_false_iff, Option.isNone_iff_eq_none]

/-- The name that is resolved to a reference is one. -/
theorem isReference_of_resolve {type context target : String}
    (hr : h.resolve type context = .ok (.reference target)) : h.isReference target = true := by
  rw [isReference_iff]
  unfold resolve at hr
  split at hr
  · cases hr
  · next hnone =>
    split at hr
    · next hk =>
      cases hr
      exact ⟨hnone, hk⟩
    · cases hr

/-- The name that is resolved to a reference is known. -/
theorem isKnown_of_resolve {type context target : String}
    (hr : h.resolve type context = .ok (.reference target)) : h.isKnown target = true :=
  (h.isReference_iff.1 (h.isReference_of_resolve hr)).2

/-- A reference keeps the name it is resolved from. -/
theorem eq_of_resolve {type context target : String}
    (hr : h.resolve type context = .ok (.reference target)) : target = type := by
  unfold resolve at hr
  split at hr
  · cases hr
  · split at hr
    · cases hr
      rfl
    · cases hr

/-- A name that is resolved to a primitive type is its name. -/
theorem ofName?_of_resolve {type context : String} {ty : Primitive}
    (hr : h.resolve type context = .ok (.primitive ty)) : Primitive.ofName? type = some ty := by
  unfold resolve at hr
  split at hr
  · next hty =>
    cases hr
    exact hty
  · split at hr
    · cases hr
    · cases hr

/-- **A name of a primitive type** is resolved to it. -/
theorem resolve_of_ofName? {type : String} {ty : Primitive}
    (htype : Primitive.ofName? type = some ty) (context : String) :
    h.resolve type context = .ok (.primitive ty) := by
  unfold resolve
  rw [htype]

/-- A base that is resolved is known, whatever it is resolved to. -/
theorem isKnown_of_base {c : ClassDecl} (hc : c ∈ h.classes) {b : String} (hb : c.base = some b) :
    h.isKnown b = true :=
  h.isKnown_iff.2 (h.base_mem c hc b hb)

/-- **An accepted list** keeps its root and its classes. -/
theorem root_and_classes_of_ofClasses {root : String} {classes : List ClassDecl} {h : Hierarchy}
    (hok : ofClasses root classes = .ok h) : h.root = root ∧ h.classes = classes := by
  unfold ofClasses at hok
  split at hok
  · cases hok
  · split at hok
    · cases hok
    · rw [← Except.ok.inj hok]
      exact ⟨rfl, rfl⟩

/-! ## Above and below -/

theorem mem_descend {top : String} {inHand found : List String} {d : String}
    (hd : d ∈ h.descend top inHand found) : d ∈ found ∨ d ∈ h.names := by
  induction inHand, found using descend.induct h top with
  | case1 found => exact Or.inl (by rwa [descend] at hd)
  | case2 name rest found ih =>
    rw [descend] at hd
    rcases ih hd with hf | hn
    · rcases List.mem_append.1 hf with hin | hfresh
      · exact Or.inl hin
      · exact Or.inr (h.mem_names_of_mem_children (List.mem_filter.1 hfresh).1)
    · exact Or.inr hn

/-- **What is below a class is a class.** -/
theorem mem_names_of_mem_descendants {name d : String} (hd : d ∈ h.descendants name) :
    d ∈ h.names :=
  (h.mem_descend hd).resolve_left List.not_mem_nil

theorem mem_descendants_of_mem_concrete {name d : String}
    (hd : d ∈ h.concreteDescendants name) : d ∈ h.descendants name :=
  (List.mem_filter.1 hd).1

/-- **A variant below a class is a class.** -/
theorem mem_names_of_mem_concrete {name d : String} (hd : d ∈ h.concreteDescendants name) :
    d ∈ h.names :=
  h.mem_names_of_mem_descendants (h.mem_descendants_of_mem_concrete hd)

theorem nodup_children (name : String) : (h.children name).Nodup := by
  unfold children
  split
  · exact List.nodup_nil
  · exact h.names_nodup.sublist (List.filter_sublist.map _)

/-- **The walk down finds each class once**, and never the class that it starts from. -/
theorem nodup_descend {top : String} {inHand found : List String} (hn : (top :: found).Nodup) :
    (top :: h.descend top inHand found).Nodup := by
  induction inHand, found using descend.induct h top with
  | case1 found =>
    rw [descend]
    exact hn
  | case2 name rest found ih =>
    rw [descend]
    refine ih ?_
    have hfresh {d : String} (hd : d ∈ h.freshChildren top found name) : d ≠ top ∧ d ∉ found := by
      have hd := (List.mem_filter.1 hd).2
      rw [Bool.and_eq_true, bne_iff_ne, Bool.not_eq_true', List.contains_eq_mem,
        decide_eq_false_iff_not] at hd
      exact hd
    rw [← List.cons_append]
    refine List.nodup_append.2 ⟨hn, (h.nodup_children name).filter _, fun d hd d' hd' heq => ?_⟩
    subst heq
    rcases List.mem_cons.1 hd with htop | hfound
    · exact (hfresh hd').1 htop
    · exact (hfresh hd').2 hfound

/-- **The classes below a class** are all different, and it is none of them. -/
theorem nodup_descendants (name : String) : (name :: h.descendants name).Nodup :=
  h.nodup_descend (List.nodup_singleton name)

/-- **Something concrete is below a class.** -/
def HasConcrete (name : String) : Prop :=
  ∃ c ∈ h.classes, c.name ∈ h.descendants name ∧ c.abstract = false

theorem class?_of_mem {c : ClassDecl} (hc : c ∈ h.classes) : h.class? c.name = some c := by
  obtain ⟨c', hc'⟩ := h.mem_names_iff.1 (List.mem_map.2 ⟨c, hc, rfl⟩)
  have hname := (h.mem_names_of_class? hc').1
  rw [hc', List.inj_on_of_nodup_map h.names_nodup (List.mem_of_find?_eq_some hc') hc hname]

theorem isConcrete_of_mem {c : ClassDecl} (hc : c ∈ h.classes) :
    h.isConcrete c.name = !c.abstract := by
  unfold isConcrete
  rw [h.class?_of_mem hc]

theorem hasConcrete_iff {name : String} :
    h.HasConcrete name ↔ h.concreteDescendants name ≠ [] := by
  constructor
  · rintro ⟨c, hc, hbelow, hconcrete⟩
    refine List.ne_nil_of_mem (List.mem_filter.2 ⟨hbelow, ?_⟩)
    rw [h.isConcrete_of_mem hc, hconcrete]
    rfl
  · intro hne
    obtain ⟨d, hd⟩ := List.exists_mem_of_ne_nil _ hne
    obtain ⟨hbelow, hconcrete⟩ := List.mem_filter.1 hd
    obtain ⟨c, hc, rfl⟩ := List.mem_map.1 (h.mem_names_of_mem_descendants hbelow)
    rw [h.isConcrete_of_mem hc, Bool.not_eq_true'] at hconcrete
    exact ⟨c, hc, hbelow, hconcrete⟩

/-- Without a base class the way up ends. -/
theorem climb_of_none {chain : List String} {name : String} (hb : h.baseClass? name = none) :
    h.climb chain name = chain := by
  rw [climb, hb]

/-- **One step up**: to the base, unless the way has come past it. -/
theorem climb_of_some {chain : List String} {name b : String} (hb : h.baseClass? name = some b) :
    h.climb chain name = if b ∈ chain then chain else h.climb (b :: chain) b := by
  rw [climb, hb]

theorem mem_climb {chain : List String} {name a : String} (ha : a ∈ h.climb chain name) :
    a ∈ chain ∨ a ∈ h.names := by
  induction chain, name using climb.induct h with
  | case1 chain name hb =>
    rw [h.climb_of_none hb] at ha
    exact Or.inl ha
  | case2 chain name b hb hmem =>
    rw [h.climb_of_some hb, if_pos hmem] at ha
    exact Or.inl ha
  | case3 chain name b hb hmem ih =>
    rw [h.climb_of_some hb, if_neg hmem] at ha
    rcases ih ha with hin | hn
    · rcases List.mem_cons.1 hin with rfl | hc
      · exact Or.inr (h.mem_names_of_baseClass? hb)
      · exact Or.inl hc
    · exact Or.inr hn

/-- **What is above a class is a class.** -/
theorem mem_names_of_mem_ancestors {name a : String} (ha : a ∈ h.ancestors name) : a ∈ h.names :=
  (h.mem_climb ha).resolve_left List.not_mem_nil

/-! ## The root -/

/-- **Nothing is above the root.** -/
theorem ancestors_root : h.ancestors h.root = [] := by
  have hnone : h.class? h.root = none := by
    by_contra hsome
    obtain ⟨c, hc⟩ := Option.ne_none_iff_exists'.1 hsome
    exact h.root_not_mem (h.mem_names_of_class? hc).2
  refine h.climb_of_none ?_
  unfold baseClass?
  rw [hnone]

/-- **Nothing is below the root** to speak of. -/
theorem concreteDescendants_root : h.concreteDescendants h.root = [] := by
  have hfresh : h.freshChildren h.root [] h.root = [] := by
    unfold freshChildren children
    rw [if_pos rfl]
    rfl
  unfold concreteDescendants descendants
  rw [descend, hfresh]
  show (h.descend h.root [] []).filter h.isConcrete = []
  rw [descend]
  rfl

end Hierarchy

end SwaggerForge
