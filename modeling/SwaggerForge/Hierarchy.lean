import SwaggerForge.Primitive
import SwaggerForge.Schema.Basic

/-!
# The class hierarchy

The classes of a schema with the questions one asks of inheritance: what a
name denotes, which classes are below a class and which are above.

A `Hierarchy` is an accepted list of classes: their names are distinct, none
is the name of the root, and every base is a class or the root. Bases may go
round in circles. Both traversals therefore keep account of the classes they
have met and stop when there is nothing new: the number of classes not yet
met decreases.
-/

namespace SwaggerForge

/-- **An accepted list of classes** over a root. -/
structure Hierarchy where
  /-- The name that every line of bases ends in; it is no class. -/
  root : String
  /-- The classes, in order of declaration. -/
  classes : List ClassDecl
  names_nodup : (classes.map (·.name)).Nodup
  root_not_mem : root ∉ classes.map (·.name)
  base_mem : ∀ c ∈ classes, ∀ b, c.base = some b → b = root ∨ b ∈ classes.map (·.name)

/-- What a type name denotes. -/
inductive Denotation where
  | primitive (type : Primitive)
  /-- A class or the root. -/
  | reference (name : String)
deriving DecidableEq, Repr

namespace Hierarchy

/-! ## Which lists of classes are accepted -/

/-- The first name that is the root's or that of an earlier class. -/
def nameFault? (root : String) : List String → List ClassDecl → Option SchemaFault
  | _, [] => none
  | seen, c :: rest =>
    if c.name = root then some (.rootCollision c.name)
    else if c.name ∈ seen then some (.duplicateClass c.name)
    else nameFault? root (c.name :: seen) rest

/-- The fault of a class whose base is neither the root nor among the given
names. -/
def baseFaultOf? (root : String) (names : List String) (c : ClassDecl) : Option SchemaFault :=
  match c.base with
  | none => none
  | some b => if b = root ∨ b ∈ names then none else some (.missingBase b c.name)

/-- The first base that does not exist. -/
def baseFault? (root : String) (classes : List ClassDecl) : Option SchemaFault :=
  classes.findSome? (baseFaultOf? root (classes.map (·.name)))

theorem of_nameFault?_eq_none {root : String} {seen : List String} {cs : List ClassDecl}
    (h : nameFault? root seen cs = none) :
    (cs.map (·.name)).Nodup ∧ root ∉ cs.map (·.name) ∧ ∀ n ∈ cs.map (·.name), n ∉ seen := by
  induction cs generalizing seen with
  | nil => simp
  | cons c rest ih =>
    unfold nameFault? at h
    split at h
    · simp at h
    · next hroot =>
      split at h
      · simp at h
      · next hseen =>
        obtain ⟨hnd, hr, hs⟩ := ih h
        refine ⟨?_, ?_, ?_⟩
        · rw [List.map_cons, List.nodup_cons]
          exact ⟨fun hm => (hs _ hm) List.mem_cons_self, hnd⟩
        · rw [List.map_cons, List.mem_cons]
          rintro (e | hm)
          · exact hroot e.symm
          · exact hr hm
        · intro n hn
          rw [List.map_cons, List.mem_cons] at hn
          rcases hn with rfl | hn
          · exact hseen
          · exact fun hm => hs n hn (List.mem_cons_of_mem _ hm)

theorem of_baseFault?_eq_none {root : String} {cs : List ClassDecl}
    (h : baseFault? root cs = none) :
    ∀ c ∈ cs, ∀ b, c.base = some b → b = root ∨ b ∈ cs.map (·.name) := by
  intro c hc b hb
  have := List.findSome?_eq_none_iff.1 h c hc
  simp only [baseFaultOf?, hb] at this
  split at this
  · assumption
  · simp at this

/-- **The hierarchy of declared classes**, or the first fault of the list. -/
def ofClasses (root : String) (classes : List ClassDecl) : Except Failure Hierarchy :=
  match hn : nameFault? root [] classes with
  | some fault => .error (.malformedSchema fault)
  | none =>
    match hb : baseFault? root classes with
    | some fault => .error (.malformedSchema fault)
    | none =>
      .ok {
        root
        classes
        names_nodup := (of_nameFault?_eq_none hn).1
        root_not_mem := (of_nameFault?_eq_none hn).2.1
        base_mem := of_baseFault?_eq_none hb }

variable (h : Hierarchy)

/-! ## What a name denotes -/

/-- The names of the classes, in order of declaration. -/
def names : List String := h.classes.map (·.name)

/-- The class of a name. -/
def class? (name : String) : Option ClassDecl := h.classes.find? (·.name == name)

/-- The class of a name, which must exist. -/
def resolveClass (name : String) : Except Failure ClassDecl :=
  match h.class? name with
  | some c => .ok c
  | none => .error (.malformedSchema (.missingClass name))

/-- Whether a name is that of a class or of the root. -/
def isKnown (name : String) : Bool := name == h.root || (h.class? name).isSome

/-- Whether a type name refers to a class or the root. A name that is that of a
primitive type means the primitive type. -/
def isReference (type : String) : Bool := !Primitive.isName type && h.isKnown type

/-- **What a type name denotes**; `context` says where it stands. -/
def resolve (type context : String) : Except Failure Denotation :=
  match Primitive.ofName? type with
  | some ty => .ok (.primitive ty)
  | none =>
    if h.isKnown type then .ok (.reference type)
    else .error (.malformedSchema (.unresolvableType type context))

/-! ## Traversals -/

/-- How many classes are not yet among those met. -/
def unmet (met : List String) : Nat := (h.names.filter fun n => !met.contains n).length

/-- A class that is met makes fewer unmet. -/
theorem unmet_lt {met met' : List String} (hsub : ∀ n ∈ met, n ∈ met') {d : String}
    (hd : d ∈ h.names) (hnew : d ∉ met) (hmet : d ∈ met') : h.unmet met' < h.unmet met := by
  have key : ∀ l : List String, d ∈ l →
      (l.filter fun n => !met'.contains n).length < (l.filter fun n => !met.contains n).length := by
    have le : ∀ l : List String,
        (l.filter fun n => !met'.contains n).length
          ≤ (l.filter fun n => !met.contains n).length := by
      intro l
      induction l with
      | nil => simp
      | cons x rest ih =>
        by_cases hx' : x ∈ met'
        · by_cases hx : x ∈ met
          · simpa [List.filter_cons, hx, hx'] using ih
          · simp only [List.filter_cons, List.contains_eq_mem, hx', hx, decide_true, decide_false,
              Bool.not_true, Bool.not_false, if_true, Bool.false_eq_true, if_false,
              List.length_cons]
            simp only [List.contains_eq_mem] at ih
            omega
        · have hx : x ∉ met := fun hm => hx' (hsub x hm)
          simpa [List.filter_cons, hx, hx'] using ih
    intro l hl
    induction l with
    | nil => simp at hl
    | cons x rest ih =>
      by_cases hxd : x = d
      · subst hxd
        have := le rest
        simp only [List.contains_eq_mem] at this
        simp only [List.filter_cons, List.contains_eq_mem, hmet, hnew, decide_true, decide_false,
          Bool.not_true, Bool.not_false, if_true, Bool.false_eq_true, if_false, List.length_cons]
        omega
      · have hd' : d ∈ rest := by
          rcases List.mem_cons.1 hl with e | hm
          · exact absurd e.symm hxd
          · exact hm
        have ih := ih hd'
        simp only [List.contains_eq_mem] at ih
        by_cases hx' : x ∈ met'
        · by_cases hx : x ∈ met
          · simpa [List.filter_cons, hx, hx'] using ih
          · simp only [List.filter_cons, List.contains_eq_mem, hx', hx, decide_true, decide_false,
              Bool.not_true, Bool.not_false, if_true, Bool.false_eq_true, if_false,
              List.length_cons]
            omega
        · have hx : x ∉ met := fun hm => hx' (hsub x hm)
          simpa [List.filter_cons, hx, hx'] using ih
  exact key h.names hd

theorem mem_names_of_class? {name : String} {c : ClassDecl} (hc : h.class? name = some c) :
    c.name = name ∧ name ∈ h.names := by
  have hn : c.name = name := by simpa using List.find?_some hc
  exact ⟨hn, hn ▸ List.mem_map.2 ⟨c, List.mem_of_find?_eq_some hc, rfl⟩⟩

/-- **The direct subclasses** of a class, in order of declaration. The root has
none to speak of. -/
def children (name : String) : List String :=
  if name = h.root then [] else (h.classes.filter (·.base == some name)).map (·.name)

theorem mem_names_of_mem_children {name d : String} (hd : d ∈ h.children name) : d ∈ h.names := by
  unfold children at hd
  split at hd
  · simp at hd
  · obtain ⟨c, hc, rfl⟩ := List.mem_map.1 hd
    exact List.mem_map.2 ⟨c, (List.mem_filter.1 hc).1, rfl⟩

/-- The direct subclasses of `name` that are neither `top` nor found yet. -/
def freshChildren (top : String) (found : List String) (name : String) : List String :=
  (h.children name).filter fun d => d != top && !found.contains d

theorem unmet_append_freshChildren {top : String} {found : List String} {name : String}
    (hne : h.freshChildren top found name ≠ []) :
    h.unmet (found ++ h.freshChildren top found name) < h.unmet found := by
  obtain ⟨d, hd⟩ := List.exists_mem_of_ne_nil _ hne
  have hd' := List.mem_filter.1 hd
  refine h.unmet_lt (fun n hn => List.mem_append_left _ hn) (h.mem_names_of_mem_children hd'.1)
    ?_ (List.mem_append_right _ hd)
  have := hd'.2
  simp only [Bool.and_eq_true, Bool.not_eq_true', List.contains_eq_mem, decide_eq_false_iff_not]
    at this
  exact this.2

/-- **Walks down from the classes in hand**, in front those to be walked next.
The new children of a class are found all at once, and then the subtree of
each is walked in turn. -/
def descend (top : String) : List String → List String → List String
  | [], found => found
  | name :: rest, found =>
    descend top (h.freshChildren top found name ++ rest) (found ++ h.freshChildren top found name)
termination_by inHand found => (h.unmet found, inHand.length)
decreasing_by
  by_cases he : h.freshChildren top found name = []
  · rw [he]; simp only [List.append_nil, List.nil_append]
    exact Prod.Lex.right _ (by simp)
  · exact Prod.Lex.left _ _ (h.unmet_append_freshChildren he)

/-- **All classes below a class**: its direct subclasses, and then the subtree of
each. A class is not below itself. -/
def descendants (name : String) : List String := h.descend name [name] []

/-- Whether a name is that of a class with instances of its own. -/
def isConcrete (name : String) : Bool :=
  match h.class? name with
  | some c => !c.abstract
  | none => false

/-- The classes below a class that have instances of their own. -/
def concreteDescendants (name : String) : List String :=
  (h.descendants name).filter h.isConcrete

/-- The base of a class, if it is a class. -/
def baseClass? (name : String) : Option String :=
  match h.class? name with
  | none => none
  | some c =>
    match c.base with
    | none => none
    | some b => (h.class? b).map fun _ => b

theorem mem_names_of_baseClass? {name b : String} (hb : h.baseClass? name = some b) :
    b ∈ h.names := by
  unfold baseClass? at hb
  split at hb
  · simp at hb
  · split at hb
    · simp at hb
    · next b' _ =>
      obtain ⟨c, hc, rfl⟩ := Option.map_eq_some_iff.1 hb
      exact (h.mem_names_of_class? hc).2

/-- Walks up from a class, behind whose bases the given ones come. -/
def climb (chain : List String) (name : String) : List String :=
  match _hb : h.baseClass? name with
  | none => chain
  | some b => if b ∈ chain then chain else climb (b :: chain) b
termination_by h.unmet chain
decreasing_by
  next hnew =>
    exact h.unmet_lt (fun n hn => List.mem_cons_of_mem _ hn) (h.mem_names_of_baseClass? _hb) hnew
      List.mem_cons_self

/-- **All classes above a class**, from the topmost down to its base. -/
def ancestors (name : String) : List String := h.climb [] name

end Hierarchy

end SwaggerForge
