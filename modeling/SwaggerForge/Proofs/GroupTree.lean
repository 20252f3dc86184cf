import SwaggerForge.Proofs.SharedKeys

/-!
# The groups of an operation are a tree of prefixes

Flattened parameters are shown in groups. The paths of the groups come in the order in which a
walk meets the parameters, so a group may be asked for before those it sits in, and again by
another parameter. What comes out does not depend on that: the roots stand for the parameters of
class types in order, the other groups are those of the flattened parameters with all that is in
front of a bracket of theirs, each of them once, and each sits directly in the group of its parent
path (`ParameterGroup.PrefixTree`).

The invariant is carried through each request for a group (`ParameterGroup.Grown.ensure`) by
induction on the way from the root to the path: where the group is missing, the one above it has
been made sure of, and nothing else is missing. A group and where it sits are looked at together,
as a **site**, and putting a group in adds one site (`ParameterGroup.perm_allSites_attachIn`).
-/

namespace SwaggerForge

open Json

/-! ## Bracket paths and their parents -/

/-- **A text without brackets**, on one line. -/
def BracketFree (text : String) : Prop := ∀ c ∈ text.toList, c ≠ '[' ∧ c ≠ ']' ∧ c ≠ '\n'

instance (text : String) : Decidable (BracketFree text) :=
  List.decidableBAll (fun c => c ≠ '[' ∧ c ≠ ']' ∧ c ≠ '\n') text.toList

/-- **A name that can be a segment** of a bracket path. -/
def SegmentName (name : String) : Prop := name ≠ "" ∧ BracketFree name

instance (name : String) : Decidable (SegmentName name) :=
  inferInstanceAs (Decidable (name ≠ "" ∧ BracketFree name))

/-- **The paths under a root**, one segment after the other. -/
inductive Under (root : String) : String → Prop
  | root : Under root root
  | segment {path name : String} (above : Under root path) (named : SegmentName name) :
      Under root (childPath path name)

/-- **A prefix of a bracket path**: the path, or what is in front of one of its opening
brackets. -/
def BracketPrefix (front path : String) : Prop :=
  front = path ∨ ∃ rest, path.toList = front.toList ++ '[' :: rest

theorem append_childPath (root path name : String) :
    root ++ childPath path name = childPath (root ++ path) name := by
  unfold childPath
  simp only [String.append_assoc]

/-- The last number below a bound that is found is the greatest. -/
theorem find?_reverse_range {p : Nat → Bool} {n i : Nat} (hi : i < n) (hp : p i = true)
    (hbehind : ∀ j, i < j → j < n → p j = false) : (List.range n).reverse.find? p = some i := by
  induction n with
  | zero => cases hi
  | succ n ih =>
    rw [List.range_succ, List.reverse_append, List.reverse_singleton, List.singleton_append,
      List.find?_cons]
    rcases Nat.lt_succ_iff_lt_or_eq.1 hi with hlt | rfl
    · rw [hbehind n hlt (Nat.lt_succ_self n)]
      exact ih hlt fun j hj hjn => hbehind j hj (Nat.lt_succ_of_lt hjn)
    · rw [hp]

/-- **The last segment of a path** begins behind all that is in front of it on one line. -/
theorem parentPath_childPath {path name : String} (hpath : '\n' ∉ path.toList)
    (hname : SegmentName name) : parentPath (childPath path name) = some path := by
  have hlist := toList_childPath path name
  rw [← List.singleton_append (l := name.toList ++ _), ← List.append_assoc,
    ← List.append_assoc] at hlist
  have hbody : (childPath path name).toList.dropLast = path.toList ++ '[' :: name.toList := by
    rw [hlist, List.dropLast_concat, List.append_assoc, List.singleton_append]
  have hbegins : segmentStartsAt (path.toList ++ '[' :: name.toList) path.toList.length = true := by
    have hbracket : ']' ∉ name.toList := fun h => (hname.2 _ h).2.1 rfl
    have hne : name.toList ≠ [] := fun h => hname.1 (String.toList_eq_nil_iff.1 h)
    have hbehind : (path.toList ++ '[' :: name.toList).drop (path.toList.length + 1)
        = name.toList := by
      rw [List.drop_append, List.drop_of_length_le (Nat.le_succ _), Nat.add_sub_cancel_left]
      rfl
    unfold segmentStartsAt
    rw [hbehind, List.take_left, List.getElem?_append_right (Nat.le_refl _), Nat.sub_self]
    simp [hne, hbracket, hpath]
  have hlast : lastSegment? (path.toList ++ '[' :: name.toList) = some path.toList.length := by
    refine find?_reverse_range ?_ hbegins fun j hj _ => ?_
    · rw [List.length_append, List.length_cons]
      omega
    · -- behind the bracket there is only the name
      have hchar : (path.toList ++ '[' :: name.toList)[j]? ≠ some '[' := by
        rw [List.getElem?_append_right (Nat.le_of_lt hj)]
        obtain ⟨k, hk⟩ := Nat.exists_eq_succ_of_ne_zero (Nat.sub_ne_zero_of_lt hj)
        rw [hk, List.getElem?_cons_succ]
        exact fun h => (hname.2 _ (List.mem_of_getElem? h)).1 rfl
      unfold segmentStartsAt
      rw [decide_eq_false hchar]
      rfl
  unfold parentPath
  rw [if_pos (by rw [hlist, List.getLast?_concat])]
  dsimp only
  rw [hbody, hlast, Option.map_some, List.take_left, String.ofList_toList]

/-- A path that ends in no segment has no parent. -/
theorem BracketFree.parentPath {text : String} (h : BracketFree text) :
    parentPath text = none := by
  refine if_neg fun hlast => ?_
  exact (h _ (List.mem_of_getLast? hlast)).2.1 rfl

/-! ## Prefixes -/

theorem BracketPrefix.refl (path : String) : BracketPrefix path path := Or.inl rfl

theorem BracketPrefix.trans {a b c : String} (hab : BracketPrefix a b) (hbc : BracketPrefix b c) :
    BracketPrefix a c := by
  rcases hab with rfl | ⟨rest, hrest⟩
  · exact hbc
  · rcases hbc with rfl | ⟨rest', hrest'⟩
    · exact Or.inr ⟨rest, hrest⟩
    · refine Or.inr ⟨rest ++ '[' :: rest', ?_⟩
      rw [hrest', hrest, List.append_assoc, List.cons_append]

theorem BracketPrefix.bracketDepth_le {front path : String} (h : BracketPrefix front path) :
    bracketDepth front ≤ bracketDepth path := by
  rcases h with rfl | ⟨rest, hrest⟩
  · exact Nat.le_refl _
  · unfold bracketDepth
    rw [hrest, List.count_append]
    exact Nat.le_add_right _ _

/-- **What is in front of a bracket of a child** is the path or in front of a bracket of it. -/
theorem bracketPrefix_childPath {front path name : String} (hname : BracketFree name) :
    BracketPrefix front (childPath path name) ↔
      front = childPath path name ∨ BracketPrefix front path := by
  refine or_congr_right ?_
  rw [toList_childPath]
  constructor
  · rintro ⟨rest, hrest⟩
    rcases List.append_eq_append_iff.1 hrest with ⟨mid, hfront, hmid⟩ | ⟨mid, hpath, hmid⟩
    · cases mid with
      | nil => exact Or.inl (String.toList_injective (by rw [hfront, List.append_nil]))
      | cons c mid =>
        -- a bracket further on would be one of the name
        have hmem : '[' ∈ name.toList ++ [']'] := by
          rw [(List.cons.inj hmid).2]
          exact List.mem_append_right _ List.mem_cons_self
        rcases List.mem_append.1 hmem with hmem | hmem
        · exact absurd rfl (hname _ hmem).1
        · cases List.mem_singleton.1 hmem
    · cases mid with
      | nil => exact Or.inl (String.toList_injective (by rw [hpath, List.append_nil]))
      | cons c mid =>
        obtain ⟨rfl, -⟩ := List.cons.inj hmid
        exact Or.inr ⟨mid, hpath⟩
  · rintro (rfl | ⟨rest, hrest⟩)
    · exact ⟨_, rfl⟩
    · exact ⟨rest ++ '[' :: (name.toList ++ [']']), by rw [hrest, List.append_assoc]; rfl⟩

theorem bracketPrefix_of_bracketFree {front path : String} (hpath : BracketFree path) :
    BracketPrefix front path ↔ front = path := by
  refine or_iff_left ?_
  rintro ⟨rest, hrest⟩
  refine (hpath '[' ?_).1 rfl
  rw [hrest]
  exact List.mem_append_right _ List.mem_cons_self

namespace Under

variable {root path : String} (hroot : BracketFree root) (h : Under root path)
include hroot h

theorem newline_not_mem : '\n' ∉ path.toList := by
  induction h with
  | root => exact fun hmem => (hroot _ hmem).2.2 rfl
  | segment above named ih =>
    rw [toList_childPath]
    simp only [List.mem_append, List.mem_cons, List.not_mem_nil, or_false, not_or]
    exact ⟨ih, by decide, fun hmem => (named.2 _ hmem).2.2 rfl, by decide⟩

/-- A prefix without brackets is the root. -/
theorem eq_root_of_bracketPrefix {front : String} (hfront : BracketFree front)
    (hbefore : BracketPrefix front path) : front = root := by
  induction h with
  | root => exact (bracketPrefix_of_bracketFree hroot).1 hbefore
  | @segment path name above named ih =>
    rcases (bracketPrefix_childPath named.2).1 hbefore with rfl | habove
    · refine absurd rfl (hfront '[' ?_).1
      rw [toList_childPath]
      exact List.mem_append_right _ List.mem_cons_self
    · exact ih habove

end Under

/-! ## Where groups sit -/

namespace ParameterGroup

mutual

/-- **The sites of a group**: its name and those of the groups inside it, each with the name of the
group that it sits in directly. -/
def sites (above : Option String) : ParameterGroup → List (Option String × String)
  | mk n _ _ gs => (above, n) :: allSites (some n) gs

/-- The sites of a forest whose roots sit in the given group, if in any. -/
def allSites (above : Option String) : List ParameterGroup → List (Option String × String)
  | [] => []
  | g :: rest => g.sites above ++ allSites above rest

end

theorem allSites_append (above : Option String) (gs hs : List ParameterGroup) :
    allSites above (gs ++ hs) = allSites above gs ++ allSites above hs := by
  induction gs with
  | nil => rw [allSites, List.nil_append, List.nil_append]
  | cons g rest ih => rw [List.cons_append, allSites, allSites, ih, List.append_assoc]

/-- A forest of one group with nothing in it. -/
theorem allSites_singleton (above : Option String) (n : String) (d : Option String)
    (s : Option Json) : allSites above [mk n d s []] = [(above, n)] := by
  rw [allSites, sites, allSites, allSites, List.append_nil]

mutual

theorem map_snd_sites (above : Option String) :
    ∀ g : ParameterGroup, (g.sites above).map Prod.snd = g.names
  | mk n d s gs => by
    rw [sites, names, List.map_cons, map_snd_allSites (some n) gs]

/-- **Every group has one site.** -/
theorem map_snd_allSites (above : Option String) :
    ∀ gs : List ParameterGroup, (allSites above gs).map Prod.snd = allNames gs
  | [] => by rw [allSites, allNames, List.map_nil]
  | g :: rest => by
    rw [allSites, allNames, List.map_append, map_snd_sites above g, map_snd_allSites above rest]

end

mutual

theorem holds_iff {name : String} : ∀ {g : ParameterGroup}, g.holds name = true ↔ name ∈ g.names
  | mk n d s gs => by
    rw [holds, names, Bool.or_eq_true, beq_iff_eq, List.mem_cons, anyHolds_iff, eq_comm]

/-- **A forest holds a name** exactly when one of its groups has it. -/
theorem anyHolds_iff {name : String} :
    ∀ {gs : List ParameterGroup}, anyHolds name gs = true ↔ name ∈ allNames gs
  | [] => by
    rw [anyHolds, allNames]
    exact iff_of_false Bool.false_ne_true List.not_mem_nil
  | g :: rest => by
    rw [anyHolds, allNames, Bool.or_eq_true, List.mem_append, holds_iff, anyHolds_iff]

end

/-! ## Putting a group in -/

theorem name_attach (parent : String) (child g : ParameterGroup) :
    (attach parent child g).name = g.name := by
  cases g with
  | mk n d s gs =>
    rw [attach]
    split <;> rfl

/-- The roots stay as they are. -/
theorem map_name_attachIn (parent : String) (child : ParameterGroup) (gs : List ParameterGroup) :
    (attachIn parent child gs).map name = gs.map name := by
  induction gs with
  | nil => rw [attachIn]
  | cons g rest ih =>
    rw [attachIn]
    split
    · rw [List.map_cons, List.map_cons, name_attach]
    · rw [List.map_cons, List.map_cons, ih]

mutual

theorem perm_sites_attach {parent n : String} (above : Option String) :
    ∀ {g : ParameterGroup}, parent ∈ g.names →
      ((attach parent (named n) g).sites above).Perm ((some parent, n) :: g.sites above)
  | mk m d s gs, h => by
    rw [attach]
    split
    · next hm =>
      subst hm
      rw [sites, sites, allSites_append, named, allSites_singleton]
      exact ((List.perm_append_singleton _ _).cons _).trans (List.Perm.swap _ _ _)
    · next hm =>
      rw [names] at h
      have hinside := (List.mem_cons.1 h).resolve_left (Ne.symm hm)
      rw [sites, sites]
      exact ((perm_allSites_attachIn (some m) hinside).cons _).trans (List.Perm.swap _ _ _)

/-- **Putting a group in** adds one site, if the group to hold it is there. -/
theorem perm_allSites_attachIn {parent n : String} (above : Option String) :
    ∀ {gs : List ParameterGroup}, parent ∈ allNames gs →
      (allSites above (attachIn parent (named n) gs)).Perm
        ((some parent, n) :: allSites above gs)
  | [], h => by
    rw [allNames] at h
    cases h
  | g :: rest, h => by
    rw [attachIn]
    split
    · next hholds =>
      rw [allSites, allSites]
      exact (perm_sites_attach above (holds_iff.1 hholds)).append_right _
    · next hholds =>
      rw [allNames] at h
      have hrest := (List.mem_append.1 h).resolve_left fun hg => hholds (holds_iff.2 hg)
      rw [allSites, allSites]
      exact ((perm_allSites_attachIn above hrest).append_left _).trans List.perm_middle

end

/-! ## Trees of prefixes -/

/-- **A forest that is a tree of prefixes** of given paths under given roots. -/
structure PrefixTree (roots paths : List String) (gs : List ParameterGroup) : Prop where
  /-- The roots are the given ones, in order. -/
  roots_eq : gs.map name = roots
  /-- No two groups have one name. -/
  nodup : (allNames gs).Nodup
  /-- **Every group sits directly in the group of its parent path**, and one that has none is a
  root. -/
  placed : ∀ e ∈ allSites none gs, e.1 = parentPath e.2
  /-- The groups are the roots and all prefixes of the paths. -/
  mem_iff : ∀ name, name ∈ allNames gs ↔ name ∈ roots ∨ ∃ path ∈ paths, BracketPrefix name path

/-- A tree of prefixes as it grows: its paths are paths under its roots. -/
structure Grown (roots paths : List String) (gs : List ParameterGroup) : Prop
    extends PrefixTree roots paths gs where
  bracketFree : ∀ root ∈ roots, BracketFree root
  under : ∀ path ∈ paths, ∃ root ∈ roots, Under root path

theorem Grown.nil : Grown [] [] [] where
  roots_eq := rfl
  nodup := by rw [allNames]; exact List.nodup_nil
  placed := by rw [allSites]; exact fun _ he => nomatch he
  mem_iff := fun name => by
    rw [allNames]
    exact iff_of_false List.not_mem_nil (not_or.2 ⟨List.not_mem_nil, fun ⟨_, h, _⟩ => nomatch h⟩)
  bracketFree := fun _ h => nomatch h
  under := fun _ h => nomatch h

namespace Grown

variable {roots paths : List String} {gs : List ParameterGroup} (h : Grown roots paths gs)
include h

/-- **A new root** is put behind the others. -/
theorem append_root {n : String} (hnew : n ∉ roots) (hfree : BracketFree n) (d : Option String)
    (s : Option Json) : Grown (roots ++ [n]) paths (gs ++ [.mk n d s []]) := by
  have hsites : allSites none (gs ++ [.mk n d s []]) = allSites none gs ++ [(none, n)] := by
    rw [allSites_append, allSites_singleton]
  have hnames : allNames (gs ++ [.mk n d s []]) = allNames gs ++ [n] := by
    rw [← map_snd_allSites none, hsites, List.map_append, map_snd_allSites none]
    rfl
  -- a prefix without brackets is a root
  have hfresh : n ∉ allNames gs := by
    rw [h.mem_iff]
    rintro (hn | ⟨path, hpath, hbefore⟩)
    · exact hnew hn
    · obtain ⟨root, hroot, hunder⟩ := h.under path hpath
      exact hnew (hunder.eq_root_of_bracketPrefix (h.bracketFree root hroot) hfree hbefore ▸ hroot)
  refine ⟨⟨?_, ?_, ?_, fun name => ?_⟩, ?_, fun path hpath => ?_⟩
  · rw [List.map_append, h.roots_eq]
    rfl
  · rw [hnames]
    exact (List.perm_append_singleton n _).nodup_iff.2 (List.nodup_cons.2 ⟨hfresh, h.nodup⟩)
  · rw [hsites, List.forall_mem_append, List.forall_mem_singleton]
    exact ⟨h.placed, hfree.parentPath.symm⟩
  · rw [hnames, List.mem_append, List.mem_append, h.mem_iff, or_right_comm]
  · rw [List.forall_mem_append, List.forall_mem_singleton]
    exact ⟨h.bracketFree, hfree⟩
  · obtain ⟨root, hroot, hunder⟩ := h.under path hpath
    exact ⟨root, List.mem_append_left _ hroot, hunder⟩

/-- With a group all its prefixes are there. -/
theorem mem_of_bracketPrefix {front path : String} (hpath : path ∈ allNames gs)
    (hbefore : BracketPrefix front path) : front ∈ allNames gs := by
  rcases (h.mem_iff path).1 hpath with hroot | ⟨longer, hlonger, hlong⟩
  · rwa [(bracketPrefix_of_bracketFree (h.bracketFree path hroot)).1 hbefore]
  · exact (h.mem_iff front).2 (Or.inr ⟨longer, hlonger, hbefore.trans hlong⟩)

/-- A path whose group is there changes nothing. -/
theorem append_path {root path : String} (hroot : root ∈ roots) (hunder : Under root path)
    (hthere : path ∈ allNames gs) : Grown roots (paths ++ [path]) gs := by
  refine ⟨⟨h.roots_eq, h.nodup, h.placed, fun name => ?_⟩, h.bracketFree, ?_⟩
  · constructor
    · intro hname
      refine ((h.mem_iff name).1 hname).imp_right ?_
      rintro ⟨longer, hlonger, hbefore⟩
      exact ⟨longer, List.mem_append_left _ hlonger, hbefore⟩
    · rintro (hname | ⟨longer, hlonger, hbefore⟩)
      · exact (h.mem_iff name).2 (Or.inl hname)
      · rcases List.mem_append.1 hlonger with hlonger | hlonger
        · exact (h.mem_iff name).2 (Or.inr ⟨longer, hlonger, hbefore⟩)
        · obtain rfl := List.mem_singleton.1 hlonger
          exact h.mem_of_bracketPrefix hthere hbefore
  · rw [List.forall_mem_append, List.forall_mem_singleton]
    exact ⟨h.under, root, hroot, hunder⟩

omit h in
/-- **A new group** is put into the one of its parent path, which has just been made sure of. -/
theorem attachIn {path n : String} (h : Grown roots (paths ++ [path]) gs) {root : String}
    (hroot : root ∈ roots) (hunder : Under root path) (hn : SegmentName n)
    (hnew : childPath path n ∉ allNames gs) :
    Grown roots (paths ++ [childPath path n])
      (attachIn path (named (childPath path n)) gs) := by
  have hparent : parentPath (childPath path n) = some path :=
    parentPath_childPath (hunder.newline_not_mem (h.bracketFree root hroot)) hn
  have hthere : path ∈ allNames gs := (h.mem_iff path).2
    (Or.inr ⟨path, List.mem_append_right _ (List.mem_singleton.2 rfl), .refl path⟩)
  have hsites := perm_allSites_attachIn (n := childPath path n) none hthere
  have hnames : (allNames (ParameterGroup.attachIn path (named (childPath path n)) gs)).Perm
      (childPath path n :: allNames gs) := by
    rw [← map_snd_allSites none, ← map_snd_allSites none]
    exact hsites.map Prod.snd
  refine ⟨⟨?_, ?_, fun e he => ?_, fun name => ?_⟩, h.bracketFree, ?_⟩
  · rw [map_name_attachIn, h.roots_eq]
  · exact hnames.nodup_iff.2 (List.nodup_cons.2 ⟨hnew, h.nodup⟩)
  · rcases List.mem_cons.1 (hsites.mem_iff.1 he) with rfl | he
    · exact hparent.symm
    · exact h.placed e he
  · rw [hnames.mem_iff, List.mem_cons, h.mem_iff]
    simp only [List.mem_append, List.mem_singleton, or_and_right, exists_or, exists_eq_left,
      bracketPrefix_childPath hn.2]
    exact or_left_comm.trans (or_congr_right or_left_comm)
  · rw [List.forall_mem_append, List.forall_mem_singleton]
    exact ⟨(List.forall_mem_append.1 h.under).1, root, hroot, .segment hunder hn⟩

/-- **A group that is asked for** is there afterwards with all its prefixes, and nothing else is
new. -/
theorem ensure {root path : String} (hroot : root ∈ roots) (hunder : Under root path) :
    Grown roots (paths ++ [path]) (ensure path gs) := by
  induction hunder with
  | root =>
    have hthere : root ∈ allNames gs := (h.mem_iff root).2 (Or.inl hroot)
    rw [ParameterGroup.ensure, if_pos (anyHolds_iff.2 hthere)]
    exact h.append_path hroot .root hthere
  | @segment path n above named ih =>
    rw [ParameterGroup.ensure]
    by_cases hthere : childPath path n ∈ allNames gs
    · rw [if_pos (anyHolds_iff.2 hthere)]
      exact h.append_path hroot (.segment above named) hthere
    · have hparent : parentPath (childPath path n) = some path :=
        parentPath_childPath (above.newline_not_mem (h.bracketFree root hroot)) named
      rw [if_neg fun hholds => hthere (anyHolds_iff.1 hholds), hparent]
      refine ih.attachIn hroot above named fun hmem => ?_
      -- making sure of the groups above has not brought it in: it is deeper than all of them
      rcases (ih.mem_iff _).1 hmem with hroots | ⟨longer, hlonger, hbefore⟩
      · exact hthere ((h.mem_iff _).2 (Or.inl hroots))
      · rcases List.mem_append.1 hlonger with hlonger | hlonger
        · exact hthere ((h.mem_iff _).2 (Or.inr ⟨longer, hlonger, hbefore⟩))
        · obtain rfl := List.mem_singleton.1 hlonger
          exact absurd (bracketDepth_lt_childPath longer n) (Nat.not_lt.2 hbefore.bracketDepth_le)

/-- **Groups that are asked for one after the other.** -/
theorem foldl_ensure {more : List String} (hmore : ∀ path ∈ more, ∃ root ∈ roots, Under root path) :
    Grown roots (paths ++ more)
      (more.foldl (fun gs path => ParameterGroup.ensure path gs) gs) := by
  induction more generalizing paths gs with
  | nil =>
    rw [List.append_nil]
    exact h
  | cons path rest ih =>
    obtain ⟨⟨root, hroot, hunder⟩, hrest⟩ := List.forall_mem_cons.1 hmore
    rw [List.append_cons]
    exact ih (h.ensure hroot hunder) hrest

end Grown

end ParameterGroup

/-! ## The groups of flattened parameters -/

namespace Flattening

variable {f : Flattening} (hb : f.Built)
  (hsegments : ∀ c ∈ f.hierarchy.classes, ∀ p ∈ c.properties, SegmentName p.name)
include hb hsegments

/-- The properties that the compiler adds have names that can be segments, too. -/
theorem segmentName_of_settable {member : String} {p : DefinedProperty}
    (h : f.Settable member p) : SegmentName p.name := by
  obtain ⟨d, hd, hp, -⟩ := h
  obtain ⟨c, hc, -, hdef⟩ := (Declarations.get?_eq_some_iff hb).1 hd
  rcases Declarations.mem_properties _ hdef hp with hdisc | horder | ⟨q, hq, r, hr, rfl⟩
  · rw [Declarations.name_of_mem_discriminator hdisc]
    decide
  · rw [Declarations.name_of_mem_addedOrderBy horder]
    decide
  · rw [Declarations.name_withOrderBy, hr.name_eq]
    exact hsegments c hc q hq

theorem under_of_reached (root : String) {name : String} {place : Place}
    (h : f.Reached name place) : Under root (root ++ place.path) := by
  induction h with
  | refl =>
    show Under root (root ++ "")
    rw [String.append_empty]
    exact .root
  | tail _ hop ih =>
    cases hop with
    | along enters shows settable shape =>
      rw [append_childPath]
      exact ih.segment (segmentName_of_settable hb hsegments settable)

/-- **A leaf is shown in the group of its place.** -/
theorem exists_group_of_leaf {root : String} (hroot : BracketFree root) {name leaf : String}
    (h : f.Leaf name leaf) : ∃ group, parentPath (root ++ leaf) = some group ∧ Under root group := by
  obtain ⟨place, hreached, hleaf⟩ := h
  have hunder := under_of_reached hb hsegments root hreached
  have hsegment : ∃ n, SegmentName n ∧ leaf = childPath place.path n := by
    cases hleaf with
    | value enters shows settable =>
      exact ⟨_, segmentName_of_settable hb hsegments settable, rfl⟩
    | discriminator => exact ⟨discriminatorName, by decide, rfl⟩
  obtain ⟨n, hn, rfl⟩ := hsegment
  refine ⟨_, ?_, hunder⟩
  rw [append_childPath]
  exact parentPath_childPath (hunder.newline_not_mem hroot) hn

end Flattening

/-! ## The groups of an operation -/

theorem FlatParameter.field?_group (p : FlatParameter) :
    p.toJson.field? "x-group" = p.group.map .string := by
  have henum (e : EnumValues) : e.fields.lookup "x-group" = none :=
    field?_fields_eq_none e.mem_fieldNames (by decide)
  have hgroup : (optional "x-group" (p.group.map .string)).lookup "x-group"
      = p.group.map .string := by
    cases p.group <;> rfl
  show List.lookup "x-group" (_ ++ _ ++ _ ++ _ ++ _ ++ _) = _
  rw [List.lookup_append, List.lookup_append, List.lookup_append, List.lookup_append,
    List.lookup_append, hgroup, lookup_optional_of_ne (by decide),
    lookup_optional_of_ne (by decide), lookup_optional_of_ne (by decide), Option.or_none]
  split
  · exact Option.none_or
  · rw [henum]
    exact Option.none_or

/-- **The groups of an operation** are written unless there are none. -/
theorem Operation.field?_parameterGroups (o : Operation) :
    o.toJson.field? "x-parameterGroups"
      = if o.groups = [] then none else some (.array (ParameterGroup.allToJson o.groups)) := by
  unfold Operation.toJson
  cases hgroups : o.groups with
  | nil =>
    cases o.description <;> cases o.deprecated <;> cases o.beta <;> cases o.sessionRequired <;> rfl
  | cons g rest => cases o.description <;> cases o.deprecated <;> cases o.beta <;> rfl

namespace OperationContext

variable {ctx : OperationContext}

section Grown

variable (hb : ctx.flattening.Built)
  (hsegments : ∀ c ∈ ctx.hierarchy.classes, ∀ p ∈ c.properties, SegmentName p.name)
include hb hsegments

/-- Every parameter that is flattened is shown in a group under its root. -/
theorem exists_group_of_expand {p : Parameter} (hfree : BracketFree p.name)
    (hreference : ctx.hierarchy.isReference p.type = true) {e : Expansion}
    (he : ctx.flattening.expand p.type = .ok e) :
    ∀ flat ∈ e.parameters.map (FlatParameter.qualified p.name),
      ∃ group, flat.group = some group ∧ Under p.name group := by
  rw [List.forall_mem_map]
  intro flat hflat
  have hk := (ctx.hierarchy.isReference_iff.1 hreference).2
  exact Flattening.exists_group_of_leaf hb hsegments hfree (hb.leaf_of_mem_parameters hk he hflat)

/-- **The groups of parameters that become parts one after the other** grow as a tree of
prefixes. -/
theorem grown_foldl_addGroups {a : Action} {ps : List Parameter} {parts : List QueryPart}
    (each : List.Forall₂ (ctx.QueryPartOf a) ps parts) (hfree : ∀ p ∈ ps, BracketFree p.name)
    {roots paths : List String} {gs : List ParameterGroup}
    (h : ParameterGroup.Grown roots paths gs) (hnames : (roots ++ ps.map (·.name)).Nodup) :
    ParameterGroup.Grown
      (roots ++ (ps.filter fun p => ctx.hierarchy.isReference p.type).map (·.name))
      (paths ++ (parts.flatMap QueryPart.shared).filterMap (·.2.group))
      (parts.foldl QueryPart.addGroups gs) := by
  induction each generalizing roots paths gs with
  | nil =>
    rw [List.filter_nil, List.map_nil, List.append_nil, List.flatMap_nil, List.filterMap_nil,
      List.append_nil]
    exact h
  | @cons p part ps parts hpart _ ih =>
    obtain ⟨hp, hfree⟩ := List.forall_mem_cons.1 hfree
    have hfilter : (p :: ps).filter (fun p => ctx.hierarchy.isReference p.type)
        = if ctx.hierarchy.isReference p.type = true
          then p :: ps.filter (fun p => ctx.hierarchy.isReference p.type)
          else ps.filter fun p => ctx.hierarchy.isReference p.type := List.filter_cons
    have hrest : (roots ++ ps.map (·.name)).Nodup :=
      hnames.sublist ((List.sublist_cons_self _ _).append_left _)
    rw [List.foldl_cons, List.flatMap_cons, List.filterMap_append]
    cases hpart with
    | omitted named =>
      rw [hfilter, if_neg fun hr => nomatch (ctx.hierarchy.isReference_iff.1 hr).1.symm.trans named]
      exact ih hfree h hrest
    | inline named =>
      rw [hfilter, if_neg fun hr => nomatch (ctx.hierarchy.isReference_iff.1 hr).1.symm.trans named]
      exact ih hfree h hrest
    | @flattened e reference expanded =>
      rw [List.map_cons, List.append_cons] at hnames
      have hnew : p.name ∉ roots := fun hmem =>
        (List.nodup_append.1 (List.nodup_append.1 hnames).1).2.2 _ hmem _
          (List.mem_singleton.2 rfl) rfl
      have hroot := h.append_root hnew hp (some ("Object Type: `" ++ p.type ++ "`"))
        (some (definitionRef p.type))
      have hshared : (QueryPart.flattened p
          (e.parameters.map (FlatParameter.qualified p.name))).shared.filterMap (·.2.group)
          = (e.parameters.map (FlatParameter.qualified p.name)).filterMap (·.group) :=
        List.filterMap_map
      rw [hfilter, if_pos reference, List.map_cons, List.append_cons roots, hshared,
        ← List.append_assoc]
      refine ih hfree (hroot.foldl_ensure fun path hpath => ?_) hnames
      obtain ⟨flat, hflat, hgroup⟩ := List.mem_filterMap.1 hpath
      obtain ⟨group, hsome, hunder⟩ :=
        exists_group_of_expand hb hsegments hp reference expanded flat hflat
      obtain rfl := Option.some.inj (hsome.symm.trans hgroup)
      exact ⟨p.name, List.mem_append_right _ (List.mem_singleton.2 rfl), hunder⟩

theorem prefixTree_of_operationOf {s : Service} {a : Action} {o : PlacedOperation}
    (ho : ctx.OperationOf s a o) (hstyle : ctx.styleOf a = .query)
    (hnames : (a.parameters.map (·.name)).Nodup)
    (hfree : ∀ p ∈ a.parameters, BracketFree p.name) :
    ParameterGroup.PrefixTree
      ((a.parameters.filter fun p => ctx.hierarchy.isReference p.type).map (·.name))
      (o.shared.filterMap (·.2.group)) o.operation.groups := by
  cases ho with
  | body style => exact nomatch hstyle.symm.trans style
  | @query parts responses style each answers =>
    have hgrown := grown_foldl_addGroups hb hsegments each hfree .nil hnames
    rw [List.nil_append, List.nil_append] at hgrown
    exact hgrown.toPrefixTree

end Grown

/-- **The groups of an operation are a tree of prefixes.** In query style the roots are the
parameters of class types, in order, and the other groups are those that flattened parameters are
shown in, with all their prefixes. They are what the operation writes, and each flattened parameter
is shown in one of them. -/
theorem prefixTree_of_operation {config : Config} {schema : Schema}
    (hctx : (OperationContext.ofSchema config schema).result = .ok ctx)
    (hclasses : ∀ c ∈ schema.classes, ∀ p ∈ c.properties, SegmentName p.name) {s : Service}
    {a : Action} (hstyle : ctx.styleOf a = .query) (hnames : (a.parameters.map (·.name)).Nodup)
    (hfree : ∀ p ∈ a.parameters, BracketFree p.name) {cache : ExpansionCache}
    (hcache : ExpansionCache.Sound ctx.flattening cache) {o : PlacedOperation}
    (ho : ((ctx.operation s a).run cache).1.result = .ok o) :
    ParameterGroup.PrefixTree
      ((a.parameters.filter fun p => ctx.hierarchy.isReference p.type).map (·.name))
      (o.shared.filterMap (·.2.group)) o.operation.groups ∧
    o.operation.toJson.field? "x-parameterGroups" = (if o.operation.groups = [] then none
      else some (.array (ParameterGroup.allToJson o.operation.groups))) ∧
    ∀ e ∈ o.shared, ∃ group, e.2.toJson.field? "x-group" = some (.string group) ∧
      group ∈ ParameterGroup.allNames o.operation.groups := by
  have hof := OperationContext.of_ofSchema hctx
  have hsegments : ∀ c ∈ ctx.hierarchy.classes, ∀ p ∈ c.properties, SegmentName p.name := by
    rw [(Hierarchy.root_and_classes_of_ofClasses hof.hierarchy).2]
    exact hclasses
  have hyields := ctx.yields_operation s a
  rw [hyields.transparent.result cache hcache] at ho
  have hoperation := hyields.of_fresh o ho
  have htree := prefixTree_of_operationOf hof.built hsegments hoperation hstyle hnames hfree
  refine ⟨htree, o.operation.field?_parameterGroups, fun e he => ?_⟩
  obtain ⟨key, flat⟩ := e
  have hmem := he
  rw [shared_of_operationOf hoperation] at hmem
  obtain ⟨-, p, hp, hreference, e, hexpand, q, hq, rfl, -⟩ := mem_sharedBy.1 hmem
  obtain ⟨group, hgroup, -⟩ := exists_group_of_expand hof.built hsegments (hfree p hp) hreference
    hexpand _ (List.mem_map_of_mem hq)
  refine ⟨group, ?_, (htree.mem_iff group).2 (Or.inr ⟨group, ?_, .refl group⟩)⟩
  · rw [FlatParameter.field?_group, hgroup]
    rfl
  · exact List.mem_filterMap.2 ⟨_, he, hgroup⟩

/-- A pet is shown with its owner in a group inside. -/
theorem prefixTree_enrol : ∃ o,
    ((shelterContext.operation shelter enrol).run ∅).1.result = .ok o ∧
    ParameterGroup.PrefixTree ["pet"] (o.shared.filterMap (·.2.group)) o.operation.groups ∧
    "pet[owner]" ∈ ParameterGroup.allNames o.operation.groups := by
  have hb : shelterContext.flattening.Built := Flattening.built_petWalk
  have hpasses : Passes (shelterContext.operation shelter enrol).fresh :=
    (shelterContext.passes_operation hb).2 (by decide)
  obtain ⟨o, ho⟩ := hpasses
  obtain ⟨htree, -, hshown⟩ := prefixTree_of_operation ofSchema_shelterSchema (by decide) rfl
    (by decide) (by decide) (ExpansionCache.sound_empty _) ho
  refine ⟨o, ho, htree, ?_⟩
  -- the name of the owner is a leaf of an animal
  have howner : Flattening.petWalk.Hop ⟨"Animal", ""⟩ ⟨"Person", "[owner]"⟩ :=
    .along (p := { name := "owner", shape := .reference "Person" })
      ⟨by decide, by decide⟩ .self ⟨_, rfl, List.mem_cons_of_mem _ (List.mem_singleton.2 rfl), rfl⟩
      rfl
  have hleaf : Flattening.petWalk.Leaf "Animal" "[owner][name]" :=
    ⟨_, .single howner, .value (p := { name := "name", shape := .value .string none none none })
      ⟨by decide, by decide⟩ .self ⟨_, rfl, List.mem_cons_self, rfl⟩ rfl fun _ h => nomatch h⟩
  have hknown : Flattening.petWalk.hierarchy.isKnown "Animal" = true := by decide
  obtain ⟨e, he⟩ : ∃ e, Flattening.petWalk.expand "Animal" = .ok e :=
    ⟨_, Flattening.built_petWalk.expand_eq hknown⟩
  obtain ⟨flat, hflat, hname⟩ :=
    List.mem_map.1 ((Flattening.built_petWalk.mem_parameterNames_iff hknown he).2 hleaf)
  have hshared : (QueryPart.sharedKey animal (flat.qualified "pet"), flat.qualified "pet")
      ∈ o.shared := by
    rw [shared_of_operationOf ((shelterContext.yields_operation shelter enrol).of_fresh o ho)]
    exact mem_sharedBy.2 ⟨rfl, animal, List.mem_singleton.2 rfl, by decide, e, he, flat, hflat,
      rfl, rfl⟩
  obtain ⟨group, hgroup, hmem⟩ := hshown _ hshared
  rw [FlatParameter.field?_group, FlatParameter.qualified, hname,
    show parentPath ("pet" ++ "[owner][name]") = some "pet[owner]" by decide] at hgroup
  obtain rfl := Json.string.inj (Option.some.inj hgroup)
  exact hmem

end OperationContext

end SwaggerForge
