import SwaggerForge.Proofs.Cache
import SwaggerForge.Proofs.Tables

/-!
# The cache shows in notes alone

A step that uses the cache of expansions has the result it would have without one
(`Cached.Transparent`), but it does not note the same: the cuts of a class are noted when
the class is flattened, and a class in the cache is not flattened again. A step is
**incremental** (`Cached.Incremental`) when that is all the difference: from a sound cache
it notes what it notes from the empty one, less the cuts of the classes in the cache, and
the classes it adds to the cache are those it flattens on its own. Taking an expansion is
such a step, and steps made of incremental ones are incremental.

A row of such steps, each with the cache that the one before has left (`Cached.runEach`), can
then be read off step by step (`Cached.getElem?_runEach`), and no cut is noted twice
(`Cached.nodup_cuts_runEach`).
-/

namespace SwaggerForge

/-! ## Cuts among notes -/

namespace Diagnostic

/-- The class and the path of a cut. -/
def cut? : Diagnostic → Option (String × String)
  | truncated root path => some (root, path)
  | missing _ _ _ => none

/-- Whether a diagnostic is a cut in the flattening of one of the given classes. -/
def cutsIn (classes : List String) (d : Diagnostic) : Bool :=
  d.cut?.any fun cut => classes.contains cut.1

theorem cutsIn_eq_true {classes : List String} {d : Diagnostic} :
    d.cutsIn classes = true ↔ ∃ cut, d.cut? = some cut ∧ cut.1 ∈ classes := by
  simp only [cutsIn, Option.any_eq_true, List.contains_iff_mem]

theorem cutsIn_append {classes more : List String} {d : Diagnostic} :
    d.cutsIn (classes ++ more) = (d.cutsIn classes || d.cutsIn more) := by
  cases h : d.cut? with
  | none => simp only [cutsIn, h, Option.any_none, Bool.or_false]
  | some cut => simp only [cutsIn, h, Option.any_some, List.contains_append]

end Diagnostic

/-- The cuts among notes. -/
def cutsOf (notes : List Diagnostic) : List (String × String) := notes.filterMap Diagnostic.cut?

/-- **What is left of notes** when the cuts of the given classes are known. -/
def unreported (classes : List String) (notes : List Diagnostic) : List Diagnostic :=
  notes.filter fun d => !d.cutsIn classes

theorem cutsOf_append (xs ys : List Diagnostic) : cutsOf (xs ++ ys) = cutsOf xs ++ cutsOf ys :=
  List.filterMap_append

theorem unreported_append (classes : List String) (xs ys : List Diagnostic) :
    unreported classes (xs ++ ys) = unreported classes xs ++ unreported classes ys :=
  List.filter_append xs ys

/-- **The cuts that are left** are those of other classes. -/
theorem mem_cutsOf_unreported {classes : List String} {notes : List Diagnostic}
    {cut : String × String} :
    cut ∈ cutsOf (unreported classes notes) ↔ cut ∈ cutsOf notes ∧ cut.1 ∉ classes := by
  unfold cutsOf unreported
  simp only [List.mem_filterMap, List.mem_filter, Bool.not_eq_true', ← Bool.not_eq_true,
    Diagnostic.cutsIn_eq_true]
  constructor
  · rintro ⟨d, ⟨hd, hleft⟩, hcut⟩
    exact ⟨⟨d, hd, hcut⟩, fun hmem => hleft ⟨cut, hcut, hmem⟩⟩
  · rintro ⟨⟨d, hd, hcut⟩, hnot⟩
    refine ⟨d, ⟨hd, ?_⟩, hcut⟩
    rintro ⟨cut', hcut', hmem⟩
    obtain rfl := Option.some.inj (hcut'.symm.trans hcut)
    exact hnot hmem

theorem cutsOf_unreported_sublist (classes : List String) (notes : List Diagnostic) :
    (cutsOf (unreported classes notes)).Sublist (cutsOf notes) :=
  List.filter_sublist.filterMap _

/-- Which classes are known matters, and not in which order. -/
theorem unreported_congr {classes classes' : List String} (notes : List Diagnostic)
    (h : ∀ name, name ∈ classes ↔ name ∈ classes') :
    unreported classes notes = unreported classes' notes := by
  refine List.filter_congr fun d _ => congrArg not (Bool.eq_iff_iff.2 ?_)
  simp only [Diagnostic.cutsIn_eq_true, h]

/-- What is left when some classes are known, and then some more. -/
theorem unreported_unreported (classes more : List String) (notes : List Diagnostic) :
    unreported classes (unreported more notes) = unreported (classes ++ more) notes := by
  unfold unreported
  rw [List.filter_filter]
  refine List.filter_congr fun d _ => ?_
  rw [Diagnostic.cutsIn_append, Bool.not_or]

/-- Notes without cuts of the given classes stay as they are. -/
theorem unreported_eq_self {classes : List String} {notes : List Diagnostic}
    (h : ∀ cut ∈ cutsOf notes, cut.1 ∉ classes) : unreported classes notes = notes := by
  refine List.filter_eq_self.2 fun d hd => ?_
  rw [Bool.not_eq_true', ← Bool.not_eq_true, Diagnostic.cutsIn_eq_true]
  rintro ⟨cut, hcut, hmem⟩
  exact h cut (List.mem_filterMap.2 ⟨d, hd, hcut⟩) hmem

/-! ## Reports without cuts -/

namespace Report

variable {α β : Type}

/-- **A report without cuts.** -/
def WithoutCuts (r : Report α) : Prop := cutsOf r.notes = []

theorem withoutCuts_pure (a : α) : WithoutCuts (pure a) := rfl

theorem withoutCuts_check (r : Except Failure α) : WithoutCuts (liftM r) := rfl

theorem withoutCuts_missing (what : Sought) (name context : String) :
    WithoutCuts (note (.missing what name context)) := rfl

/-- What comes behind a report and cuts nothing adds no cuts. -/
theorem cutsOf_bind_of_right {x : Report α} {f : α → Report β} (hf : ∀ a, (f a).WithoutCuts) :
    cutsOf (x >>= f).notes = cutsOf x.notes := by
  cases h : x.result with
  | error e => rw [bind_of_error h]
  | ok a => rw [bind_of_ok h, cutsOf_append, hf a, List.append_nil]

theorem WithoutCuts.bind {x : Report α} {f : α → Report β} (hx : x.WithoutCuts)
    (hf : ∀ a, (f a).WithoutCuts) : (x >>= f).WithoutCuts := by
  unfold WithoutCuts
  rw [cutsOf_bind_of_right hf]
  exact hx

theorem withoutCuts_mapM {f : α → Report β} (hf : ∀ a, (f a).WithoutCuts) (xs : List α) :
    (xs.mapM f).WithoutCuts := by
  induction xs with
  | nil => exact withoutCuts_pure []
  | cons x rest ih =>
    rw [List.mapM_cons]
    exact (hf x).bind fun y => ih.bind fun ys => withoutCuts_pure (y :: ys)

/-- What comes behind a report without cuts decides whether any is noted twice. -/
theorem nodup_cutsOf_bind {x : Report α} {f : α → Report β} (hx : x.WithoutCuts)
    (hf : ∀ a, x.result = .ok a → (cutsOf (f a).notes).Nodup) :
    (cutsOf (x >>= f).notes).Nodup := by
  cases h : x.result with
  | error e =>
    rw [bind_of_error h, hx]
    exact List.nodup_nil
  | ok a =>
    rw [bind_of_ok h, cutsOf_append, hx, List.nil_append]
    exact hf a h

end Report

/-! ## Incremental steps -/

namespace Cached

variable {α β : Type} {f : Flattening}

/-- What a step notes when it starts with an empty cache. -/
def freshNotes (x : Cached α) : List Diagnostic := (x.run ∅).1.notes

/-- **The classes that a step flattens** when it starts with an empty cache. -/
def flattened (x : Cached α) : List String := (x.run ∅).2.keys

/-- **A step that the cache only saves notes.** -/
structure Incremental (f : Flattening) (x : Cached α) : Prop extends Transparent f x where
  notes : ∀ cache, ExpansionCache.Sound f cache →
    (x.run cache).1.notes = unreported cache.keys x.freshNotes
  keys : ∀ cache, ExpansionCache.Sound f cache → ∀ name,
    name ∈ (x.run cache).2.keys ↔ name ∈ cache.keys ∨ name ∈ x.flattened
  /-- What is cut has been flattened. -/
  cuts : ∀ cut ∈ cutsOf x.freshNotes, cut.1 ∈ x.flattened
  /-- Nothing is cut twice. -/
  nodup : (cutsOf x.freshNotes).Nodup

/-- A step that neither cuts anything nor touches the cache is incremental. -/
theorem incremental_liftReport {r : Report α} (hr : r.WithoutCuts) :
    Incremental f (liftM r : Cached α) where
  toTransparent := transparent_liftReport r
  notes := by
    intro cache _
    refine (unreported_eq_self ?_).symm
    show ∀ cut ∈ cutsOf r.notes, _
    rw [hr]
    exact fun _ h => nomatch h
  keys := fun cache _ name => (or_iff_left List.not_mem_nil).symm
  cuts := by
    show ∀ cut ∈ cutsOf r.notes, _
    rw [hr]
    exact fun _ h => nomatch h
  nodup := by
    show (cutsOf r.notes).Nodup
    rw [hr]
    exact List.nodup_nil

theorem incremental_pure (a : α) : Incremental f (pure a : Cached α) :=
  incremental_liftReport (Report.withoutCuts_pure a)

theorem incremental_liftCheck (r : Except Failure α) : Incremental f (liftM r : Cached α) :=
  incremental_liftReport (Report.withoutCuts_check r)

/-! ## Sequences -/

theorem notes_bind_of_ok {x : Cached α} {g : α → Cached β} {cache : ExpansionCache} {a : α}
    (h : (x.run cache).1.result = .ok a) :
    ((x >>= g).run cache).1.notes
      = (x.run cache).1.notes ++ ((g a).run (x.run cache).2).1.notes := by
  show (andThen x g cache).1.notes = _
  unfold andThen
  unfold run at h
  rw [h]
  rfl

theorem notes_bind_of_error {x : Cached α} {g : α → Cached β} {cache : ExpansionCache}
    {e : Failure} (h : (x.run cache).1.result = .error e) :
    ((x >>= g).run cache).1.notes = (x.run cache).1.notes := by
  show (andThen x g cache).1.notes = _
  unfold andThen
  unfold run at h
  rw [h]
  rfl

section Bind

variable {x : Cached α} {g : α → Cached β} (hx : Incremental f x) {a : α} (ha : x.fresh = .ok a)
include hx ha

/-- **What two steps note**: the second nothing of what the first has flattened. -/
theorem freshNotes_bind (hg : Incremental f (g a)) :
    (x >>= g).freshNotes = x.freshNotes ++ unreported x.flattened (g a).freshNotes := by
  unfold freshNotes
  rw [notes_bind_of_ok ha, hg.notes _ (hx.sound ∅ (ExpansionCache.sound_empty f))]
  rfl

/-- **What two steps flatten** is what each of them does. -/
theorem mem_flattened_bind (hg : Incremental f (g a)) {name : String} :
    name ∈ (x >>= g).flattened ↔ name ∈ x.flattened ∨ name ∈ (g a).flattened := by
  show name ∈ ((x >>= g).run ∅).2.keys ↔ _
  rw [(run_bind_of_ok ha).2, hg.keys _ (hx.sound ∅ (ExpansionCache.sound_empty f))]
  exact Iff.rfl

end Bind

/-- **Two incremental steps are one.** -/
theorem Incremental.bind {x : Cached α} {g : α → Cached β} (hx : Incremental f x)
    (hg : ∀ a, Incremental f (g a)) : Incremental f (x >>= g) := by
  have htransparent : Transparent f (x >>= g) :=
    hx.toTransparent.bind fun a _ => (hg a).toTransparent
  cases h : x.fresh with
  | error e =>
    have hnotes : (x >>= g).freshNotes = x.freshNotes := notes_bind_of_error h
    have hflattened : (x >>= g).flattened = x.flattened :=
      congrArg Table.keys (run_bind_of_error h).2
    refine { htransparent with notes := ?_, keys := ?_, cuts := ?_, nodup := ?_ }
    · intro cache hc
      have hrun := (hx.result cache hc).trans h
      rw [notes_bind_of_error hrun, hnotes, hx.notes cache hc]
    · intro cache hc name
      have hrun := (hx.result cache hc).trans h
      rw [(run_bind_of_error hrun).2, hflattened, hx.keys cache hc]
    · rw [hnotes, hflattened]
      exact hx.cuts
    · rw [hnotes]
      exact hx.nodup
  | ok a =>
    have hnotes := freshNotes_bind hx h (hg a)
    refine { htransparent with notes := ?_, keys := ?_, cuts := ?_, nodup := ?_ }
    · intro cache hc
      have hrun := (hx.result cache hc).trans h
      -- the second step starts from what was cached and what the first step has flattened
      rw [notes_bind_of_ok hrun, hx.notes cache hc, (hg a).notes _ (hx.sound cache hc), hnotes,
        unreported_append, unreported_unreported]
      refine congrArg (unreported cache.keys x.freshNotes ++ ·) (unreported_congr _ fun name => ?_)
      rw [hx.keys cache hc, List.mem_append]
    · intro cache hc name
      have hrun := (hx.result cache hc).trans h
      rw [(run_bind_of_ok hrun).2, (hg a).keys _ (hx.sound cache hc), hx.keys cache hc,
        mem_flattened_bind hx h (hg a), or_assoc]
    · intro cut hcut
      rw [hnotes, cutsOf_append, List.mem_append] at hcut
      rw [mem_flattened_bind hx h (hg a)]
      exact hcut.imp (hx.cuts cut) fun hcut => (hg a).cuts cut (mem_cutsOf_unreported.1 hcut).1
    · rw [hnotes, cutsOf_append]
      refine hx.nodup.append ((hg a).nodup.sublist (cutsOf_unreported_sublist _ _)) ?_
      intro cut hfirst hsecond
      exact (mem_cutsOf_unreported.1 hsecond).2 (hx.cuts cut hfirst)

/-- A second step flattens something only where the first succeeds. -/
theorem mem_flattened_bind_iff {x : Cached α} {g : α → Cached β} (hx : Incremental f x)
    (hg : ∀ a, Incremental f (g a)) {name : String} :
    name ∈ (x >>= g).flattened ↔
      name ∈ x.flattened ∨ ∃ a, x.fresh = .ok a ∧ name ∈ (g a).flattened := by
  cases h : x.fresh with
  | error e =>
    have hflattened : (x >>= g).flattened = x.flattened :=
      congrArg Table.keys (run_bind_of_error h).2
    rw [hflattened, or_iff_left fun ⟨_, hok, _⟩ => nomatch hok]
  | ok a =>
    rw [mem_flattened_bind hx h (hg a)]
    exact or_congr_right ⟨fun hmem => ⟨a, rfl, hmem⟩, fun ⟨b, hb, hmem⟩ => Except.ok.inj hb ▸ hmem⟩

/-- What comes behind a step and flattens nothing does not matter. -/
theorem mem_flattened_bind_iff_left {x : Cached α} {g : α → Cached β} (hx : Incremental f x)
    (hg : ∀ a, Incremental f (g a)) (hnil : ∀ a, (g a).flattened = []) {name : String} :
    name ∈ (x >>= g).flattened ↔ name ∈ x.flattened := by
  rw [mem_flattened_bind_iff hx hg]
  refine or_iff_left ?_
  rintro ⟨a, -, hmem⟩
  rw [hnil a] at hmem
  exact List.not_mem_nil hmem

/-- A step that does without the cache and is followed by none flattens nothing. -/
theorem flattened_liftReport_bind_pure (r : Report α) (g : α → β) :
    ((liftM r : Cached α) >>= fun a => pure (g a)).flattened = [] := by
  have hrun : ((liftM r : Cached α).run ∅).1.result = r.result := rfl
  unfold flattened
  cases h : r.result with
  | error e => exact congrArg Table.keys (run_bind_of_error (hrun.trans h)).2
  | ok a => exact congrArg Table.keys (run_bind_of_ok (hrun.trans h)).2

/-- **An incremental step for every item** is one. -/
theorem incremental_mapM {g : α → Cached β} (hg : ∀ a, Incremental f (g a)) (xs : List α) :
    Incremental f (xs.mapM g) := by
  induction xs with
  | nil => exact incremental_pure []
  | cons x rest ih =>
    rw [List.mapM_cons]
    exact (hg x).bind fun y => ih.bind fun ys => incremental_pure (y :: ys)

/-! ## Expansions -/

/-- The cuts of a new expansion are noted under the name of its class. -/
theorem cutsOf_map_truncated (name : String) (paths : List String) :
    cutsOf (paths.map (.truncated name)) = paths.map (name, ·) := by
  unfold cutsOf
  rw [List.filterMap_map]
  exact List.filterMap_eq_map_iff_forall_eq_some.2 fun _ _ => rfl

/-- No cut of an expansion is listed twice. -/
theorem nodup_truncated {name : String} {e : Expansion} (h : f.expand name = .ok e) :
    e.truncated.Nodup := by
  unfold Flattening.expand at h
  split at h
  · cases h
  · obtain rfl := Except.ok.inj h
    exact FirstSeen.nodup_addAll List.nodup_nil _

theorem run_expansion_of_some {name : String} {cache : ExpansionCache} {e : Expansion}
    (h : cache.get? name = some e) : (expansion f name).run cache = (pure e, cache) := by
  unfold run expansion
  rw [h]

theorem run_expansion_of_error {name : String} {cache : ExpansionCache} {e : Failure}
    (h : cache.get? name = none) (he : f.expand name = .error e) :
    (expansion f name).run cache = (Report.fail e, cache) := by
  unfold run expansion
  rw [h, he]

theorem run_expansion_of_ok {name : String} {cache : ExpansionCache} {e : Expansion}
    (h : cache.get? name = none) (he : f.expand name = .ok e) :
    (expansion f name).run cache
      = (⟨e.truncated.map (.truncated name), .ok e⟩, Table.insert cache name e) := by
  unfold run expansion
  rw [h, he]

/-- Taking an expansion flattens its class. -/
theorem mem_flattened_expansion {name : String} {e : Expansion} (he : f.expand name = .ok e)
    {n : String} : n ∈ (expansion f name).flattened ↔ n = name := by
  unfold flattened
  rw [run_expansion_of_ok rfl he, Table.mem_keys_insert]
  exact or_iff_left List.not_mem_nil

/-- An expansion that fails notes nothing and is not kept. -/
theorem incremental_expansion_of_error {name : String} {e : Failure}
    (he : f.expand name = .error e) : Incremental f (expansion f name) := by
  have hrun (cache : ExpansionCache) (hc : ExpansionCache.Sound f cache) :
      (expansion f name).run cache = (Report.fail e, cache) := by
    refine run_expansion_of_error ?_ he
    cases hget : cache.get? name with
    | none => rfl
    | some e' => exact nomatch he.symm.trans (hc name e' hget)
  have hempty := hrun ∅ (ExpansionCache.sound_empty f)
  have hnotes : (expansion f name).freshNotes = [] := congrArg (·.1.notes) hempty
  have hflattened : (expansion f name).flattened = [] := congrArg (·.2.keys) hempty
  refine { (yields_expansion name).transparent with notes := ?_, keys := ?_, cuts := ?_, nodup := ?_ }
  · intro cache hc
    rw [hrun cache hc, hnotes]
    rfl
  · intro cache hc n
    rw [hrun cache hc, hflattened]
    exact (or_iff_left List.not_mem_nil).symm
  · rw [hnotes]
    exact fun _ h => nomatch h
  · rw [hnotes]
    exact List.nodup_nil

/-- An expansion that is in the cache has been noted, and else it is noted now. -/
theorem incremental_expansion_of_ok {name : String} {e : Expansion} (he : f.expand name = .ok e) :
    Incremental f (expansion f name) := by
  have hnotes : (expansion f name).freshNotes = e.truncated.map (.truncated name) :=
    congrArg (·.1.notes) (run_expansion_of_ok rfl he)
  have hcuts : cutsOf (expansion f name).freshNotes = e.truncated.map (name, ·) := by
    rw [hnotes, cutsOf_map_truncated]
  have hroot (cut : String × String) (hcut : cut ∈ cutsOf (expansion f name).freshNotes) :
      cut.1 = name := by
    rw [hcuts] at hcut
    obtain ⟨path, -, rfl⟩ := List.mem_map.1 hcut
    rfl
  refine { (yields_expansion name).transparent with notes := ?_, keys := ?_, cuts := ?_, nodup := ?_ }
  · intro cache hc
    cases hget : cache.get? name with
    | some e' =>
      have hmem : name ∈ cache.keys := Table.mem_keys_iff_get?.2 ⟨e', hget⟩
      rw [run_expansion_of_some hget, hnotes]
      refine (List.filter_eq_nil_iff.2 fun d hd => ?_).symm
      obtain ⟨path, -, rfl⟩ := List.mem_map.1 hd
      rw [Bool.not_eq_true', Bool.not_eq_false, Diagnostic.cutsIn_eq_true]
      exact ⟨(name, path), rfl, hmem⟩
    | none =>
      rw [run_expansion_of_ok hget he, ← hnotes]
      refine (unreported_eq_self fun cut hcut => ?_).symm
      rw [hroot cut hcut]
      exact Table.get?_eq_none_iff.1 hget
  · intro cache hc n
    rw [mem_flattened_expansion he]
    cases hget : cache.get? name with
    | some e' =>
      rw [run_expansion_of_some hget]
      refine (or_iff_left_of_imp ?_).symm
      rintro rfl
      exact Table.mem_keys_iff_get?.2 ⟨e', hget⟩
    | none =>
      rw [run_expansion_of_ok hget he, Table.mem_keys_insert]
      exact or_comm
  · exact fun cut hcut => (mem_flattened_expansion he).2 (hroot cut hcut)
  · rw [hcuts]
    exact (nodup_truncated he).map fun _ _ h => (Prod.mk.inj h).2

/-- **Taking an expansion is incremental.** -/
theorem incremental_expansion (name : String) : Incremental f (expansion f name) := by
  cases he : f.expand name with
  | error e => exact incremental_expansion_of_error he
  | ok e => exact incremental_expansion_of_ok he

/-! ## Steps in a row -/

/-- **One step after another on one cache**, each going on where the one before has stopped,
also when that one has failed. -/
def runEach : List (Cached α) → ExpansionCache → List (Report α)
  | [], _ => []
  | x :: rest, cache => (x.run cache).1 :: runEach rest (x.run cache).2

theorem length_runEach (xs : List (Cached α)) (cache : ExpansionCache) :
    (runEach xs cache).length = xs.length := by
  induction xs generalizing cache with
  | nil => rfl
  | cons x rest ih => exact congrArg (· + 1) (ih _)

/-- **What a step in a row reports**: its own result, and its own notes less the cuts of
what is in the cache or has been flattened before it. -/
theorem getElem?_runEach {before : List (Cached α)} {x : Cached α} (after : List (Cached α))
    (hbefore : ∀ y ∈ before, Incremental f y) (hx : Incremental f x) {cache : ExpansionCache}
    (hc : ExpansionCache.Sound f cache) :
    (runEach (before ++ x :: after) cache)[before.length]? = some {
      notes := unreported (cache.keys ++ before.flatMap flattened) x.freshNotes
      result := x.fresh } := by
  induction before generalizing cache with
  | nil =>
    show some (x.run cache).1 = _
    rw [List.flatMap_nil, List.append_nil, ← hx.notes cache hc, ← hx.result cache hc]
  | cons y rest ih =>
    rw [List.forall_mem_cons] at hbefore
    show (runEach (rest ++ x :: after) (y.run cache).2)[rest.length]? = _
    rw [ih hbefore.2 (hbefore.1.sound cache hc)]
    refine congrArg (fun notes => some (Report.mk notes x.fresh)) (unreported_congr _ fun name => ?_)
    rw [List.flatMap_cons, ← List.append_assoc, List.mem_append, List.mem_append,
      List.mem_append (s := cache.keys), hbefore.1.keys cache hc]

/-- **In a row of steps no cut is noted twice**, and none of a class that was in the cache. -/
theorem nodup_cuts_runEach {xs : List (Cached α)} (hxs : ∀ x ∈ xs, Incremental f x)
    {cache : ExpansionCache} (hc : ExpansionCache.Sound f cache) :
    (cutsOf ((runEach xs cache).flatMap (·.notes))).Nodup ∧
      ∀ cut ∈ cutsOf ((runEach xs cache).flatMap (·.notes)), cut.1 ∉ cache.keys := by
  induction xs generalizing cache with
  | nil => exact ⟨List.nodup_nil, fun _ h => nomatch h⟩
  | cons x rest ih =>
    rw [List.forall_mem_cons] at hxs
    obtain ⟨hnodup, hnew⟩ := ih hxs.2 (hxs.1.sound cache hc)
    have hsplit : cutsOf ((runEach (x :: rest) cache).flatMap (·.notes))
        = cutsOf (unreported cache.keys x.freshNotes)
          ++ cutsOf ((runEach rest (x.run cache).2).flatMap (·.notes)) := by
      rw [← hxs.1.notes cache hc, ← cutsOf_append]
      rfl
    rw [hsplit]
    constructor
    · refine (hxs.1.nodup.sublist (cutsOf_unreported_sublist _ _)).append hnodup ?_
      intro cut hfirst hrest
      refine hnew cut hrest ((hxs.1.keys cache hc _).2 (Or.inr ?_))
      exact hxs.1.cuts cut (mem_cutsOf_unreported.1 hfirst).1
    · rw [List.forall_mem_append]
      refine ⟨fun cut hcut => (mem_cutsOf_unreported.1 hcut).2, fun cut hcut hmem => ?_⟩
      exact hnew cut hcut ((hxs.1.keys cache hc _).2 (Or.inl hmem))

end Cached

end SwaggerForge
