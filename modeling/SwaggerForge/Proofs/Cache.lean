import SwaggerForge.Flat.Cache
import SwaggerForge.Proofs.Success

/-!
# The cache does not show in results

A step that uses the cache of expansions has the result it would have without
one. A cache is **sound** when what it holds under a class is the expansion of
that class (`ExpansionCache.Sound`), and the empty cache is. A step is
**transparent** when from every sound cache it has the result that it has from
the empty one, and leaves a sound cache behind (`Cached.Transparent`). Taking
an expansion is such a step, and steps made of transparent ones are
transparent, so that what a whole run yields can be put together from what its
steps yield when each starts without a cache (`Cached.Yields`).
-/

namespace SwaggerForge

/-- **A cache that holds expansions** under the names of their classes. -/
def ExpansionCache.Sound (f : Flattening) (cache : ExpansionCache) : Prop :=
  ∀ name e, cache.get? name = some e → f.expand name = .ok e

theorem ExpansionCache.sound_empty (f : Flattening) : ExpansionCache.Sound f ∅ :=
  fun _ _ h => nomatch h

/-- An expansion that is made is one to be kept. -/
theorem ExpansionCache.Sound.insert {f : Flattening} {cache : ExpansionCache}
    (h : ExpansionCache.Sound f cache) {name : String} {e : Expansion}
    (he : f.expand name = .ok e) : ExpansionCache.Sound f (Table.insert cache name e) := by
  intro n e' hn
  rw [Table.get?_insert] at hn
  split at hn
  · next hname =>
    obtain rfl : e = e' := Option.some.inj hn
    rw [hname]
    exact he
  · exact h n e' hn

namespace Cached

variable {α β : Type}

/-- **The result of a step** that starts with an empty cache. -/
def fresh (x : Cached α) : Except Failure α := (x.run ∅).1.result

/-- **A step whose result does not depend on the cache**, as long as the cache
is sound, and that keeps it so. -/
structure Transparent (f : Flattening) (x : Cached α) : Prop where
  result : ∀ cache, ExpansionCache.Sound f cache → (x.run cache).1.result = x.fresh
  sound : ∀ cache, ExpansionCache.Sound f cache → ExpansionCache.Sound f (x.run cache).2

variable {f : Flattening}

theorem run_bind_of_ok {x : Cached α} {g : α → Cached β} {cache : ExpansionCache} {a : α}
    (h : (x.run cache).1.result = .ok a) :
    ((x >>= g).run cache).1.result = ((g a).run (x.run cache).2).1.result
      ∧ ((x >>= g).run cache).2 = ((g a).run (x.run cache).2).2 := by
  show (andThen x g cache).1.result = _ ∧ (andThen x g cache).2 = _
  unfold andThen
  unfold run at h
  rw [h]
  exact ⟨rfl, rfl⟩

theorem run_bind_of_error {x : Cached α} {g : α → Cached β} {cache : ExpansionCache} {e : Failure}
    (h : (x.run cache).1.result = .error e) :
    ((x >>= g).run cache).1.result = .error e
      ∧ ((x >>= g).run cache).2 = (x.run cache).2 := by
  show (andThen x g cache).1.result = _ ∧ (andThen x g cache).2 = _
  unfold andThen
  unfold run at h
  rw [h]
  exact ⟨rfl, rfl⟩

/-! ## Steps that do without the cache -/

theorem transparent_pure (a : α) : Transparent f (pure a : Cached α) :=
  ⟨fun _ _ => rfl, fun _ h => h⟩

theorem transparent_liftReport (r : Report α) : Transparent f (liftM r : Cached α) :=
  ⟨fun _ _ => rfl, fun _ h => h⟩

theorem transparent_liftCheck (r : Except Failure α) : Transparent f (liftM r : Cached α) :=
  ⟨fun _ _ => rfl, fun _ h => h⟩

/-! ## Sequences -/

/-- **The result of two steps**, the second of which does not depend on what
the first leaves in the cache. -/
theorem fresh_bind {x : Cached α} {g : α → Cached β} (hx : Transparent f x)
    (hg : ∀ a, x.fresh = .ok a → Transparent f (g a)) :
    (x >>= g).fresh = x.fresh >>= fun a => (g a).fresh := by
  have hempty := ExpansionCache.sound_empty f
  cases h : x.fresh with
  | error e => exact (run_bind_of_error h).1
  | ok a =>
    show ((x >>= g).run ∅).1.result = (g a).fresh
    rw [(run_bind_of_ok h).1, (hg a h).result _ (hx.sound _ hempty)]

/-- A step that does without the cache leaves an empty one to the next. -/
theorem fresh_report_bind (r : Report α) (g : α → Cached β) :
    ((liftM r : Cached α) >>= g).fresh = r.result >>= fun a => (g a).fresh := by
  have hrun : ((liftM r : Cached α).run ∅).1.result = r.result := rfl
  cases h : r.result with
  | error e => exact (run_bind_of_error (hrun.trans h)).1
  | ok a => exact (run_bind_of_ok (hrun.trans h)).1

theorem fresh_check_bind (r : Except Failure α) (g : α → Cached β) :
    ((liftM r : Cached α) >>= g).fresh = r >>= fun a => (g a).fresh :=
  fresh_report_bind (Report.ofExcept r) g

/-- **Two transparent steps are one.** -/
theorem Transparent.bind {x : Cached α} {g : α → Cached β} (hx : Transparent f x)
    (hg : ∀ a, x.fresh = .ok a → Transparent f (g a)) : Transparent f (x >>= g) := by
  constructor
  · intro cache hc
    -- the first step does the same from any sound cache, and so does the second from its own
    have hrun := hx.result cache hc
    rw [fresh_bind hx hg]
    cases h : x.fresh with
    | error e => exact (run_bind_of_error (hrun.trans h)).1
    | ok a =>
      rw [(run_bind_of_ok (hrun.trans h)).1]
      exact (hg a h).result _ (hx.sound cache hc)
  · intro cache hc
    have hrun := hx.result cache hc
    cases h : x.fresh with
    | error e =>
      rw [(run_bind_of_error (hrun.trans h)).2]
      exact hx.sound cache hc
    | ok a =>
      rw [(run_bind_of_ok (hrun.trans h)).2]
      exact (hg a h).sound _ (hx.sound cache hc)

/-- **A transparent step for every item** has the result of the checks without a
cache. -/
theorem fresh_mapM {g : α → Cached β} (hg : ∀ a, Transparent f (g a)) (xs : List α) :
    Transparent f (xs.mapM g) ∧ (xs.mapM g).fresh = xs.mapM fun x => (g x).fresh := by
  induction xs with
  | nil => exact ⟨transparent_pure [], rfl⟩
  | cons x rest ih =>
    have hpack (y : β) : Transparent f (do return y :: (← rest.mapM g)) :=
      ih.1.bind fun ys _ => transparent_pure (y :: ys)
    rw [List.mapM_cons, List.mapM_cons]
    refine ⟨(hg x).bind fun y _ => hpack y, ?_⟩
    rw [fresh_bind (hg x) fun y _ => hpack y]
    refine congrArg ((g x).fresh >>= ·) (funext fun y => ?_)
    rw [fresh_bind ih.1 fun ys _ => transparent_pure (y :: ys), ih.2]
    rfl

/-! ## What steps yield -/

/-- **A transparent step with what is known of its result.** -/
structure Yields (f : Flattening) (x : Cached α) (post : α → Prop) : Prop where
  transparent : Transparent f x
  of_fresh : ∀ a, x.fresh = .ok a → post a

theorem yields_pure {post : α → Prop} {a : α} (h : post a) : Yields f (pure a : Cached α) post :=
  ⟨transparent_pure a, fun _ ha => Except.ok.inj ha ▸ h⟩

theorem yields_liftReport (r : Report α) :
    Yields f (liftM r : Cached α) fun a => r.result = .ok a :=
  ⟨transparent_liftReport r, fun _ h => h⟩

theorem yields_liftCheck (r : Except Failure α) :
    Yields f (liftM r : Cached α) fun a => r = .ok a :=
  ⟨transparent_liftCheck r, fun _ h => h⟩

/-- What is known of a result from two sides is known of it at once. -/
theorem Yields.and {x : Cached α} {post post' : α → Prop} (h : Yields f x post)
    (h' : Yields f x post') : Yields f x fun a => post a ∧ post' a :=
  ⟨h.transparent, fun a ha => ⟨h.of_fresh a ha, h'.of_fresh a ha⟩⟩

/-- **What two steps yield** is what the second yields on what the first does. -/
theorem Yields.bind {x : Cached α} {g : α → Cached β} {mid : α → Prop} {post : β → Prop}
    (hx : Yields f x mid) (hg : ∀ a, mid a → Yields f (g a) post) : Yields f (x >>= g) post := by
  have hrest (a : α) (ha : x.fresh = .ok a) : Yields f (g a) post := hg a (hx.of_fresh a ha)
  have hcache (a : α) (ha : x.fresh = .ok a) := (hrest a ha).transparent
  refine ⟨hx.transparent.bind hcache, fun b hb => ?_⟩
  rw [fresh_bind hx.transparent hcache] at hb
  obtain ⟨a, ha, hb⟩ := bind_eq_ok.1 hb
  exact (hrest a ha).of_fresh b hb

/-- **A step for every item** yields a result for each, in order. -/
theorem yields_mapM {g : α → Cached β} {post : α → β → Prop} (hg : ∀ a, Yields f (g a) (post a))
    (xs : List α) : Yields f (xs.mapM g) (List.Forall₂ post xs) := by
  induction xs with
  | nil => exact yields_pure .nil
  | cons x rest ih =>
    rw [List.mapM_cons]
    exact (hg x).bind fun y hy => ih.bind fun ys hys => yields_pure (.cons hy hys)

/-! ## Expansions -/

/-- **Taking an expansion** gives the expansion of the class. -/
theorem result_expansion (name : String) {cache : ExpansionCache}
    (hc : ExpansionCache.Sound f cache) :
    ((expansion f name).run cache).1.result = f.expand name := by
  unfold run expansion
  cases hget : cache.get? name with
  | some e => exact (hc name e hget).symm
  | none =>
    cases he : f.expand name with
    | error e => rfl
    | ok e => rfl

theorem yields_expansion (name : String) :
    Yields f (expansion f name) fun e => f.expand name = .ok e := by
  have hfresh : (expansion f name).fresh = f.expand name :=
    result_expansion name (ExpansionCache.sound_empty f)
  refine ⟨⟨fun cache hc => ?_, fun cache hc => ?_⟩, fun e he => hfresh.symm.trans he⟩
  · rw [result_expansion name hc, hfresh]
  · show ExpansionCache.Sound f ((expansion f name).run cache).2
    unfold run expansion
    cases hget : cache.get? name with
    | some e => exact hc
    | none =>
      cases he : f.expand name with
      | error e => exact hc
      | ok e => exact hc.insert he

end Cached

end SwaggerForge
