import SwaggerForge.Proofs.SharedKeys
import SwaggerForge.Proofs.Slots

/-!
# When parameters clash

What an action takes in query style is put behind the request-wide parameters as it is: no
name is compared with those that are there already. So a parameter that has the name of a
request-wide one clashes with it, and so does the session if its name is a reserved one,
which all operations list as well.

Where the names of classes and parameters tell all keys apart, nothing else clashes
(`OperationContext.nodup_slots_iff`): what is flattened has a bracket in its name, behind
the name of the parameter it comes from, and a body is the only one of its kind.
-/

namespace SwaggerForge

open Json

/-! ## Names and segments -/

/-- The part of a name in front of its segments. -/
def rootName (name : String) : String := String.ofList (name.toList.takeWhile (· != '['))

theorem rootName_append {name path : String} (hname : '[' ∉ name.toList)
    (hpath : path = "" ∨ Bracketed path) : rootName (name ++ path) = name := by
  have hall : ∀ c ∈ name.toList, (c != '[') = true := fun c hc =>
    bne_iff_ne.2 fun heq => hname (heq ▸ hc)
  have hrest : path.toList.takeWhile (· != '[') = [] := by
    rcases hpath with rfl | ⟨rest, hrest⟩
    · rfl
    · rw [hrest]
      rfl
  unfold rootName
  rw [String.toList_append, List.takeWhile_append_of_pos hall, hrest, List.append_nil,
    String.ofList_toList]

/-! ## Request-wide parameters -/

namespace RequestParameters

/-- **Operations refer to each request-wide parameter once**: to those with reserved names,
and to those that the schema declares under other names. -/
theorem attached_of_ofSettings {config : Config} {h : Hierarchy} {settings : List RequestSetting}
    {g : RequestParameters} (hg : ofSettings config h settings = .ok g) :
    g.attached.Nodup ∧ ∀ key ∈ g.attached, Reserved key ∨ ∃ s ∈ settings, s.name = key := by
  have hkept : Valid h settings g ∧
      g.attached.Nodup ∧ ∀ key ∈ g.attached, Reserved key ∨ ∃ s ∈ settings, s.name = key := by
    refine foldlM_ok_induction (motive := fun g => Valid h settings g ∧
      g.attached.Nodup ∧ ∀ key ∈ g.attached, Reserved key ∨ ∃ s ∈ settings, s.name = key) hg
      ⟨valid_initial config.sessionParameter, ?_, ?_⟩ ?_
    · show [formatKey, clientTagKey].Nodup
      decide
    · show ∀ key ∈ [formatKey, clientTagKey], _
      rw [List.forall_mem_cons, List.forall_mem_singleton]
      exact ⟨Or.inl (Or.inl rfl), Or.inl (Or.inr rfl)⟩
    · rintro s hs b c ⟨hvalid, hnodup, hnames⟩ hadd
      refine ⟨hvalid.add hs hadd, ?_⟩
      unfold add at hadd
      split at hadd
      · obtain rfl := Except.ok.inj hadd
        exact ⟨hnodup, hnames⟩
      · next hnew =>
        obtain ⟨meant, -, hadd⟩ := bind_eq_ok.1 hadd
        cases meant with
        | reference target =>
          obtain rfl := pure_eq_ok.1 hadd
          exact ⟨hnodup, hnames⟩
        | primitive type =>
          obtain rfl := pure_eq_ok.1 hadd
          have hfresh : s.name ∉ b.attached := fun hkey => by
            obtain ⟨e, he, hfst⟩ := List.mem_map.1 (hvalid.attached _ hkey)
            exact hnew (List.any_eq_true.2 ⟨e, he, beq_iff_eq.2 hfst⟩)
          refine ⟨?_, List.forall_mem_append.2 ⟨hnames, ?_⟩⟩
          · refine List.nodup_append.2 ⟨hnodup, List.nodup_singleton _, ?_⟩
            rintro key hkey name hname rfl
            exact hfresh (List.mem_singleton.1 hname ▸ hkey)
          · rw [List.forall_mem_singleton]
            exact Or.inr ⟨s, hs, rfl⟩
  exact hkept.2

/-- A request-wide parameter has the name of its key. -/
theorem EntryOf.name_eq {settings : List RequestSetting} {e : String × Json}
    (h : EntryOf settings e) : e.2.textField? "name" = some e.1 := by
  cases h <;> rfl

end RequestParameters

/-! ## Names that keep parameters apart -/

/-- **Names that can be told apart**: no class has a colon in its name, neither parameters nor
settings have an opening bracket, and the parameters of an action have names of their own. -/
structure Schema.NamesApart (config : Config) (schema : Schema) : Prop where
  classes : ∀ c ∈ schema.classes, ':' ∉ c.name.toList
  parameters : ∀ e ∈ includedActions config schema.services,
    ∀ p ∈ e.2.parameters, '[' ∉ p.name.toList
  session : '[' ∉ config.sessionParameter.toList
  settings : ∀ s ∈ schema.requestSettings, '[' ∉ s.name.toList
  distinct : ∀ e ∈ includedActions config schema.services, (e.2.parameters.map (·.name)).Nodup

namespace OperationContext

variable {ctx : OperationContext} {config : Config} {schema : Schema}
  {actions : List (Service × Action)}

/-- A request-wide parameter that is an upload. -/
def sendsUpload (ctx : OperationContext) (key : String) : Bool :=
  ((Table.ofList ctx.requestParameters.entries).get? key).any Upload.isUpload

/-- **An action whose names are free.** If it lists the session, then not under a reserved
name, and in query style no parameter but an array has the name of a request-wide one that
travels in the same part of the request. -/
structure NamesFree (ctx : OperationContext) (a : Action) : Prop where
  session : a.sessionRequired = true → ¬ ctx.SessionInBody a →
    ¬ RequestParameters.Reserved ctx.requestParameters.session
  inline : ctx.styleOf a = .query → ∀ p ∈ a.parameters, ∀ type,
    Primitive.ofName? p.type = some type → type ≠ .array → p.name ∈ ctx.requestKeys a →
      ¬ (ctx.sendsUpload p.name = true ↔ type = .file)

/-! ### The slots of request-wide parameters -/

/-- What is shared for a class has a bracket in its key. -/
theorem mem_key_of_mem_sharedBy (hb : ctx.flattening.Built) {a : Action} {key : String}
    {flat : FlatParameter} (h : (key, flat) ∈ ctx.sharedBy a) : '[' ∈ key.toList := by
  obtain ⟨-, p, -, hreference, e, he, q, hq, rfl, rfl⟩ := mem_sharedBy.1 h
  have hk := (ctx.hierarchy.isReference_iff.1 hreference).2
  obtain ⟨rest, hrest⟩ := (hb.leaf_of_mem_parameters hk he hq).bracketed
  simp [QueryPart.sharedKey, FlatParameter.qualified, toString, String.toList_append, hrest]

/-- **Request-wide parameters with plain names** are not replaced by flattened ones. -/
theorem get?_sharedParameters_of_plain (hb : ctx.flattening.Built) {key : String}
    (hkey : '[' ∉ key.toList) : (ctx.sharedParameters actions).get? key
      = (Table.ofList ctx.requestParameters.entries).get? key := by
  unfold sharedParameters Table.ofList
  rw [Table.insertAll_append]
  refine Table.get?_insertAll_of_not_mem (fun hmem => ?_) _
  obtain ⟨e, he, rfl⟩ := List.mem_map.1 hmem
  obtain ⟨x, -, he⟩ := List.mem_flatMap.1 he
  obtain ⟨⟨key, flat⟩, hflat, rfl⟩ := List.mem_map.1 he
  exact hkey (mem_key_of_mem_sharedBy hb hflat)

section Named

variable (hctx : OperationContext.Of config schema ctx) (hnames : schema.NamesApart config)
include hctx

/-- **An operation refers to a request-wide parameter once**, unless the session has a
reserved name. -/
theorem nodup_requestKeys_iff {a : Action} : (ctx.requestKeys a).Nodup ↔
    (a.sessionRequired = true → ¬ ctx.SessionInBody a →
      ¬ RequestParameters.Reserved ctx.requestParameters.session) := by
  obtain ⟨hsession, hreserved⟩ :=
    RequestParameters.session_of_ofSettings hctx.requestParameters
  rw [← hsession] at hreserved
  have hattached := (RequestParameters.attached_of_ofSettings hctx.requestParameters).1
  unfold requestKeys
  by_cases hlisted : a.sessionRequired = true ∧
      ¬ (ctx.config.profile = .enveloped ∧ ctx.styleOf a = .body)
  · rw [if_pos hlisted, List.singleton_append, List.nodup_cons, hreserved, and_iff_left hattached]
    exact ⟨fun h _ _ => h, fun h => h hlisted.1 hlisted.2⟩
  · rw [if_neg hlisted, List.nil_append]
    exact iff_of_true hattached fun hrequired hnot => absurd ⟨hrequired, hnot⟩ hlisted

include hnames

theorem plain_of_mem_requestKeys {a : Action} {key : String} (hkey : key ∈ ctx.requestKeys a) :
    '[' ∉ key.toList ∧ key ∈ ctx.requestParameters.entries.map Prod.fst := by
  have hvalid := RequestParameters.valid_of_ofSettings hctx.requestParameters
  unfold requestKeys at hkey
  rcases List.mem_append.1 hkey with hkey | hkey
  · split at hkey
    · obtain rfl := List.mem_singleton.1 hkey
      refine ⟨?_, hvalid.session⟩
      rw [(RequestParameters.session_of_ofSettings hctx.requestParameters).1]
      exact hnames.session
    · cases hkey
  · refine ⟨?_, hvalid.attached key hkey⟩
    rcases (RequestParameters.attached_of_ofSettings hctx.requestParameters).2 key hkey with
      (rfl | rfl) | ⟨s, hs, rfl⟩
    · decide
    · decide
    · exact hnames.settings s hs

/-- **The slot of a request-wide parameter** has the name of its key. -/
theorem sharedSlot?_of_mem_requestKeys {a : Action} {key : String}
    (hkey : key ∈ ctx.requestKeys a) : ctx.sharedSlot? actions key = some (key,
      if ctx.sendsUpload key ∧ key ∈ ctx.keysUnderGet actions then "formData" else "query") := by
  obtain ⟨hplain, hentry⟩ := plain_of_mem_requestKeys hctx hnames hkey
  obtain ⟨p, hp⟩ := Table.mem_keys_iff_get?.1 (Table.mem_keys_ofList.2 hentry)
  have hname := ((RequestParameters.valid_of_ofSettings hctx.requestParameters).entries _
    (Table.mem_entries_ofList (Table.mem_entries_of_get? hp))).name_eq
  unfold sharedSlot? sendsUpload
  rw [get?_sharedParameters_of_plain hctx.built hplain, hp, Option.bind_some, hname]
  rfl

theorem slots_requestKeys (a : Action) : (ctx.requestKeys a).filterMap (ctx.sharedSlot? actions)
    = (ctx.requestKeys a).map fun key => (key,
        if ctx.sendsUpload key ∧ key ∈ ctx.keysUnderGet actions then "formData" else "query") := by
  rw [← List.filterMap_eq_map]
  exact List.filterMap_congr fun key hkey => sharedSlot?_of_mem_requestKeys hctx hnames hkey

end Named

/-! ### The slots of parameters -/

/-- **A slot of a parameter** is that of a value inside a class, or its own. -/
theorem mem_parameterSlots {shared : String → Option (String × String)} {p : Parameter}
    {slot : String × String} : slot ∈ ctx.parameterSlots shared p ↔
      (∃ e ∈ ctx.flattened p, shared e.1 = some slot) ∨
        ∃ type, Primitive.ofName? p.type = some type ∧ type ≠ .array ∧
          slot = (p.name, if type = .file then "formData" else "query") := by
  have hnone {type : Primitive} (htype : Primitive.ofName? p.type = some type) :
      ctx.flattened p = [] := by
    unfold flattened
    exact if_neg fun h => nomatch (ctx.hierarchy.isReference_iff.1 h).1.symm.trans htype
  unfold parameterSlots
  split
  · next htype =>
    rw [List.mem_filterMap]
    exact (or_iff_left fun ⟨_, h, _⟩ => nomatch htype.symm.trans h).symm
  · next htype =>
    rw [hnone htype]
    refine iff_of_false List.not_mem_nil ?_
    rintro (⟨e, he, -⟩ | ⟨type, h, hne, -⟩)
    · cases he
    · exact hne (Option.some.inj (h.symm.trans htype))
  · next type hscalar htype =>
    rw [hnone htype, List.mem_singleton]
    constructor
    · rintro rfl
      exact Or.inr ⟨type, htype, fun h => hscalar h, rfl⟩
    · rintro (⟨e, he, -⟩ | ⟨type', h, -, rfl⟩)
      · cases he
      · obtain rfl := Option.some.inj (htype.symm.trans h)
        rfl

/-- What is flattened has the name of the parameter, with segments behind it. -/
theorem exists_path_of_mem_flattened (hb : ctx.flattening.Built) {p : Parameter} {key : String}
    {flat : FlatParameter} (h : (key, flat) ∈ ctx.flattened p) :
    ∃ path, flat.name = p.name ++ path ∧ Bracketed path := by
  obtain ⟨hreference, e, he, q, hq, rfl, -⟩ := mem_flattened.1 h
  have hk := (ctx.hierarchy.isReference_iff.1 hreference).2
  exact ⟨q.name, rfl, (hb.leaf_of_mem_parameters hk he hq).bracketed⟩

/-- The values inside a class have names of their own. -/
theorem nodup_names_flattened (hb : ctx.flattening.Built) (p : Parameter) :
    ((ctx.flattened p).map (·.2.name)).Nodup := by
  unfold flattened
  split
  · next hreference =>
    have hk := (ctx.hierarchy.isReference_iff.1 hreference).2
    obtain ⟨e, he⟩ : ∃ e, ctx.flattening.expand p.type = .ok e := ⟨_, hb.expand_eq hk⟩
    have hnodup := hb.nodup_parameterNames hk he
    rw [he]
    show (((e.parameters.map _).map _).map _).Nodup
    rw [List.map_map, List.map_map]
    have hinjective : Function.Injective (p.name ++ ·) := fun a b h => by
      have hlists := congrArg String.toList h
      dsimp only at hlists
      rw [String.toList_append, String.toList_append] at hlists
      exact String.toList_injective (List.append_cancel_left hlists)
    have hnames := hnodup.map hinjective
    rw [List.map_map] at hnames
    exact hnames
  · exact List.nodup_nil

section Plain

variable (hplain : ctx.PlainNames actions) {x : Service × Action} (hx : x ∈ actions)
  (hstyle : ctx.styleOf x.2 = .query)
include hplain hx hstyle

/-- **What is flattened** keeps its name under its key. -/
theorem PlainNames.sharedSlot?_of_mem_flattened {p : Parameter} (hp : p ∈ x.2.parameters)
    {e : String × FlatParameter} (h : e ∈ ctx.flattened p) :
    ∃ place, ctx.sharedSlot? actions e.1 = some (e.2.name, place) := by
  have hshared : e ∈ ctx.sharedBy x.2 := mem_sharedBy_iff_flattened.2 ⟨hstyle, p, hp, h⟩
  unfold sharedSlot?
  rw [hplain.get?_sharedParameters hx hshared]
  exact ⟨_, rfl⟩

/-- **The names of slots** begin with that of their parameter. -/
theorem PlainNames.rootName_of_mem_parameterSlots {p : Parameter} (hp : p ∈ x.2.parameters)
    {slot : String × String} (h : slot ∈ ctx.parameterSlots (ctx.sharedSlot? actions) p) :
    rootName slot.1 = p.name := by
  have hname := hplain.parameters x hx p hp
  rcases mem_parameterSlots.1 h with ⟨e, he, hslot⟩ | ⟨type, -, -, rfl⟩
  · obtain ⟨place, hplace⟩ := hplain.sharedSlot?_of_mem_flattened hx hstyle hp he
    obtain rfl := Option.some.inj (hplace.symm.trans hslot)
    obtain ⟨path, hpath, hbracketed⟩ := exists_path_of_mem_flattened hplain.built he
    show rootName e.2.name = p.name
    rw [hpath, rootName_append hname (Or.inr hbracketed)]
  · have hself := rootName_append hname (Or.inl rfl)
    rwa [String.append_empty] at hself

theorem PlainNames.nodup_parameterSlots {p : Parameter} (hp : p ∈ x.2.parameters) :
    (ctx.parameterSlots (ctx.sharedSlot? actions) p).Nodup := by
  unfold parameterSlots
  split
  · refine List.Nodup.of_map Prod.fst ?_
    rw [List.map_filterMap]
    have hnames : (ctx.flattened p).filterMap
        (fun e => (ctx.sharedSlot? actions e.1).map Prod.fst)
          = (ctx.flattened p).map (·.2.name) := by
      rw [← List.filterMap_eq_map]
      refine List.filterMap_congr fun e he => ?_
      obtain ⟨place, hplace⟩ := hplain.sharedSlot?_of_mem_flattened hx hstyle hp he
      rw [hplace]
      rfl
    rw [hnames]
    exact nodup_names_flattened hplain.built p
  · exact List.nodup_nil
  · exact List.nodup_singleton _

/-- **The parameters of an action do not clash with each other.** -/
theorem PlainNames.nodup_flatMap_parameterSlots (hdistinct : (x.2.parameters.map (·.name)).Nodup) :
    (x.2.parameters.flatMap (ctx.parameterSlots (ctx.sharedSlot? actions))).Nodup := by
  rw [List.nodup_flatMap]
  refine ⟨fun p hp => hplain.nodup_parameterSlots hx hstyle hp, ?_⟩
  refine (List.pairwise_map.1 hdistinct).imp_of_mem fun {p q} hp hq hne slot hslot hslot' => ?_
  exact hne ((hplain.rootName_of_mem_parameterSlots hx hstyle hp hslot).symm.trans
    (hplain.rootName_of_mem_parameterSlots hx hstyle hq hslot'))

/-- A slot without a bracket in its name is that of a parameter that is written inline. -/
theorem PlainNames.exists_inline_of_plain {p : Parameter} (hp : p ∈ x.2.parameters)
    {slot : String × String} (h : slot ∈ ctx.parameterSlots (ctx.sharedSlot? actions) p)
    (hslot : '[' ∉ slot.1.toList) :
    ∃ type, Primitive.ofName? p.type = some type ∧ type ≠ .array ∧
      slot = (p.name, if type = .file then "formData" else "query") := by
  refine (mem_parameterSlots.1 h).resolve_left ?_
  rintro ⟨e, he, hshared⟩
  obtain ⟨place, hplace⟩ := hplain.sharedSlot?_of_mem_flattened hx hstyle hp he
  obtain rfl := Option.some.inj (hplace.symm.trans hshared)
  obtain ⟨path, hpath, rest, hrest⟩ := exists_path_of_mem_flattened hplain.built he
  refine hslot ?_
  show '[' ∈ e.2.name.toList
  rw [hpath, String.toList_append, hrest]
  exact List.mem_append_right _ List.mem_cons_self

end Plain

/-! ### When slots clash -/

theorem mem_listedKeys_of_mem_requestKeys {a : Action} {key : String}
    (hkey : key ∈ ctx.requestKeys a) : key ∈ ctx.listedKeys a := by
  unfold requestKeys at hkey
  unfold listedKeys
  refine List.mem_append_left _ ?_
  rcases List.mem_append.1 hkey with hkey | hkey
  · split at hkey
    · next h =>
      rw [if_pos h.1]
      exact List.mem_append_left _ hkey
    · cases hkey
  · exact List.mem_append_right _ hkey

/-- Uploads are in the form, all else is in the query. -/
theorem place_eq_iff {is is' : Prop} [Decidable is] [Decidable is'] :
    (if is then "formData" else "query") = (if is' then "formData" else "query") ↔
      (is ↔ is') := by
  have hne : "formData" ≠ "query" := by decide
  by_cases h : is <;> by_cases h' : is'
  · rw [if_pos h, if_pos h']
    exact iff_of_true rfl (iff_of_true h h')
  · rw [if_pos h, if_neg h']
    exact iff_of_false hne fun hiff => h' (hiff.1 h)
  · rw [if_neg h, if_pos h']
    exact iff_of_false hne.symm fun hiff => h (hiff.2 h')
  · rw [if_neg h, if_neg h']
    exact iff_of_true rfl (iff_of_false h h')

section Remaining

variable (hctx : OperationContext.Of config schema ctx) (hnames : schema.NamesApart config)
  {e : Service × Action} (he : e ∈ includedActions config schema.services)
include hctx hnames he

/-- **In query style** request-wide parameters have no slot of the action's own exactly if none
that is written inline has the name of one that travels in the same part of the request. -/
theorem disjoint_slots_iff_of_stands
    (stands : ctx.Stands (includedActions config schema.services) e) :
    (∀ slot ∈ (ctx.requestKeys e.2).filterMap
        (ctx.sharedSlot? (includedActions config schema.services)),
      ∀ slot' ∈ e.2.parameters.flatMap
        (ctx.parameterSlots (ctx.sharedSlot? (includedActions config schema.services))),
        slot ≠ slot') ↔
      ∀ p ∈ e.2.parameters, ∀ type, Primitive.ofName? p.type = some type → type ≠ .array →
        p.name ∈ ctx.requestKeys e.2 → ¬ (ctx.sendsUpload p.name = true ↔ type = .file) := by
  have hplain := PlainNames.of_schema hctx hnames.classes hnames.parameters
  have hstyle := (mem_of_standing? stands).2.2
  -- what a standing action lists is marked if it is an upload
  have hmarked {key : String} (hkey : key ∈ ctx.requestKeys e.2) :
      key ∈ ctx.keysUnderGet (includedActions config schema.services) :=
    mem_keysUnderGet.2 ⟨e, he, stands, mem_listedKeys_of_mem_requestKeys hkey⟩
  rw [slots_requestKeys hctx hnames]
  constructor
  · intro hdisjoint p hp type htype hscalar hkey hsame
    refine hdisjoint _ (List.mem_map_of_mem hkey) _ (List.mem_flatMap.2
      ⟨p, hp, mem_parameterSlots.2 (Or.inr ⟨type, htype, hscalar, rfl⟩)⟩) ?_
    exact congrArg (p.name, ·) (place_eq_iff.2 ((and_iff_left (hmarked hkey)).trans hsame))
  · rintro hinline slot hslot slot' hslot' rfl
    obtain ⟨key, hkey, rfl⟩ := List.mem_map.1 hslot
    obtain ⟨p, hp, hslot'⟩ := List.mem_flatMap.1 hslot'
    have hbracket := (plain_of_mem_requestKeys hctx hnames hkey).1
    obtain ⟨type, htype, hscalar, heq⟩ :=
      hplain.exists_inline_of_plain he hstyle hp hslot' hbracket
    obtain ⟨rfl, hplace⟩ := Prod.mk.inj heq
    exact hinline p hp type htype hscalar hkey
      ((and_iff_left (hmarked hkey)).symm.trans (place_eq_iff.1 hplace))

omit he in
/-- **A body** travels where no request-wide parameter does. -/
theorem ne_body_of_mem_slots {slot : String × String} (hslot : slot ∈
    (ctx.requestKeys e.2).filterMap (ctx.sharedSlot? (includedActions config schema.services))) :
    slot ≠ ("body", "body") := by
  rw [slots_requestKeys hctx hnames] at hslot
  obtain ⟨key, -, rfl⟩ := List.mem_map.1 hslot
  intro heq
  have hplace := congrArg Prod.snd heq
  dsimp only at hplace
  split at hplace
  · exact absurd hplace (by decide)
  · exact absurd hplace (by decide)

omit he in
/-- **Request-wide parameters** have slots of their own, unless the session has a reserved
name. -/
theorem nodup_slots_requestKeys_iff : ((ctx.requestKeys e.2).filterMap
      (ctx.sharedSlot? (includedActions config schema.services))).Nodup ↔
    (e.2.sessionRequired = true → ¬ ctx.SessionInBody e.2 →
      ¬ RequestParameters.Reserved ctx.requestParameters.session) := by
  have hinjective : Function.Injective fun key : String => (key,
      if ctx.sendsUpload key ∧ key ∈ ctx.keysUnderGet (includedActions config schema.services) then
        "formData" else "query") := fun _ _ h => congrArg Prod.fst h
  rw [slots_requestKeys hctx hnames, List.nodup_map_iff hinjective]
  exact nodup_requestKeys_iff hctx

/-- **When the parameters of an action that remains have slots of their own**: exactly if its
names are free, provided that names can be told apart. -/
theorem nodup_slots_iff (hremains : ctx.Remains (includedActions config schema.services) e) :
    (ctx.slots (ctx.sharedSlot? (includedActions config schema.services)) e.2).Nodup ↔
      ctx.NamesFree e.2 := by
  have hplain := PlainNames.of_schema hctx hnames.classes hnames.parameters
  unfold slots
  rw [List.nodup_append, nodup_slots_requestKeys_iff hctx hnames]
  cases hremains with
  | query stands =>
    have hstyle := (mem_of_standing? stands).2.2
    have hown := hplain.nodup_flatMap_parameterSlots he hstyle (hnames.distinct e he)
    rw [hstyle]
    dsimp only
    rw [and_iff_right hown, disjoint_slots_iff_of_stands hctx hnames he stands]
    exact ⟨fun h => ⟨h.1, fun _ => h.2⟩, fun h => ⟨h.session, h.inline hstyle⟩⟩
  | body last =>
    have hstyle := (mem_of_standingBody? last).2.2
    rw [hstyle]
    dsimp only
    refine ⟨fun h => ⟨h.1, fun hquery => nomatch hstyle.symm.trans hquery⟩, fun h => ?_⟩
    refine ⟨h.session, ?_⟩
    split
    · exact ⟨List.nodup_nil, fun _ _ _ hnone => nomatch hnone⟩
    · refine ⟨List.nodup_singleton _, fun slot hslot slot' hslot' heq => ?_⟩
      exact ne_body_of_mem_slots hctx hnames hslot (heq.trans (List.mem_singleton.1 hslot'))

end Remaining

end OperationContext

/-! ## Compiled documents -/

/-- **When a compiled document is without clashes**: the parameters of each action whose
operation remains have slots of their own. Where names can be told apart, that is so exactly
if their names are free: of all pairs of parameters of an operation, only a request-wide one
and one that is written inline, or the session and a built-in one, can clash. -/
theorem withoutClashes_compile_iff {config : Config} {schema : Schema} {ctx : OperationContext}
    {d : Document} (hctx : (OperationContext.ofSchema config schema).result = .ok ctx)
    (h : (compile config schema).result = .ok d) :
    (d.WithoutClashes ↔ ∀ e ∈ includedActions config schema.services,
      ctx.Remains (includedActions config schema.services) e →
        (ctx.slots (ctx.sharedSlot? (includedActions config schema.services)) e.2).Nodup) ∧
      (schema.NamesApart config → (d.WithoutClashes ↔
        ∀ e ∈ includedActions config schema.services,
          ctx.Remains (includedActions config schema.services) e → ctx.NamesFree e.2)) := by
  obtain ⟨ctx', definitions, operations, hctx', -, hrow, rfl⟩ := exists_row_of_compile h
  obtain rfl : ctx' = ctx := Except.ok.inj (hctx'.symm.trans hctx)
  have hof := OperationContext.of_ofSchema hctx
  have hyields := Cached.yields_mapM (fun e : Service × Action =>
    (ctx'.yields_operation e.1 e.2).and (OperationContext.yields_slots_operation
      (ctx'.sharedSlot? (includedActions config schema.services)) e.1 e.2))
    (includedActions config schema.services)
  have hslots : ((SwaggerForge.assemble schema ctx' definitions operations).finish
      config).WithoutClashes ↔ _ :=
    withoutClashes_assemble_iff hof (hyields.of_fresh operations hrow)
  refine ⟨hslots, fun hnames => hslots.trans ?_⟩
  exact forall₃_congr fun e he hremains => ctx'.nodup_slots_iff hof hnames he hremains

/-- An action that gives a report in a format of its own. -/
def printReport : Action :=
  { name := "print", parameters := [{ name := "format", type := "int" }] }

/-- The service of the action. -/
def reportService : Service := { id := "report", name := "report", actions := [printReport] }

/-- The schema of the example. -/
def reportSchema : Schema where
  apiVersion := "1.0"
  services := [reportService]

/-- All actions are made in query style. -/
def queryConfig : Config := { style := .query }

/-- The format of the report clashes with that of the response. -/
theorem not_withoutClashes_reportSchema : reportSchema.NamesApart queryConfig ∧
    ∃ ctx d, (OperationContext.ofSchema queryConfig reportSchema).result = .ok ctx ∧
      (compile queryConfig reportSchema).result = .ok d ∧ ¬ d.WithoutClashes := by
  have hnames : reportSchema.NamesApart queryConfig :=
    ⟨by decide, by decide, by decide, by decide, by decide⟩
  have hcontext : ∃ ctx, (OperationContext.ofSchema queryConfig reportSchema).result = .ok ctx ∧
      ctx.config = queryConfig ∧ ctx.requestParameters = RequestParameters.initial "ks" :=
    ⟨_, rfl, rfl, rfl⟩
  have hdocument : ∃ d, (compile queryConfig reportSchema).result = .ok d := ⟨_, rfl⟩
  obtain ⟨ctx, hctx, hconfig, hrequest⟩ := hcontext
  obtain ⟨d, hd⟩ := hdocument
  refine ⟨hnames, ctx, d, hctx, hd, fun h => ?_⟩
  have hstyle : ctx.styleOf printReport = .query := by
    unfold OperationContext.styleOf
    rw [hconfig]
    rfl
  have hpaths : ((includedActions queryConfig reportSchema.services).map fun e =>
      actionPath e.1.id e.2.name).Nodup := by decide
  have hin : (reportService, printReport) ∈ includedActions queryConfig reportSchema.services :=
    List.mem_singleton.2 rfl
  have hfree := ((withoutClashes_compile_iff hctx hd).2 hnames).1 h _ hin
    (.query (OperationContext.stands_of_nodup hpaths hin hstyle))
  refine hfree.inline hstyle _ (List.mem_singleton.2 rfl) .integer rfl (by decide) ?_ ?_
  · unfold OperationContext.requestKeys
    rw [hrequest]
    exact List.mem_append_right _ List.mem_cons_self
  · have hquery : ctx.sendsUpload "format" = false := by
      unfold OperationContext.sendsUpload
      rw [hrequest]
      decide
    exact iff_of_false (Bool.eq_false_iff.1 hquery) (by decide)

end SwaggerForge
