import SwaggerForge.Proofs.Acceptance
import SwaggerForge.Proofs.Credentials
import SwaggerForge.Proofs.Flattening
import SwaggerForge.Proofs.FormFiles

/-!
# The keys of shared parameters

A flattened parameter is shared under the name of its class and its own bracket path, and
all actions write to one table. Where no class has a colon in its name and no parameter of
an action an opening bracket, the key says where the parameter comes from: the class ends
at the first colon, and the parameter that was flattened at the first bracket behind it, as
every path inside a class begins with a segment (`Flattening.Leaf.bracketed`).

So one key always stands for one parameter, whichever actions share it
(`OperationContext.PlainNames.eq_of_mem_sharedBy`), and it is found under it
(`OperationContext.PlainNames.get?_sharedParameters`).
-/

namespace SwaggerForge

open Json

/-! ## Texts that are divided at a character -/

/-- Where a character comes first, a text is divided in one way only. -/
theorem eq_and_eq_of_append_cons {c : Char} {xs ys us vs : List Char} (hx : c ∉ xs) (hy : c ∉ ys)
    (h : xs ++ c :: us = ys ++ c :: vs) : xs = ys ∧ us = vs := by
  induction xs generalizing ys with
  | nil =>
    cases ys with
    | nil => exact ⟨rfl, (List.cons.inj h).2⟩
    | cons y ys => exact absurd ((List.cons.inj h).1 ▸ List.mem_cons_self) hy
  | cons x xs ih =>
    cases ys with
    | nil => exact absurd ((List.cons.inj h).1 ▸ List.mem_cons_self) hx
    | cons y ys =>
      obtain ⟨rfl, hrest⟩ := List.cons.inj h
      obtain ⟨rfl, hbehind⟩ := ih (fun hc => hx (List.mem_cons_of_mem _ hc))
        (fun hc => hy (List.mem_cons_of_mem _ hc)) hrest
      exact ⟨rfl, hbehind⟩

theorem toList_childPath (path name : String) :
    (childPath path name).toList = path.toList ++ '[' :: (name.toList ++ [']']) := by
  simp [childPath, String.toList_append]

/-- **A path that begins with a segment.** -/
def Bracketed (path : String) : Prop := ∃ rest, path.toList = '[' :: rest

/-- Steps from a class itself or from a place inside it begin with a segment. -/
theorem bracketed_childPath {path : String} (h : path = "" ∨ Bracketed path) (name : String) :
    Bracketed (childPath path name) := by
  rcases h with rfl | ⟨rest, hrest⟩
  · exact ⟨_, toList_childPath "" name⟩
  · refine ⟨rest ++ '[' :: (name.toList ++ [']']), ?_⟩
    rw [toList_childPath, hrest, List.cons_append]

/-! ## Paths inside a class -/

namespace Flattening

variable {f : Flattening}

theorem path_of_reached {name : String} {place : Place} (h : f.Reached name place) :
    place.path = "" ∨ Bracketed place.path := by
  induction h with
  | refl => exact Or.inl rfl
  | tail _ hop ih =>
    cases hop with
    | along => exact Or.inr (bracketed_childPath ih _)

/-- The root has no leaves: it is never entered. -/
theorem Leaf.ne_root {name leaf : String} (h : f.Leaf name leaf) : name ≠ f.definitions.root := by
  obtain ⟨place, hreached, hleaf⟩ := h
  rcases Relation.ReflTransGen.cases_head_iff.1 hreached with rfl | ⟨next, hop, -⟩
  · cases hleaf with
    | value enters => exact enters.1
    | discriminator enters => exact enters.1
  · cases hop with
    | along enters => exact enters.1

/-- **A leaf begins with a segment.** -/
theorem Leaf.bracketed {name leaf : String} (h : f.Leaf name leaf) : Bracketed leaf := by
  obtain ⟨place, hreached, hleaf⟩ := h
  have hpath := path_of_reached hreached
  cases hleaf with
  | value => exact bracketed_childPath hpath _
  | discriminator => exact bracketed_childPath hpath _

namespace Built

variable (hb : f.Built) {name : String} (hk : f.hierarchy.isKnown name = true) {e : Expansion}
  (he : f.expand name = .ok e)
include hb hk he

theorem leaf_of_mem_parameters {p : FlatParameter} (hp : p ∈ e.parameters) :
    f.Leaf name p.name :=
  (hb.mem_parameterNames_iff hk he).1 (List.mem_map_of_mem hp)

/-- A class has one parameter of a name. -/
theorem eq_of_name_eq {p q : FlatParameter} (hp : p ∈ e.parameters) (hq : q ∈ e.parameters)
    (h : p.name = q.name) : p = q :=
  List.inj_on_of_nodup_map (hb.nodup_parameterNames hk he) hp hq h

end Built

end Flattening

/-! ## Keys -/

/-- **A key tells the class, the parameter that was flattened, and the path.** -/
theorem QueryPart.sharedKey_inj {p p' : Parameter} {q q' : FlatParameter}
    (hclass : ':' ∉ p.type.toList) (hclass' : ':' ∉ p'.type.toList)
    (hname : '[' ∉ p.name.toList) (hname' : '[' ∉ p'.name.toList)
    (hpath : Bracketed q.name) (hpath' : Bracketed q'.name)
    (h : OperationContext.QueryPart.sharedKey p (q.qualified p.name)
      = OperationContext.QueryPart.sharedKey p' (q'.qualified p'.name)) :
    p.type = p'.type ∧ p.name = p'.name ∧ q.name = q'.name := by
  obtain ⟨rest, hrest⟩ := hpath
  obtain ⟨rest', hrest'⟩ := hpath'
  have hkey (r : Parameter) (flat : FlatParameter) :
      (OperationContext.QueryPart.sharedKey r (flat.qualified r.name)).toList
        = r.type.toList ++ ':' :: (r.name.toList ++ flat.name.toList) := by
    simp [OperationContext.QueryPart.sharedKey, FlatParameter.qualified, toString,
      String.toList_append]
  have hlists := congrArg String.toList h
  rw [hkey, hkey] at hlists
  obtain ⟨htype, hbehind⟩ := eq_and_eq_of_append_cons hclass hclass' hlists
  rw [hrest, hrest'] at hbehind
  obtain ⟨hroot, hsegments⟩ := eq_and_eq_of_append_cons hname hname' hbehind
  refine ⟨String.toList_injective htype, String.toList_injective hroot, ?_⟩
  exact String.toList_injective (by rw [hrest, hrest', hsegments])

namespace OperationContext

/-- **Names from which keys can be read**: no class has a colon in its name, and no
parameter of an action an opening bracket. -/
structure PlainNames (ctx : OperationContext) (actions : List (Service × Action)) : Prop where
  built : ctx.flattening.Built
  classes : ∀ c ∈ ctx.hierarchy.classes, ':' ∉ c.name.toList
  parameters : ∀ e ∈ actions, ∀ p ∈ e.2.parameters, '[' ∉ p.name.toList

namespace PlainNames

variable {ctx : OperationContext} {actions : List (Service × Action)}

theorem of_schema {config : Config} {schema : Schema} (hctx : OperationContext.Of config schema ctx)
    (hclasses : ∀ c ∈ schema.classes, ':' ∉ c.name.toList)
    (hparameters : ∀ e ∈ actions, ∀ p ∈ e.2.parameters, '[' ∉ p.name.toList) :
    ctx.PlainNames actions := by
  have hdeclared : ctx.flattening.hierarchy.classes = schema.classes :=
    (Hierarchy.root_and_classes_of_ofClasses hctx.hierarchy).2
  exact ⟨hctx.built, fun c hc => hclasses c (hdeclared ▸ hc), hparameters⟩

variable (hplain : ctx.PlainNames actions)
include hplain

/-- A class that is flattened to anything is declared, so its name holds no colon. -/
theorem not_mem_of_mem_parameters {name : String} (hk : ctx.hierarchy.isKnown name = true)
    {e : Expansion} (he : ctx.flattening.expand name = .ok e) {q : FlatParameter}
    (hq : q ∈ e.parameters) : ':' ∉ name.toList := by
  have hleaf := hplain.built.leaf_of_mem_parameters hk he hq
  rcases ctx.hierarchy.isKnown_iff.1 hk with hroot | hdeclared
  · exact absurd (hroot.trans hplain.built.root_eq.symm) hleaf.ne_root
  · obtain ⟨c, hc, rfl⟩ := List.mem_map.1 hdeclared
    exact hplain.classes c hc

/-- **One key stands for one parameter**, whichever actions share it. -/
theorem eq_of_mem_sharedBy {x y : Service × Action} (hx : x ∈ actions) (hy : y ∈ actions)
    {key : String} {flat flat' : FlatParameter} (h : (key, flat) ∈ ctx.sharedBy x.2)
    (h' : (key, flat') ∈ ctx.sharedBy y.2) : flat = flat' := by
  obtain ⟨-, p, hp, hreference, e, he, q, hq, rfl, hkey⟩ := mem_sharedBy.1 h
  obtain ⟨-, p', hp', hreference', e', he', q', hq', rfl, hkey'⟩ := mem_sharedBy.1 h'
  have hk := (ctx.hierarchy.isReference_iff.1 hreference).2
  have hk' := (ctx.hierarchy.isReference_iff.1 hreference').2
  obtain ⟨htype, hname, hpath⟩ := QueryPart.sharedKey_inj
    (hplain.not_mem_of_mem_parameters hk he hq) (hplain.not_mem_of_mem_parameters hk' he' hq')
    (hplain.parameters x hx p hp) (hplain.parameters y hy p' hp')
    (hplain.built.leaf_of_mem_parameters hk he hq).bracketed
    (hplain.built.leaf_of_mem_parameters hk' he' hq').bracketed (hkey.symm.trans hkey')
  -- the two are flattened from one class, which has one parameter of a name
  rw [htype] at hk he
  obtain rfl : e = e' := Except.ok.inj (he.symm.trans he')
  rw [hplain.built.eq_of_name_eq hk he hq hq' hpath, hname]

/-- **What an action shares is found under its key**: no parameter of all requests and no
other action puts anything else there. -/
theorem get?_sharedParameters {x : Service × Action} (hx : x ∈ actions) {key : String}
    {flat : FlatParameter} (h : (key, flat) ∈ ctx.sharedBy x.2) :
    (ctx.sharedParameters actions).get? key = some flat.toJson := by
  unfold sharedParameters Table.ofList
  rw [Table.insertAll_append]
  refine Table.get?_insertAll_of_agree ?_ ?_
  · exact List.mem_flatMap.2 ⟨x, hx, List.mem_map.2 ⟨(key, flat), h, rfl⟩⟩
  · intro v hv
    obtain ⟨y, hy, hv⟩ := List.mem_flatMap.1 hv
    obtain ⟨⟨key', flat'⟩, h', heq⟩ := List.mem_map.1 hv
    obtain ⟨rfl, rfl⟩ := Prod.mk.inj heq
    rw [hplain.eq_of_mem_sharedBy hy hx h' h]

end PlainNames

end OperationContext

/-! ## What finishing leaves of references and shared parameters -/

namespace Json

/-- **The fields of an object, save those of some names.** -/
def fieldsBut (names : List String) : Json → List (String × Json)
  | .object t => t.entries.filter fun e => e.1 ∉ names
  | _ => []

end Json

/-- Writing some fields does not show in the others. -/
theorem Table.filter_insertEntry {α : Type} {names : List String} {key : String}
    (hkey : key ∈ names) (v : α) (es : List (String × α)) :
    (Table.insertEntry key v es).filter (fun e => e.1 ∉ names)
      = es.filter fun e => e.1 ∉ names := by
  induction es with
  | nil =>
    show [(key, v)].filter _ = []
    rw [List.filter_eq_nil_iff]
    simp [hkey]
  | cons e rest ih =>
    obtain ⟨k, w⟩ := e
    unfold Table.insertEntry
    split
    · next hk =>
      subst hk
      rw [List.filter_cons_of_neg (by simp [hkey]), List.filter_cons_of_neg (by simp [hkey])]
    · rw [List.filter_cons, List.filter_cons, ih]

theorem Table.filter_insertAll {α : Type} {names : List String} {more : List (String × α)}
    (h : ∀ e ∈ more, e.1 ∈ names) (t : Table α) :
    (t.insertAll more).entries.filter (fun e => e.1 ∉ names)
      = t.entries.filter fun e => e.1 ∉ names := by
  induction more generalizing t with
  | nil => rfl
  | cons e rest ih =>
    obtain ⟨hkey, hrest⟩ := List.forall_mem_cons.1 h
    exact (ih hrest (t.insert e.1 e.2)).trans (Table.filter_insertEntry hkey e.2 t.entries)

/-- Marking an upload writes where it travels and nothing else. -/
theorem Upload.fieldsBut_mark {names : List String} (hin : "in" ∈ names) (p : Json) :
    (Upload.mark p).fieldsBut names = p.fieldsBut names := by
  unfold Upload.mark
  split
  · cases p with
    | object t => exact Table.filter_insertEntry hin _ t.entries
    | _ => rfl
  · rfl

/-- **Outside an operation** hints say only how a parameter is entered. -/
theorem Hint.fieldsBut_annotateParameter (sources : List Hint.Source) {names : List String}
    (hinput : "x-inputType" ∈ names) (name : String) (t : Table Json) :
    (Json.object (Hint.annotateParameter sources name none t)).fieldsBut names
      = (Json.object t).fieldsBut names := by
  have hoffered : Hint.offered sources none name (t.get? "type") = [] := by
    unfold Hint.offered
    rw [List.find?_eq_none.2 fun s _ => by simp]
  have hexpiry : Hint.isExpiry name none = false := rfl
  rw [Hint.annotateParameter_eq]
  refine Table.filter_insertAll (fun e he => ?_) t
  unfold Hint.parameterHints at he
  rw [hoffered, hexpiry, List.append_nil, if_neg Bool.false_ne_true, List.append_nil] at he
  rcases List.mem_append.1 he with he | he
  · split at he
    · exact List.mem_singleton.1 he ▸ hinput
    · cases he
  · split at he
    · exact List.mem_singleton.1 he ▸ hinput
    · cases he

/-- **A flattened parameter in a finished document** is as it was made, up to where it
travels and how it is entered. -/
theorem FlatParameter.fieldsBut_parameter (flat : FlatParameter) (sources : List Hint.Source)
    (listed : Prop) [Decidable listed] {names : List String} (hin : "in" ∈ names)
    (hinput : "x-inputType" ∈ names) :
    (Hint.parameter sources none
      (if listed then Upload.mark flat.toJson else flat.toJson)).fieldsBut names
        = flat.toJson.fieldsBut names := by
  have hmarked : (if listed then Upload.mark flat.toJson else flat.toJson).fieldsBut names
      = flat.toJson.fieldsBut names := by
    split
    · exact Upload.fieldsBut_mark hin _
    · rfl
  have hschema : (if listed then Upload.mark flat.toJson else flat.toJson).field? "schema"
      = none := by
    split
    · rw [Upload.field?_mark_of_ne (by decide)]
      exact flat.inQuery_toJson.schema
    · exact flat.inQuery_toJson.schema
  generalize (if listed then Upload.mark flat.toJson else flat.toJson) = p at hmarked hschema
  rw [← hmarked]
  obtain h | ⟨t, s, rfl, -, hs, -⟩ | ⟨t, name, rfl, -, -, -, h⟩ :=
    Hint.parameter_cases sources none p
  · rw [h]
  · exact nomatch hs.symm.trans hschema
  · rw [h]
    exact Hint.fieldsBut_annotateParameter sources hinput name t

/-- Neither marks nor hints are put on references. -/
theorem Upload.markInline_parameterRef (key : String) :
    Upload.markInline (parameterRef key) = parameterRef key := by
  have hkey : Upload.sharedKey? (parameterRef key) = some key :=
    (OperationParameter.shared key).sharedKey?_toJson
  unfold Upload.markInline
  rw [hkey]

theorem Hint.parameter_parameterRef (sources : List Hint.Source) (scope : Option String)
    (key : String) : Hint.parameter sources scope (parameterRef key) = parameterRef key := rfl

/-- **What an operation that stands alone lists** when the document is finished: its
parameters one by one, of which the references are as they were. -/
theorem Document.exists_parametersOf_finish {d : Document} {path : String} {o : PlacedOperation}
    (config : Config)
    (halone : d.paths.get? path = some (fields [(o.method, o.operation.toJson)])) :
    ∃ method operation, (d.finish config).paths.get? path = some (fields [(method, operation)]) ∧
      ∃ g : Json → Json, Upload.parametersOf operation
          = o.operation.parameters.map (fun p => g p.toJson) ∧
        ∀ key, g (parameterRef key) = parameterRef key := by
  obtain ⟨method, operation, hitem, rfl | rfl⟩ := exists_finished_alone config halone
  · refine ⟨_, _, hitem, Hint.parameter (d.pickSources config) (some path), ?_,
      Hint.parameter_parameterRef _ _⟩
    rw [parametersOf_hints, o.operation.parametersOf_toJson, List.map_map]
    rfl
  · refine ⟨_, _, hitem,
      fun p => Hint.parameter (d.pickSources config) (some path) (Upload.markInline p), ?_,
      fun key => ?_⟩
    · rw [parametersOf_hints_promoted, o.operation.parametersOf_toJson, List.map_map]
      rfl
    · dsimp only
      rw [Upload.markInline_parameterRef, Hint.parameter_parameterRef]

/-! ## Compiled documents -/

/-- What an action in query style lists for one of its parameters stands together. -/
theorem OperationContext.exists_parameters_of_query {ctx : OperationContext} {s : Service}
    {a : Action} {o : PlacedOperation} (ho : ctx.OperationOf s a o)
    (hstyle : ctx.styleOf a = .query) {front behind : List Parameter} {p : Parameter}
    (hp : a.parameters = front ++ p :: behind) :
    ∃ leading part rest, ctx.QueryPartOf a p part ∧
      o.operation.parameters = leading ++ part.parameters ++ rest := by
  cases ho with
  | body style => exact nomatch style.symm.trans hstyle
  | @query parts responses style each answers =>
    rw [hp] at each
    obtain ⟨front', part, behind', rfl, -, hpart, -⟩ := exists_division_of_forall₂ each
    refine ⟨ctx.sessionParameter a ++ ctx.attachedParameters
      ++ front'.flatMap QueryPart.parameters, part, behind'.flatMap QueryPart.parameters,
      hpart, ?_⟩
    show ctx.queryParameters a (front' ++ part :: behind') = _
    unfold queryParameters
    rw [List.flatMap_append, List.flatMap_cons]
    simp only [List.append_assoc]

/-- A parameter of a class type is flattened. -/
theorem OperationContext.exists_expand_of_queryPartOf {ctx : OperationContext} {a : Action}
    {p : Parameter} {part : QueryPart} (h : ctx.QueryPartOf a p part)
    (hclass : ctx.hierarchy.isReference p.type = true) :
    ∃ e, ctx.flattening.expand p.type = .ok e ∧
      part = .flattened p (e.parameters.map (FlatParameter.qualified p.name)) := by
  have hprimitive := (ctx.hierarchy.isReference_iff.1 hclass).1
  cases h with
  | flattened reference expanded => exact ⟨_, expanded, rfl⟩
  | omitted named => exact nomatch hprimitive.symm.trans named
  | inline named => exact nomatch hprimitive.symm.trans named

/-- **Shared parameters are faithful.** In query style, what a parameter of a class type is
flattened to is referred to in order, one reference for each value inside the class, and
under its key the finished document has the value as it was flattened, up to where it
travels and how it is entered. It does not matter which other actions share the key: the
names of classes and parameters tell all keys apart. -/
theorem flattened_exact {config : Config} {schema : Schema} {ctx : OperationContext}
    {d : Document} (hctx : (OperationContext.ofSchema config schema).result = .ok ctx)
    (h : (compile config schema).result = .ok d)
    (hclasses : ∀ c ∈ schema.classes, ':' ∉ c.name.toList)
    (hparameters : ∀ e ∈ includedActions config schema.services,
      ∀ p ∈ e.2.parameters, '[' ∉ p.name.toList)
    {before after : List (Service × Action)} {s : Service} {a : Action}
    (hin : includedActions config schema.services = before ++ (s, a) :: after)
    (halone : ∀ e ∈ before ++ after, actionPath e.1.id e.2.name ≠ actionPath s.id a.name)
    (hstyle : config.styleOf a = .query) {front behind : List Parameter} {p : Parameter}
    (hp : a.parameters = front ++ p :: behind)
    (hclass : ctx.hierarchy.isReference p.type = true) :
    ∃ e method operation leading rest, ctx.flattening.expand p.type = .ok e ∧
      d.paths.get? (actionPath s.id a.name) = some (fields [(method, operation)]) ∧
      Upload.parametersOf operation
        = leading ++ e.parameters.map (fun flat => parameterRef
            (OperationContext.QueryPart.sharedKey p (flat.qualified p.name))) ++ rest ∧
      ∀ flat ∈ e.parameters, ∃ shown,
        d.parameters.get? (OperationContext.QueryPart.sharedKey p (flat.qualified p.name))
          = some shown ∧
        shown.fieldsBut ["in", "x-inputType"]
          = (flat.qualified p.name).toJson.fieldsBut ["in", "x-inputType"] := by
  obtain ⟨ctx', definitions, operations, hctx', -, hops, rfl⟩ := compile_eq_ok h
  obtain rfl : ctx' = ctx := Except.ok.inj (hctx'.symm.trans hctx)
  have hof := OperationContext.of_ofSchema hctx
  have hplain := OperationContext.PlainNames.of_schema hof hclasses hparameters
  have hquery : ctx'.styleOf a = .query := (hof.styleOf_eq a).trans hstyle
  have hmem : (s, a) ∈ includedActions config schema.services := by
    rw [hin]
    exact List.mem_append_right _ List.mem_cons_self
  have hshown : (SwaggerForge.assemble schema ctx' definitions operations).parameters
      = ctx'.sharedParameters (includedActions config schema.services) := parameters_assemble hops
  obtain ⟨sources, hfinish⟩ := Document.get?_parameters_finish
    (SwaggerForge.assemble schema ctx' definitions operations) config
  -- the operation of the action stands alone under its path
  rw [hin] at hops
  obtain ⟨o, ho, hitem⟩ := exists_operation_alone hops halone
  obtain ⟨leading, part, rest, hpart, hlisted⟩ :=
    OperationContext.exists_parameters_of_query ho hquery hp
  obtain ⟨e, he, rfl⟩ := OperationContext.exists_expand_of_queryPartOf hpart hclass
  obtain ⟨method, operation, hfinished, g, hparametersOf, href⟩ :=
    Document.exists_parametersOf_finish
      (d := SwaggerForge.assemble schema ctx' definitions operations) config hitem
  refine ⟨e, method, operation, leading.map (fun p => g p.toJson), rest.map (fun p => g p.toJson),
    he, hfinished, ?_, fun flat hflat => ?_⟩
  · rw [hparametersOf, hlisted, List.map_append, List.map_append]
    refine congrArg (_ ++ · ++ _) ?_
    show ((e.parameters.map _).map _).map _ = _
    rw [List.map_map, List.map_map]
    exact List.map_congr_left fun flat _ => href _
  · have hshared : (OperationContext.QueryPart.sharedKey p (flat.qualified p.name),
        flat.qualified p.name) ∈ ctx'.sharedBy a := by
      refine OperationContext.mem_sharedBy.2 ⟨hquery, p, ?_, hclass, e, he, flat, hflat, rfl, rfl⟩
      rw [hp]
      exact List.mem_append_right _ List.mem_cons_self
    refine ⟨_, by rw [hfinish, hshown, hplain.get?_sharedParameters hmem hshared]; rfl, ?_⟩
    exact (flat.qualified p.name).fieldsBut_parameter sources _ (by decide) (by decide)

/-! ## An example

Two services take the animals of `Flattening.pets` under one name, and one of their actions
takes an upload beside it. -/

/-- A parameter of a class type. -/
def animal : Parameter := { name := "pet", type := "Animal" }

/-- The first service and its action. -/
def enrol : Action := { name := "enrol", parameters := [animal] }

def shelter : Service := { id := "shelter", name := "shelter", actions := [enrol] }

/-- The second service and its actions. -/
def examine : Action :=
  { name := "examine", parameters := [{ name := "xray", type := "file" }, animal] }

def discharge : Action := { name := "discharge", parameters := [animal] }

def clinic : Service := { id := "clinic", name := "clinic", actions := [examine, discharge] }

/-- The schema of the example. -/
def shelterSchema : Schema where
  apiVersion := "1.0"
  classes := Flattening.pets.classes
  services := [shelter, clinic]

/-- Its configuration: all actions are made in query style. -/
def shelterConfig : Config := { petConfig with style := .query }

/-- What its operations are made from. -/
def shelterContext : OperationContext where
  config := shelterConfig
  flattening := Flattening.petWalk
  errors := []
  requestParameters := RequestParameters.initial "ks"

theorem ofSchema_shelterSchema :
    (OperationContext.ofSchema shelterConfig shelterSchema).result = .ok shelterContext := by
  have hclasses : Hierarchy.ofClasses "Object" Flattening.pets.classes = .ok Flattening.pets := rfl
  have hrequest : RequestParameters.ofSettings shelterConfig Flattening.pets []
      = .ok (RequestParameters.initial "ks") := rfl
  have henums : EnumCatalog.ofDecls [] = .ok ⟨∅⟩ := rfl
  unfold OperationContext.ofSchema
  exact Report.result_bind_eq_ok.2 ⟨_, hclasses, Report.result_bind_eq_ok.2 ⟨_, hrequest,
    Report.result_bind_eq_ok.2 ⟨_, henums,
      Report.result_bind_eq_ok.2 ⟨_, Flattening.built_petWalk, rfl⟩⟩⟩⟩

theorem wellFormed_shelterSchema : shelterSchema.WellFormed shelterConfig where
  names_nodup := by decide
  root_not_mem := by decide
  envelope := by decide
  bases := by decide
  constants := by decide
  toResolved := by decide

theorem compile_shelterSchema : ∃ d, (compile shelterConfig shelterSchema).result = .ok d :=
  Schema.passes_compile.2 wellFormed_shelterSchema.accepted

/-- What an action takes beside its upload is faithful, though others share the same keys. -/
theorem flattened_exact_shelterSchema :
    ∃ d, (compile shelterConfig shelterSchema).result = .ok d ∧
      ∃ e method operation leading rest, shelterContext.flattening.expand "Animal" = .ok e ∧
        d.paths.get? "/service/clinic/action/examine" = some (fields [(method, operation)]) ∧
        Upload.parametersOf operation
          = leading ++ e.parameters.map (fun flat => parameterRef
              (OperationContext.QueryPart.sharedKey animal (flat.qualified "pet"))) ++ rest ∧
        ∀ flat ∈ e.parameters, ∃ shown,
          d.parameters.get? (OperationContext.QueryPart.sharedKey animal (flat.qualified "pet"))
            = some shown ∧
          shown.fieldsBut ["in", "x-inputType"]
            = (flat.qualified "pet").toJson.fieldsBut ["in", "x-inputType"] := by
  obtain ⟨d, hd⟩ := compile_shelterSchema
  have hclasses : ∀ c ∈ shelterSchema.classes, ':' ∉ c.name.toList := by decide
  have hparameters : ∀ e ∈ includedActions shelterConfig shelterSchema.services,
      ∀ p ∈ e.2.parameters, '[' ∉ p.name.toList := by decide
  have hin : includedActions shelterConfig shelterSchema.services
      = [(shelter, enrol)] ++ (clinic, examine) :: [(clinic, discharge)] := rfl
  have halone : ∀ e ∈ [(shelter, enrol)] ++ [(clinic, discharge)],
      actionPath e.1.id e.2.name ≠ actionPath clinic.id examine.name := by decide
  have htakes : examine.parameters = [{ name := "xray", type := "file" }] ++ animal :: [] := rfl
  exact ⟨d, hd, flattened_exact ofSchema_shelterSchema hd hclasses hparameters hin halone rfl
    htakes rfl⟩

end SwaggerForge
