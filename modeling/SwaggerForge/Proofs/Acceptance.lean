import SwaggerForge.Proofs.Checks

/-!
# Which schemas compile

The compiler refuses a schema in any of its phases: while the classes are put in order,
while the request-wide parameters, the enumerations and the definitions are made, and while
each action becomes an operation. `Schema.Accepted` collects what these phases look at, and
`passes_compile` says that a schema compiles exactly when it is accepted; flattening, the
only step that goes round in circles, never fails.

From this the two directions follow that a reader of the documentation expects. A schema
that is well formed throughout compiles (`compile_of_wellFormed`). A schema that compiles
has no unresolved names and no bad defaults – but for what no phase looks at, a request
setting whose name is taken and an array in a query (`resolved_iff_of_compile`).
-/

namespace SwaggerForge

/-! ## Classes -/

namespace Hierarchy

/-- Distinct names that are not the root's have no fault. -/
theorem nameFault?_eq_none {root : String} {seen : List String} {cs : List ClassDecl}
    (hnodup : (cs.map (·.name)).Nodup) (hroot : root ∉ cs.map (·.name))
    (hseen : ∀ n ∈ cs.map (·.name), n ∉ seen) : nameFault? root seen cs = none := by
  induction cs generalizing seen with
  | nil => rfl
  | cons c rest ih =>
    rw [List.map_cons, List.nodup_cons] at hnodup
    rw [List.map_cons, List.mem_cons, not_or] at hroot
    rw [List.map_cons, List.forall_mem_cons] at hseen
    unfold nameFault?
    rw [if_neg (Ne.symm hroot.1), if_neg hseen.1]
    refine ih hnodup.2 hroot.2 fun n hn hmem => ?_
    rcases List.mem_cons.1 hmem with rfl | hmem
    · exact hnodup.1 hn
    · exact hseen.2 n hn hmem

/-- Bases that exist have no fault. -/
theorem baseFault?_eq_none {root : String} {cs : List ClassDecl}
    (hbase : ∀ c ∈ cs, ∀ b ∈ c.base, b = root ∨ b ∈ cs.map (·.name)) :
    baseFault? root cs = none := by
  refine List.findSome?_eq_none_iff.2 fun c hc => ?_
  unfold baseFaultOf?
  cases hb : c.base with
  | none => rfl
  | some b => exact if_pos (hbase c hc b hb)

/-- **A list of classes is accepted** exactly when their names are distinct, none is that of
the root, and every base exists. -/
theorem passes_ofClasses {root : String} {classes : List ClassDecl} :
    Passes (ofClasses root classes) ↔
      (classes.map (·.name)).Nodup ∧ root ∉ classes.map (·.name) ∧
      ∀ c ∈ classes, ∀ b ∈ c.base, b = root ∨ b ∈ classes.map (·.name) := by
  constructor
  · rintro ⟨h, hok⟩
    obtain ⟨rfl, rfl⟩ := root_and_classes_of_ofClasses hok
    exact ⟨h.names_nodup, h.root_not_mem, h.base_mem⟩
  · rintro ⟨hnodup, hroot, hbase⟩
    have hnames : nameFault? root [] classes = none :=
      nameFault?_eq_none hnodup hroot fun _ _ => List.not_mem_nil
    have hbases := baseFault?_eq_none hbase
    unfold ofClasses
    split
    · next hfault => exact nomatch hnames.symm.trans hfault
    · split
      · next hfault => exact nomatch hbases.symm.trans hfault
      · exact passes_ok _

end Hierarchy

/-! ## Enumerations -/

/-- **A catalogue is made** exactly when each constant of an integer enumeration is an
integer. -/
theorem EnumCatalog.passes_ofDecls {decls : List EnumDecl} :
    Passes (ofDecls decls) ↔ ∀ d ∈ decls, d.kind = .int →
      ∀ c ∈ d.constants, (Numeral.parseInt? (trim c.value)).isSome = true := by
  refine (passes_bind_iff_left fun _ _ => passes_ok _).trans (passes_mapM.trans ?_)
  refine forall_congr' fun d => forall_congr' fun _ => ?_
  refine (passes_bind_iff_left fun _ _ => passes_ok _).trans ?_
  refine (passes_bind_iff_left fun _ _ => passes_ok _).trans (passes_mapM.trans ?_)
  unfold EnumDecl.option
  cases d.kind with
  | string => exact iff_of_true (fun _ _ => passes_ok _) fun h => nomatch h
  | int =>
    rw [imp_iff_right rfl]
    refine forall_congr' fun c => forall_congr' fun _ => ?_
    cases hn : Numeral.parseInt? (trim c.value) with
    | none => exact iff_of_false (not_passes_error _) Bool.false_ne_true
    | some n => exact iff_of_true (passes_ok _) rfl

/-! ## Request settings -/

/-- Where a list can be split: at its head, or in its tail. -/
theorem forall_split_cons {α : Type} {P : List α → α → Prop} {x : α} {rest : List α} :
    (∀ before y after, x :: rest = before ++ y :: after → P before y) ↔
      P [] x ∧ ∀ before y after, rest = before ++ y :: after → P (x :: before) y := by
  constructor
  · intro h
    exact ⟨h [] x rest rfl, fun before y after hrest => h (x :: before) y after (by rw [hrest]; rfl)⟩
  · rintro ⟨hhead, htail⟩ before y after hsplit
    cases before with
    | nil =>
      obtain ⟨rfl, -⟩ := List.cons.inj hsplit
      exact hhead
    | cons z before =>
      obtain ⟨rfl, hrest⟩ := List.cons.inj hsplit
      exact htail before y after hrest

namespace RequestParameters

/-- **A name that is taken** for a request setting: by one of the given names, or by an
earlier setting of a primitive type. -/
def Taken (names : List String) (before : List RequestSetting) (name : String) : Prop :=
  name ∈ names ∨ ∃ s ∈ before, s.name = name ∧ Primitive.isName s.type = true

theorem taken_nil {names : List String} {name : String} : Taken names [] name ↔ name ∈ names :=
  or_iff_left fun ⟨_, hmem, _⟩ => List.not_mem_nil hmem

/-- The names of the request-wide parameters. -/
def names (g : RequestParameters) : List String := g.entries.map Prod.fst

/-- A name is found among the keys of entries. -/
theorem any_fst_eq_iff {g : RequestParameters} {name : String} :
    g.entries.any (·.1 == name) = true ↔ name ∈ g.names := by
  unfold names
  simp only [List.any_eq_true, List.mem_map, beq_iff_eq]

variable {h : Hierarchy}

/-- A setting passes when its name is taken, and else when its type denotes something. -/
theorem passes_add {g : RequestParameters} {s : RequestSetting} :
    Passes (add h g s) ↔ s.name ∈ g.names ∨ Resolves h.Known s.type := by
  unfold add
  split
  · next htaken => exact iff_of_true (passes_ok _) (Or.inl (any_fst_eq_iff.1 htaken))
  · next hfree =>
    rw [or_iff_right fun htaken => hfree (any_fst_eq_iff.2 htaken), ← h.passes_resolve]
    refine passes_bind_iff_left fun meant _ => ?_
    cases meant <;> exact passes_ok _

/-- **What is taken after a setting** is what was taken before, and its own name if it has a
primitive type. -/
theorem taken_add {g g' : RequestParameters} {s : RequestSetting} (hadd : add h g s = .ok g')
    {before : List RequestSetting} {name : String} :
    Taken g'.names before name ↔ Taken g.names (s :: before) name := by
  have hcons : Taken g.names (s :: before) name ↔
      (name ∈ g.names ∨ s.name = name ∧ Primitive.isName s.type = true) ∨
        ∃ t ∈ before, t.name = name ∧ Primitive.isName t.type = true := by
    unfold Taken
    simp only [List.exists_mem_cons_iff, or_assoc]
  rw [hcons]
  refine or_congr_left ?_
  unfold add at hadd
  split at hadd
  · next htaken =>
    obtain rfl := Except.ok.inj hadd
    refine (or_iff_left_of_imp ?_).symm
    rintro ⟨rfl, -⟩
    exact any_fst_eq_iff.1 htaken
  · obtain ⟨meant, hmeant, hadd⟩ := bind_eq_ok.1 hadd
    cases meant with
    | reference target =>
      obtain rfl := pure_eq_ok.1 hadd
      have hname := (h.exists_reference_iff hmeant).1 ⟨target, rfl⟩
      rw [hname]
      exact (or_iff_left fun ⟨_, hfalse⟩ => Bool.false_ne_true hfalse).symm
    | primitive type =>
      obtain rfl := pure_eq_ok.1 hadd
      have hname : Primitive.isName s.type = true := by
        rw [Primitive.isName, h.ofName?_of_resolve hmeant]
        rfl
      show name ∈ (g.entries ++ [(s.name, settingEntry s type)]).map Prod.fst ↔ _
      rw [List.map_append, List.mem_append, List.map_singleton, List.mem_singleton, hname,
        and_iff_left rfl, eq_comm]
      exact Iff.rfl

/-- **Settings pass** exactly when each one's type denotes something, unless its name is
taken. -/
theorem passes_foldlM_add {g : RequestParameters} {settings : List RequestSetting} :
    Passes (settings.foldlM (add h) g) ↔
      ∀ before s after, settings = before ++ s :: after →
        Taken g.names before s.name ∨ Resolves h.Known s.type := by
  induction settings generalizing g with
  | nil => exact iff_of_true (passes_ok _) fun before s after h => by simp at h
  | cons x rest ih =>
    rw [List.foldlM_cons, forall_split_cons, taken_nil, ← passes_add]
    refine passes_bind_iff_and fun g' hadd => ih.trans ?_
    simp only [taken_add hadd]

end RequestParameters

/-! ## Definitions -/

namespace Declarations

variable (env : Declarations)

/-- **A class has a definition** exactly when its properties are well typed; its base is
known in any case. -/
theorem passes_define {c : ClassDecl} (hc : c ∈ env.hierarchy.classes) :
    Passes (env.define c).result ↔ ∀ p ∈ c.properties, p.WellTyped env.hierarchy.Known := by
  rw [env.result_define, defineDeclared, Report.result_bind, Report.result_mapM]
  refine (passes_bind_iff_left fun declared _ => ?_).trans (passes_mapM.trans ?_)
  · cases hb : c.base with
    | none => exact passes_ok _
    | some b =>
      have hbase : Passes (env.hierarchy.resolve b c.name) :=
        env.hierarchy.passes_resolve.2 (Or.inr (env.hierarchy.isKnown_of_base hc hb))
      rw [Report.result_bind]
      exact (passes_bind_iff_left fun _ _ => passes_ok _).2 hbase
  · exact forall_congr' fun p => forall_congr' fun _ => env.passes_defineProperty

/-- **All classes have definitions** exactly when all properties are well typed. -/
theorem passes_defineAll :
    Passes env.defineAll.result ↔
      ∀ c ∈ env.hierarchy.classes, ∀ p ∈ c.properties, p.WellTyped env.hierarchy.Known := by
  unfold defineAll
  rw [Report.result_bind, Report.result_mapM]
  refine (passes_bind_iff_left fun _ _ => passes_ok _).trans (passes_mapM.trans ?_)
  refine forall_congr' fun c => forall_congr' fun hc => ?_
  rw [Report.result_bind, ← env.passes_define hc]
  exact passes_bind_iff_left fun _ _ => passes_ok _

end Declarations

/-- **There is a section of definitions** exactly when the name of the envelope is free, in
the profile that has one. -/
theorem passes_definitionSection {config : Config} {apiVersion : String} {env : Declarations}
    {definitions : DefinitionSet} (hb : env.defineAll.result = .ok definitions) :
    Passes (definitionSection config apiVersion definitions) ↔
      (config.profile = .enveloped → ¬ env.hierarchy.Known envelopeName) := by
  unfold definitionSection Hierarchy.Known
  rw [← Declarations.mem_keys_toTable hb, ← Table.contains_iff]
  dsimp only
  cases config.profile with
  | standard => exact iff_of_true (passes_ok _) fun h => nomatch h
  | enveloped =>
    rw [imp_iff_right rfl]
    dsimp only
    split
    · next hmem => exact iff_of_false (not_passes_error _) fun h => h hmem
    · next hfree => exact iff_of_true (passes_ok _) hfree

/-! ## Schemas -/

namespace Schema

variable (config : Config) (schema : Schema)

/-- The names that denote a class of the schema or the root. -/
def Known (name : String) : Prop :=
  name = config.rootClass ∨ name ∈ schema.classes.map (·.name)

/-- **What the compiler looks at before it comes to actions.** It does not look at the type
of a request setting whose name is taken. -/
structure Declared : Prop where
  names_nodup : (schema.classes.map (·.name)).Nodup
  root_not_mem : config.rootClass ∉ schema.classes.map (·.name)
  bases : ∀ c ∈ schema.classes, ∀ b ∈ c.base, schema.Known config b
  settings : ∀ before s after, schema.requestSettings = before ++ s :: after →
    RequestParameters.Taken (RequestParameters.initial config.sessionParameter).names before s.name
      ∨ Resolves (schema.Known config) s.type
  constants : ∀ d ∈ schema.enums, d.kind = .int →
    ∀ c ∈ d.constants, (Numeral.parseInt? (trim c.value)).isSome = true
  properties : ∀ c ∈ schema.classes, ∀ p ∈ c.properties, p.WellTyped (schema.Known config)

/-- **A schema that the compiler accepts.** Of an array in a query it does not look at the
elements and the default. -/
structure Accepted : Prop extends schema.Declared config where
  envelope : config.profile = .enveloped → ¬ schema.Known config envelopeName
  parameters : ∀ e ∈ includedActions config schema.services, ∀ p ∈ e.2.parameters,
    (config.styleOf e.2 = .query ∧ p.type = "array") ∨ p.WellTyped (schema.Known config)
  results : ∀ e ∈ includedActions config schema.services, ∀ r ∈ e.2.result,
    r.WellTyped (schema.Known config)

variable {config schema}

/-- What an accepted list of classes knows is what the schema declares. -/
theorem known_of_ofClasses {h : Hierarchy}
    (hok : Hierarchy.ofClasses config.rootClass schema.classes = .ok h) :
    h.Known = schema.Known config := by
  obtain ⟨hroot, hclasses⟩ := Hierarchy.root_and_classes_of_ofClasses hok
  funext name
  unfold Hierarchy.Known Known
  rw [h.isKnown_iff, Hierarchy.names, hroot, hclasses]

/-- **There is a context for the actions** exactly when all else that is declared passes. -/
theorem passes_ofSchema :
    Passes (OperationContext.ofSchema config schema).result ↔ schema.Declared config := by
  constructor
  · rintro ⟨ctx, hok⟩
    have hctx := OperationContext.of_ofSchema hok
    have hknown := known_of_ofClasses hctx.hierarchy
    obtain ⟨hnodup, hroot, hbases⟩ := Hierarchy.passes_ofClasses.1 ⟨_, hctx.hierarchy⟩
    have hsettings := RequestParameters.passes_foldlM_add.1 ⟨_, hctx.requestParameters⟩
    have hproperties := ctx.declarations.passes_defineAll.1 ⟨_, hctx.built⟩
    rw [hknown] at hsettings hproperties
    rw [(Hierarchy.root_and_classes_of_ofClasses hctx.hierarchy).2] at hproperties
    exact {
      names_nodup := hnodup
      root_not_mem := hroot
      bases := hbases
      settings := hsettings
      constants := EnumCatalog.passes_ofDecls.1 ⟨_, hctx.enums⟩
      properties := hproperties }
  · intro hdecl
    obtain ⟨h, hh⟩ := Hierarchy.passes_ofClasses.2
      ⟨hdecl.names_nodup, hdecl.root_not_mem, hdecl.bases⟩
    have hknown := known_of_ofClasses hh
    obtain ⟨g, hg⟩ : Passes (RequestParameters.ofSettings config h schema.requestSettings) := by
      refine RequestParameters.passes_foldlM_add.2 ?_
      rw [hknown]
      exact hdecl.settings
    obtain ⟨enums, henums⟩ := EnumCatalog.passes_ofDecls.2 hdecl.constants
    obtain ⟨definitions, hdefinitions⟩ : Passes (Declarations.mk h enums).defineAll.result := by
      refine (Declarations.passes_defineAll _).2 ?_
      rw [hknown, (Hierarchy.root_and_classes_of_ofClasses hh).2]
      exact hdecl.properties
    exact ⟨_, Report.result_bind_eq_ok.2 ⟨h, hh, Report.result_bind_eq_ok.2 ⟨g, hg,
      Report.result_bind_eq_ok.2 ⟨enums, henums,
        Report.result_bind_eq_ok.2 ⟨definitions, hdefinitions, rfl⟩⟩⟩⟩⟩

/-- **The operations can be made** exactly when each action passes. -/
theorem passes_operations {ctx : OperationContext} (hb : ctx.flattening.Built)
    {actions : List (Service × Action)} :
    Passes ((actions.mapM fun (s, a) => ctx.operation s a).run ∅).1.result ↔
      ∀ e ∈ actions,
        (∀ p ∈ e.2.parameters, (ctx.styleOf e.2 = .query ∧ p.type = "array") ∨
          p.WellTyped ctx.hierarchy.Known) ∧
        ∀ r ∈ e.2.result, r.WellTyped ctx.hierarchy.Known := by
  have hfresh := Cached.fresh_mapM
    (fun e : Service × Action => (ctx.yields_operation e.1 e.2).transparent) actions
  show Passes (actions.mapM fun e : Service × Action => ctx.operation e.1 e.2).fresh ↔ _
  rw [hfresh.2, passes_mapM]
  exact forall_congr' fun e => forall_congr' fun _ => ctx.passes_operation hb

/-- **A schema compiles** exactly when it is accepted. -/
theorem passes_compile : Passes (compile config schema).result ↔ schema.Accepted config := by
  have hrest {ctx : OperationContext} (hctx : OperationContext.Of config schema ctx) :
      Passes (show Report Document from do
        let definitions ← definitionSection config schema.apiVersion ctx.flattening.definitions
        let operations ←
          (((includedActions config schema.services).mapM fun (s, a) => ctx.operation s a).run ∅).1
        return (SwaggerForge.assemble schema ctx definitions operations).finish config).result ↔
      (config.profile = .enveloped → ¬ schema.Known config envelopeName) ∧
      ∀ e ∈ includedActions config schema.services,
        (∀ p ∈ e.2.parameters, (config.styleOf e.2 = .query ∧ p.type = "array") ∨
          p.WellTyped (schema.Known config)) ∧
        ∀ r ∈ e.2.result, r.WellTyped (schema.Known config) := by
    rw [Report.result_bind, ← known_of_ofClasses hctx.hierarchy]
    refine (passes_bind_iff_and fun definitions _ => ?_).trans
      (and_congr_left' (passes_definitionSection hctx.built))
    rw [Report.result_bind]
    refine (passes_bind_iff_left fun _ _ => passes_ok _).trans ?_
    refine (passes_operations hctx.built).trans ?_
    simp only [hctx.styleOf_eq]
  unfold compile
  rw [Report.result_bind, passes_bind]
  constructor
  · rintro ⟨ctx, hok, hpass⟩
    obtain ⟨henvelope, hactions⟩ := (hrest (OperationContext.of_ofSchema hok)).1 hpass
    exact {
      Schema.passes_ofSchema.1 ⟨ctx, hok⟩ with
      envelope := henvelope
      parameters := fun e he => (hactions e he).1
      results := fun e he => (hactions e he).2 }
  · intro haccepted
    obtain ⟨ctx, hok⟩ := Schema.passes_ofSchema.2 haccepted.toDeclared
    exact ⟨ctx, hok, (hrest (OperationContext.of_ofSchema hok)).2
      ⟨haccepted.envelope, fun e he => ⟨haccepted.parameters e he, haccepted.results e he⟩⟩⟩

/-! ## Schemas without faults -/

variable (config schema)

/-- **A schema without unresolved names and bad defaults**, in its classes, its request
settings and the actions that are included. -/
structure Resolved : Prop where
  properties : ∀ c ∈ schema.classes, ∀ p ∈ c.properties, p.WellTyped (schema.Known config)
  settings : ∀ s ∈ schema.requestSettings, Resolves (schema.Known config) s.type
  parameters : ∀ e ∈ includedActions config schema.services, ∀ p ∈ e.2.parameters,
    p.WellTyped (schema.Known config)
  results : ∀ e ∈ includedActions config schema.services, ∀ r ∈ e.2.result,
    r.WellTyped (schema.Known config)

/-- **A well-formed schema**: all names resolve and are told apart, and all literals are
of their types. -/
structure WellFormed : Prop extends schema.Resolved config where
  names_nodup : (schema.classes.map (·.name)).Nodup
  root_not_mem : config.rootClass ∉ schema.classes.map (·.name)
  envelope : config.profile = .enveloped → ¬ schema.Known config envelopeName
  bases : ∀ c ∈ schema.classes, ∀ b ∈ c.base, schema.Known config b
  constants : ∀ d ∈ schema.enums, d.kind = .int →
    ∀ c ∈ d.constants, (Numeral.parseInt? (trim c.value)).isSome = true

instance : DecidablePred (schema.Known config) := fun _ => inferInstanceAs (Decidable (_ ∨ _))

instance : Decidable (schema.Resolved config) :=
  decidable_of_iff
    ((∀ c ∈ schema.classes, ∀ p ∈ c.properties, p.WellTyped (schema.Known config)) ∧
      (∀ s ∈ schema.requestSettings, Resolves (schema.Known config) s.type) ∧
      ∀ e ∈ includedActions config schema.services,
        (∀ p ∈ e.2.parameters, p.WellTyped (schema.Known config)) ∧
        ∀ r ∈ e.2.result, r.WellTyped (schema.Known config))
    ⟨fun h => ⟨h.1, h.2.1, fun e he => (h.2.2 e he).1, fun e he => (h.2.2 e he).2⟩,
      fun h => ⟨h.properties, h.settings, fun e he => ⟨h.parameters e he, h.results e he⟩⟩⟩

variable {config schema}

theorem WellFormed.accepted (h : schema.WellFormed config) : schema.Accepted config where
  names_nodup := h.names_nodup
  root_not_mem := h.root_not_mem
  bases := h.bases
  settings := by
    intro before s after hsplit
    refine Or.inr (h.settings s ?_)
    rw [hsplit]
    exact List.mem_append_right before List.mem_cons_self
  constants := h.constants
  properties := h.properties
  envelope := h.envelope
  parameters := fun e he p hp => Or.inr (h.parameters e he p hp)
  results := h.results

/-- **Every well-formed schema compiles.** On the way every class of the schema can be
flattened, whether an action takes it or not, however the classes refer to each other and
inherit. -/
theorem compile_of_wellFormed (h : schema.WellFormed config) :
    ∃ ctx d, (OperationContext.ofSchema config schema).result = .ok ctx ∧
      (compile config schema).result = .ok d ∧
      ∀ name, schema.Known config name → ∃ e, ctx.flattening.expand name = .ok e := by
  obtain ⟨ctx, hok⟩ := passes_ofSchema.2 h.accepted.toDeclared
  obtain ⟨d, hd⟩ := passes_compile.2 h.accepted
  have hctx := OperationContext.of_ofSchema hok
  refine ⟨ctx, d, hok, hd, fun name hname => ⟨_, Flattening.Built.expand_eq hctx.built ?_⟩⟩
  rw [← known_of_ofClasses hctx.hierarchy] at hname
  exact hname

theorem wellFormed_petSchema : petSchema.WellFormed petConfig where
  names_nodup := by decide
  root_not_mem := by decide
  envelope := by decide
  bases := by decide
  constants := by decide
  toResolved := by decide

/-- The schema of the example compiles, and its classes can be flattened. -/
theorem compile_of_wellFormed_petSchema : petSchema.WellFormed petConfig ∧
    ∃ ctx d, (OperationContext.ofSchema petConfig petSchema).result = .ok ctx ∧
      (compile petConfig petSchema).result = .ok d ∧
      ∀ name, petSchema.Known petConfig name → ∃ e, ctx.flattening.expand name = .ok e :=
  ⟨wellFormed_petSchema, compile_of_wellFormed wellFormed_petSchema⟩

/-- **What a compiled schema leaves unresolved**: a schema that compiles has no unresolved
names and no bad defaults exactly when the two kinds of declarations have none that no step
looks at – request settings whose names are taken, and arrays in queries. -/
theorem resolved_iff_of_compile {d : Document} (h : (compile config schema).result = .ok d) :
    schema.Resolved config ↔
      (∀ before s after, schema.requestSettings = before ++ s :: after →
        RequestParameters.Taken (RequestParameters.initial config.sessionParameter).names before
          s.name → Resolves (schema.Known config) s.type) ∧
      ∀ e ∈ includedActions config schema.services, config.styleOf e.2 = .query →
        ∀ p ∈ e.2.parameters, p.type = "array" → p.WellTyped (schema.Known config) := by
  have haccepted := passes_compile.1 ⟨d, h⟩
  constructor
  · intro hresolved
    refine ⟨fun before s after hsplit _ => hresolved.settings s ?_,
      fun e he _ p hp _ => hresolved.parameters e he p hp⟩
    rw [hsplit]
    exact List.mem_append_right before List.mem_cons_self
  · rintro ⟨hsettings, harrays⟩
    refine ⟨haccepted.properties, fun s hs => ?_, fun e he p hp => ?_, haccepted.results⟩
    · obtain ⟨before, after, hsplit⟩ := List.append_of_mem hs
      rcases haccepted.settings before s after hsplit with htaken | hresolves
      · exact hsettings before s after hsplit htaken
      · exact hresolves
    · rcases haccepted.parameters e he p hp with ⟨hquery, harray⟩ | hwell
      · exact harrays e he hquery p hp harray
      · exact hwell

/-- An action that takes a list of what nothing declares. -/
def orderSchema : Schema where
  apiVersion := "1.0"
  services := [{
    id := "order"
    name := "order"
    actions := [{
      name := "cancel"
      parameters := [{ name := "ids", type := "array", arrayType := some "OrderId" }] }] }]

/-- **In query style such an action compiles**, although the type of the elements is
unresolved; in body style it does not. -/
theorem not_resolved_orderSchema :
    (∃ d, (compile { style := .query } orderSchema).result = .ok d ∧
      ¬ orderSchema.Resolved { style := .query }) ∧
    ¬ ∃ d, (compile { style := .body } orderSchema).result = .ok d := by
  have haccepted : orderSchema.Accepted { style := .query } := {
    names_nodup := by decide
    root_not_mem := by decide
    bases := by decide
    settings := fun before s after h => by simp [orderSchema] at h
    constants := by decide
    properties := by decide
    envelope := by decide
    parameters := by decide
    results := by decide }
  obtain ⟨d, hd⟩ := passes_compile.2 haccepted
  refine ⟨⟨d, hd, fun hresolved => ?_⟩, fun hbody => ?_⟩
  · exact absurd ((resolved_iff_of_compile hd).1 hresolved).2 (by decide)
  · exact absurd (passes_compile.1 hbody).parameters (by decide)

end Schema

end SwaggerForge
