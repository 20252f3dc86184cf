import SwaggerForge.Proofs.TypedDefaults

/-!
# Defaults agree with types

Defaults agree with types when a document is assembled, and the finishing passes keep it so:
uploads become strings, but have no defaults, and hints write no defaults but one. The expiry
of a new session is one day, whatever type it has, and takes the place of any other default
(`Document.SetsExpiry`). All other defaults of a compiled document agree with their types
(`defaultsAgree_compile`).
-/

namespace SwaggerForge

open Json

/-! ## Documents -/

namespace Document

/-- **A document whose defaults agree with their types**: those of its definitions, of shared
parameters, and of what operations list, inline or as properties of a body, save names that
are exempt under a path. -/
structure DefaultsAgree (d : Document) (exempt : String → String → Prop) : Prop where
  definitions : ∀ name s, d.definitions.get? name = some s → s.PropertiesAgree fun _ => False
  shared : ∀ key p, d.parameters.get? key = some p → p.DefaultAgrees
  inline : ∀ path p, d.Lists path p →
    (∀ name, p.textField? "name" = some name → ¬ exempt path name) → p.DefaultAgrees
  body : ∀ path p, d.Lists path p → ∀ s, p.field? "schema" = some s →
    s.PropertiesAgree (exempt path)

/-- **A document in which the expiry of a new session is one day**, whatever its type,
inline or as a property of a body. -/
structure SetsExpiry (d : Document) : Prop where
  inline : ∀ p, d.Lists Hint.sessionStartPath p →
    p.textField? "name" = some Hint.expiryName → p.field? "default" = some (.int Hint.oneDay)
  body : ∀ p, d.Lists Hint.sessionStartPath p → ∀ s ps, p.field? "schema" = some s →
    s.field? "properties" = some (.object ps) → ∀ x, (Hint.expiryName, x) ∈ ps.entries →
      x.field? "type" ≠ none → x.field? "default" = some (.int Hint.oneDay)

end Document

/-! ## What the passes do to defaults -/

namespace Json

variable {j : Json}

/-- **An upload has no default**, so it may become a string. -/
theorem DefaultAgrees.withoutFiles (h : j.DefaultAgrees) : j.withoutFiles.DefaultAgrees := by
  have hsame : fieldWithoutFiles "default" = id := rfl
  intro type x htype hx
  rw [field?_withoutFiles] at htype hx
  rw [hsame, Option.map_id] at hx
  obtain ⟨type', htype', rfl⟩ := Option.map_eq_some_iff.1 htype
  obtain ⟨ty, rfl, hvalue⟩ := h type' x htype' hx
  have hfile : ty.toJson ≠ fileType := by
    intro heq
    rw [Primitive.eq_file_of_toJson heq] at hvalue
    exact hvalue
  exact ⟨ty, if_neg hfile, hvalue⟩

end Json

namespace Hint

variable (sources : List Source) (scope : Option String)

/-- The expiry of a new session has no other hints. -/
theorem eq_of_isExpiry {name : String} (h : isExpiry name scope = true) :
    name = expiryName ∧ scope = some sessionStartPath := by
  unfold isExpiry at h
  rw [Bool.and_eq_true_iff, beq_iff_eq, beq_iff_eq] at h
  exact h.symm

theorem not_mem_keys_of_mem_offered (name : String) (type : Option Json) :
    "default" ∉ (offered sources scope name type).map Prod.fst := by
  unfold offered
  split
  · exact List.not_mem_nil
  · show "default" ∉ ["x-dynamicEnum", "x-inputType"]
    decide

/-- **The only default that a hint writes** to a property is the expiry of a new session. -/
theorem get?_default_annotateProperty (name : String) (t : Table Json) :
    (annotateProperty sources name scope t).get? "default"
      = if isExpiry name scope then some (.int oneDay) else t.get? "default" := by
  have hoffered := not_mem_keys_of_mem_offered sources scope name (t.get? "type")
  rw [annotateProperty_eq]
  unfold propertyHints
  rw [Table.insertAll_append]
  by_cases hexpiry : isExpiry name scope = true
  · obtain ⟨rfl, -⟩ := eq_of_isExpiry scope hexpiry
    have hsecret : ¬ isSecret expiryName = true := by decide
    have hdate : ¬ isDateProperty expiryName = true := by decide
    rw [if_neg hsecret, if_neg hdate, if_pos hexpiry, if_pos hexpiry]
    show (Table.insert _ "default" (Json.int oneDay)).get? "default" = _
    rw [Table.get?_insert, if_pos rfl]
  · rw [if_neg hexpiry, if_neg hexpiry, Table.get?_insertAll_of_not_mem,
      Table.get?_insertAll_of_not_mem hoffered]
    split
    · decide
    · split
      · decide
      · exact List.not_mem_nil

/-- And so it is for a parameter. -/
theorem get?_default_annotateParameter (name : String) (t : Table Json) :
    (annotateParameter sources name scope t).get? "default"
      = if isExpiry name scope then some (.int oneDay) else t.get? "default" := by
  have hoffered := not_mem_keys_of_mem_offered sources scope name (t.get? "type")
  have hinput (is : Prop) [Decidable is] (how : String) :
      "default" ∉ (if is then [("x-inputType", Json.string how)] else []).map Prod.fst := by
    split
    · show "default" ∉ ["x-inputType"]
      decide
    · exact List.not_mem_nil
  rw [annotateParameter_eq]
  unfold parameterHints
  rw [Table.insertAll_append, Table.insertAll_append, Table.insertAll_append]
  by_cases hexpiry : isExpiry name scope = true
  · rw [if_pos hexpiry, if_pos hexpiry]
    show (Table.insert _ "default" (Json.int oneDay)).get? "default" = _
    rw [Table.get?_insert, if_pos rfl]
  · rw [if_neg hexpiry, if_neg hexpiry, Table.get?_insertAll_of_not_mem List.not_mem_nil,
      Table.get?_insertAll_of_not_mem hoffered, Table.get?_insertAll_of_not_mem (hinput _ _),
      Table.get?_insertAll_of_not_mem (hinput _ _)]

section Property

variable {name : String} {j : Json}

theorem defaultAgrees_hinted (h : j.DefaultAgrees) (hname : ¬ isExpiry name scope = true) :
    (hinted sources scope name j).DefaultAgrees := by
  refine h.congr (field?_hinted sources scope (by decide) name j) ?_
  obtain hself | ⟨t, rfl, -, hannotated⟩ := hinted_cases sources scope name j
  · rw [hself]
  · have hsame : schemaField sources none "default" = id := rfl
    rw [hannotated]
    show (annotateProperty sources name scope _).get? "default" = t.get? "default"
    rw [get?_default_annotateProperty, if_neg hname, Table.get?_mapEntries, hsame, Option.map_id]
    rfl

theorem default_hinted_of_isExpiry {t : Table Json} (href : t.get? "$ref" = none)
    (hname : isExpiry name scope = true) :
    (hinted sources scope name (.object t)).field? "default" = some (.int oneDay) := by
  rw [hinted_object sources scope href]
  show (annotateProperty sources name scope _).get? "default" = _
  rw [get?_default_annotateProperty, if_pos hname]

end Property

section Parameter

variable {p : Json}

theorem defaultAgrees_parameter (h : p.DefaultAgrees)
    (hname : ∀ name, p.textField? "name" = some name → ¬ isExpiry name scope = true) :
    (parameter sources scope p).DefaultAgrees := by
  refine h.congr (field?_parameter sources scope (by decide) (by decide) p) ?_
  obtain hself | ⟨t, s, rfl, -, -, hbody⟩ | ⟨t, name, rfl, -, -, ht, hannotated⟩ :=
    parameter_cases sources scope p
  · rw [hself]
  · rw [hbody]
    show (t.insert "schema" _).get? "default" = t.get? "default"
    rw [Table.get?_insert, if_neg (by decide)]
  · have htext : (object t).textField? "name" = some name := by
      unfold textField?
      show (t.get? "name").bind string? = _
      rw [ht]
      rfl
    rw [hannotated]
    show (annotateParameter sources name scope t).get? "default" = t.get? "default"
    rw [get?_default_annotateParameter, if_neg (hname name htext)]

end Parameter

/-- **The expiry of a new session** is set where a parameter has its name. -/
theorem default_parameter_of_isExpiry {j : Json} {name : String}
    (hname : j.textField? "name" = some name) (hexpiry : isExpiry name scope = true)
    (href : j.field? "$ref" = none) (hschema : j.field? "schema" = none) :
    (parameter sources scope j).field? "default" = some (.int oneDay) := by
  obtain ⟨t, -, hannotated⟩ := exists_annotated sources scope hname href hschema
  rw [hannotated]
  show (annotateParameter sources name scope t).get? "default" = _
  rw [get?_default_annotateParameter, if_pos hexpiry]

end Hint

/-! ## Compiled documents -/

/-- **Under a path**, the expiry of a new session is exempt. -/
def Hint.StartsSession (path name : String) : Prop := path = sessionStartPath ∧ name = expiryName

theorem Hint.isExpiry_iff {path name : String} :
    isExpiry name (some path) = true ↔ StartsSession path name := by
  unfold isExpiry StartsSession
  rw [Bool.and_eq_true_iff, beq_iff_eq, beq_iff_eq, Option.some_inj]

section Assembled

variable {config : Config} {schema : Schema} {ctx : OperationContext} {definitions : Table Json}
  {actions : List (Service × Action)} {operations : List PlacedOperation}
  (hops : List.Forall₂ (fun e o => ctx.OperationOf e.1 e.2 o) actions operations)
include hops

theorem setsExpiry_assemble :
    ((SwaggerForge.assemble schema ctx definitions operations).finish config).SetsExpiry := by
  have hexpiry : Hint.isExpiry Hint.expiryName (some Hint.sessionStartPath) = true := by decide
  constructor
  · intro p hp hname
    obtain ⟨sources, -, -, -, -, q, -, j, hj, rfl⟩ := exists_passed_of_lists hops hp
    unfold textField? at hname
    rw [Hint.field?_parameter sources _ (by decide) (by decide)] at hname
    change j.textField? "name" = _ at hname
    have hnamed := (hj.textField? (by decide)).symm.trans hname
    cases q with
    | shared key => cases hnamed
    | body b => exact absurd (Option.some.inj hnamed) (by decide)
    | inline q =>
      refine Hint.default_parameter_of_isExpiry sources _ hname hexpiry ?_ ?_
      · exact (hj.field? _ (by decide)).trans (q.field?_toJson_eq_none (by decide))
      · exact (hj.field? _ (by decide)).trans (q.field?_toJson_eq_none (by decide))
  · intro p hp s ps hs hps x hx htype
    obtain ⟨sources, -, -, -, b, -, -, q, -, heq⟩ := exists_written_of_body hops hp hs hps hx
    change x = Hint.hinted sources _ Hint.expiryName q.toJson at heq
    subst heq
    cases q with
    | reference target => exact absurd rfl htype
    | value v items =>
      exact Hint.default_hinted_of_isExpiry sources _ (BodyProperty.field?_ref v items) hexpiry

theorem defaultsAgree_assemble (hctx : OperationContext.Of config schema ctx)
    (hdefs : definitionSection config schema.apiVersion ctx.flattening.definitions
      = .ok definitions) :
    ((SwaggerForge.assemble schema ctx definitions operations).finish config).DefaultsAgree
      Hint.StartsSession := by
  -- definitions and shared parameters are in the scope of no operation
  have hoff {name : String} : ¬ Hint.isExpiry name none = true := fun h =>
    nomatch (Hint.eq_of_isExpiry none h).2
  constructor
  · intro name s hs ps hps e he _
    obtain ⟨sources, x, hx, heq⟩ := exists_written_of_definition hctx.built hdefs hs hps he
    rw [heq]
    exact Hint.defaultAgrees_hinted sources none hx.defaultAgrees.withoutFiles hoff
  · intro key p hp
    obtain ⟨sources, q, hq, j, hj, rfl⟩ := exists_written_of_shared hops hp
    have hagrees := OperationContext.defaultAgrees_sharedParameters hctx hq
    exact Hint.defaultAgrees_parameter sources none
      (hagrees.congr (hj _ (by decide)) (hj _ (by decide))) fun _ _ => hoff
  · intro path p hp hnames
    obtain ⟨sources, s, a, o, hof, q, hq, j, hj, rfl⟩ := exists_passed_of_lists hops hp
    have hagrees := OperationParameter.defaultAgrees_toJson
      (OperationContext.offered_parameters hof q hq)
    refine Hint.defaultAgrees_parameter sources _
      (hagrees.congr (hj.field? _ (by decide)) (hj.field? _ (by decide))) fun name hname hexpiry =>
        hnames name ?_ (Hint.isExpiry_iff.1 hexpiry)
    unfold textField?
    rw [Hint.field?_parameter sources _ (by decide) (by decide)]
    exact hname
  · intro path p hp s hs ps hps e he hname
    obtain ⟨sources, s', a, o, b, hof, hb, q, hq, heq⟩ :=
      exists_written_of_body hops hp hs hps he
    have hoffered := OperationContext.offered_parameters hof _ hb
    rw [heq]
    exact Hint.defaultAgrees_hinted sources _ (BodyProperty.defaultAgrees_toJson (hoffered _ hq))
      fun h => hname (Hint.isExpiry_iff.1 h)

end Assembled

/-- **Defaults agree with types** in a compiled document, but for the expiry of a new session,
which is one day whatever its type. -/
theorem defaultsAgree_compile {config : Config} {schema : Schema} {d : Document}
    (h : (compile config schema).result = .ok d) :
    d.DefaultsAgree Hint.StartsSession ∧ d.SetsExpiry := by
  obtain ⟨ctx, definitions, operations, hctx, hdefs, hops, rfl⟩ := compile_eq_ok h
  exact ⟨defaultsAgree_assemble hops (OperationContext.of_ofSchema hctx) hdefs,
    setsExpiry_assemble hops⟩

/-- The schema of an API whose sessions expire at a time that is given by a text. -/
def sessionSchema : Schema where
  apiVersion := "1.0"
  services := [{
    id := "session"
    name := "session"
    actions := [{ name := "start", parameters := [{ name := "expiry", type := "string" }] }] }]

theorem defaultsAgree_compile_sessionSchema :
    ∃ d, (compile {} sessionSchema).result = .ok d ∧
      d.DefaultsAgree Hint.StartsSession ∧ d.SetsExpiry := by
  have hdocument : ∃ d, (compile {} sessionSchema).result = .ok d := ⟨_, rfl⟩
  obtain ⟨d, hd⟩ := hdocument
  exact ⟨d, hd, defaultsAgree_compile hd⟩

/-- **Without the exemption** defaults need not agree: the expiry is a text, and its default
a number. -/
theorem not_defaultsAgree_sessionSchema :
    ∃ d, (compile {} sessionSchema).result = .ok d ∧ ¬ d.DefaultsAgree fun _ _ => False := by
  have hdocument : ∃ d methods o front p t ps x, (compile {} sessionSchema).result = .ok d ∧
      d.paths.get? Hint.sessionStartPath = some (.object methods) ∧ methods.values = [o] ∧
      Upload.parametersOf o = front ++ [p] ∧ p.field? "schema" = some t ∧
      t.field? "properties" = some (.object ps) ∧ ps.entries = [(Hint.expiryName, x)] ∧
      x.field? "type" = some Primitive.string.toJson ∧
      x.field? "default" = some (.int Hint.oneDay) := by
    exact ⟨_, _, _, [parameterRef "ks", parameterRef "format", parameterRef "clientTag"], _, _, _,
      _, rfl, rfl, rfl, rfl, rfl, rfl, rfl, rfl, rfl⟩
  obtain ⟨d, methods, o, front, p, t, ps, x, hd, hpath, ho, hp, ht, hps, hx, htype, hdefault⟩ :=
    hdocument
  refine ⟨d, hd, fun h => ?_⟩
  have hlists : d.Lists Hint.sessionStartPath p := by
    refine ⟨methods, hpath, o, ho ▸ List.mem_singleton.2 rfl, ?_⟩
    rw [hp]
    exact List.mem_append_right _ (List.mem_singleton.2 rfl)
  obtain ⟨ty, hty, hvalue⟩ := h.body _ p hlists t ht ps hps _
    (hx ▸ List.mem_singleton.2 rfl) id _ _ htype hdefault
  rw [← Primitive.toJson_inj.1 hty] at hvalue
  exact hvalue

end SwaggerForge
