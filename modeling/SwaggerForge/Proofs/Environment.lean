import SwaggerForge.CommandLine.Program
import SwaggerForge.Proofs.NumberTexts
import SwaggerForge.Proofs.Success

/-!
# Settings from variables

Three settings can be given by variables, and there are two readers of them: a library call
(`Config.ofVariables`) and the command line, where the options of the same meaning are not set
(`settings?`). Both read a profile and a style by the same functions. The depth they read apart: the
one trims the text of the variable before it reads a count, the other takes the text as it stands.

So both are described by one structure, with the reader of the depth as its parameter
(`Config.Gives`). Whatever the command line accepts is accepted by the other, to the same
configuration. The other way round this holds but for one kind of text, a count with blanks around
it (`Config.PaddedCount`), which the command line rejects. That this is the only difference, and
that the program runs with the configuration that is read, is `settings_exact`.
-/

namespace SwaggerForge

/-! ## Faults of settings -/

theorem Profile.exists_setting_of_parse {text : String} {failure : Failure}
    (h : Profile.parse text = .error failure) : ∃ fault, failure = .setting fault := by
  unfold Profile.parse at h
  split at h
  · cases h
  · cases h
  · exact ⟨_, (Except.error.inj h).symm⟩

theorem Style.exists_setting_of_parse {text : String} {failure : Failure}
    (h : Style.parse text = .error failure) : ∃ fault, failure = .setting fault := by
  unfold Style.parse at h
  split at h
  · cases h
  · cases h
  · cases h
  · cases h
  · exact ⟨_, (Except.error.inj h).symm⟩

namespace Config

@[simp] theorem overriding_some {α : Type} (default : α) (read : String → Except Failure α)
    (text : String) : overriding default read (some text) = read text := rfl

theorem exists_setting_of_overriding {α : Type} {default : α} {read : String → Except Failure α}
    {text? : Option String} {failure : Failure}
    (hread : ∀ text e, read text = .error e → ∃ fault, e = .setting fault)
    (h : overriding default read text? = .error failure) : ∃ fault, failure = .setting fault := by
  cases text? with
  | none => cases h
  | some text => exact hread text failure h

/-! ## Depths -/

/-- **A padded count** is the text of a count with blanks around it. -/
def PaddedCount (text : String) : Prop := trim text ≠ text ∧ ∃ n, Numeral.CountText (trim text) n

/-- **A depth is read** from the text of a count, blanks around it disregarded. -/
theorem parseDepth_eq_ok_iff {text : String} {n : Nat} :
    parseDepth text = .ok n ↔ Numeral.CountText (trim text) n := by
  rw [← Numeral.parseCount_eq_ok_iff]
  unfold parseDepth
  cases Numeral.parseCount (trim text) with
  | ok k => exact ⟨fun h => congrArg Except.ok (Except.ok.inj h),
      fun h => congrArg Except.ok (Except.ok.inj h)⟩
  | error fault => exact ⟨fun h => (nomatch h), fun h => (nomatch h)⟩

/-! ## Configurations -/

/-- **What variables give**, if a depth is read from a text as told: the settings of those that are
set, and the defaults of all else. -/
structure Gives (readsDepth : String → Nat → Prop) (lookup : String → Option String)
    (config : Config) : Prop where
  profile : overriding .standard Profile.parse (lookup profileVariable) = .ok config.profile
  style : overriding .body Style.parse (lookup styleVariable) = .ok config.style
  maxDepth : match lookup depthVariable with
    | none => config.maxDepth = 4
    | some text => readsDepth text config.maxDepth
  others : config
    = { profile := config.profile, style := config.style, maxDepth := config.maxDepth }

variable {lookup : String → Option String} {config : Config}

/-- **Another reader** that reads the same of the depth that is set gives the same. -/
theorem Gives.imp {reads reads' : String → Nat → Prop} (h : Gives reads lookup config)
    (hreads : ∀ text, lookup depthVariable = some text →
      reads text config.maxDepth → reads' text config.maxDepth) : Gives reads' lookup config where
  profile := h.profile
  style := h.style
  maxDepth := by
    have hmax := h.maxDepth
    cases htext : lookup depthVariable with
    | none =>
      rw [htext] at hmax
      exact hmax
    | some text =>
      rw [htext] at hmax
      exact hreads text htext hmax
  others := h.others

/-- **The library takes a depth from a count in a trimmed text.** -/
theorem ofVariables_eq_ok_iff : ofVariables lookup = .ok config ↔
    Gives (fun text n => Numeral.CountText (trim text) n) lookup config := by
  have hdepth {n : Nat} : overriding 4 parseDepth (lookup depthVariable) = .ok n ↔
      match lookup depthVariable with
      | none => n = 4
      | some text => Numeral.CountText (trim text) n := by
    cases lookup depthVariable with
    | none => exact ⟨fun h => (Except.ok.inj h).symm, fun h => congrArg Except.ok h.symm⟩
    | some text =>
      rw [overriding_some]
      exact parseDepth_eq_ok_iff
  unfold ofVariables
  constructor
  · intro h
    obtain ⟨profile, hprofile, h⟩ := bind_eq_ok.1 h
    obtain ⟨style, hstyle, h⟩ := bind_eq_ok.1 h
    obtain ⟨maxDepth, hmaxDepth, h⟩ := bind_eq_ok.1 h
    obtain rfl := Except.ok.inj h
    exact ⟨hprofile, hstyle, hdepth.1 hmaxDepth, rfl⟩
  · intro h
    refine bind_eq_ok.2 ⟨_, h.profile, bind_eq_ok.2 ⟨_, h.style, bind_eq_ok.2
      ⟨_, hdepth.2 h.maxDepth, ?_⟩⟩⟩
    exact congrArg Except.ok h.others.symm

end Config

/-! ## The command line -/

/-- **The configuration that the command line arrives at**, if it accepts its settings. -/
def settings? (args : List String) (lookup : String → Option String) : Option Config :=
  (Invocation.parse? args lookup).bind fun i => i.config.toOption

/-- How the program ends after its work. -/
def Outcome.ofResult : Except ProgramFailure Unit → Outcome
  | .ok _ => .done
  | .error e => .failed e

namespace Invocation

/-- The configuration of an invocation. -/
theorem config_eq_ok_iff {i : Invocation} {config : Config} : i.config = .ok config ↔
    Config.overriding .standard Profile.parse i.profile = .ok config.profile ∧
      Config.overriding .body Style.parse i.style = .ok config.style ∧
      config.maxDepth = i.maxDepth.getD 4 ∧
      config = { profile := config.profile, style := config.style, maxDepth := config.maxDepth }
      := by
  unfold Invocation.config
  constructor
  · intro h
    obtain ⟨profile, hprofile, h⟩ := bind_eq_ok.1 h
    obtain ⟨style, hstyle, h⟩ := bind_eq_ok.1 h
    obtain rfl := Except.ok.inj h
    exact ⟨hprofile, hstyle, rfl, rfl⟩
  · rintro ⟨hprofile, hstyle, hdepth, hothers⟩
    refine bind_eq_ok.2 ⟨_, hprofile, bind_eq_ok.2 ⟨_, hstyle, ?_⟩⟩
    rw [← hdepth]
    exact congrArg Except.ok hothers.symm

/-- **What is wrong with a configuration** is wrong with a setting. -/
theorem exists_setting_of_config {i : Invocation} {failure : Failure}
    (h : i.config = .error failure) : ∃ fault, failure = .setting fault := by
  unfold Invocation.config at h
  cases hprofile : Config.overriding .standard Profile.parse i.profile with
  | error e =>
    rw [hprofile] at h
    obtain rfl := Except.error.inj h
    exact Config.exists_setting_of_overriding (fun _ _ => Profile.exists_setting_of_parse) hprofile
  | ok profile =>
    rw [hprofile] at h
    cases hstyle : Config.overriding .body Style.parse i.style with
    | error e =>
      rw [hstyle] at h
      obtain rfl := Except.error.inj h
      exact Config.exists_setting_of_overriding (fun _ _ => Style.exists_setting_of_parse) hstyle
    | ok style =>
      rw [hstyle] at h
      cases h

/-- An invocation without the options that variables stand in for. -/
def plain (o : Options) : Invocation where
  schemaPath := o.schemaPath.getD "schema.json"
  outputPath := o.outputPath.getD "swagger.json"
  strict := o.strict

section Run

variable {m : Type → Type} [Monad m] [Workspace m]

/-- **The work of the program** when its configuration has been settled. -/
def work (i : Invocation) (config : Config) : m (Except ProgramFailure Unit) := do
  match ← i.readSource with
  | .error e => return .error e
  | .ok text =>
    match i.documentOf config text with
    | .error e => return .error e
    | .ok document => i.writeOutput document.text

theorem run_of_config_eq_ok {i : Invocation} {config : Config} (h : i.config = .ok config) :
    (i.run : m (Except ProgramFailure Unit)) = i.work config := by
  unfold run
  rw [h]
  rfl

theorem run_of_config_eq_error {i : Invocation} {failure : Failure}
    (h : i.config = .error failure) :
    (i.run : m (Except ProgramFailure Unit)) = pure (.error (.compiler failure)) := by
  unfold run
  rw [h]

end Run

end Invocation

/-! ## Options left to the variables -/

section Unset

variable {args words : List String} {o : Options}
  (hargs : args.dropWhile Options.isVerbosity = "swagger" :: words)
  (hread : Options.read? {} words = some o)
  (hprofile : o.profile = none) (hstyle : o.style = none) (hdepth : o.maxDepth = none)
  {lookup : String → Option String}
include hargs hread hprofile hstyle hdepth

/-- **What a command line asks for** that leaves the settings to the variables. -/
theorem parse?_eq : Invocation.parse? args lookup =
    (match lookup Config.depthVariable with
      | none => some none
      | some text => (Numeral.parseCount text).toOption.map some).map fun maxDepth =>
        { Invocation.plain o with
          profile := lookup Config.profileVariable
          style := lookup Config.styleVariable
          maxDepth } := by
  unfold Invocation.parse?
  rw [hargs]
  show (Options.read? {} words).bind (Invocation.ofOptions? · lookup) = _
  rw [hread, Option.bind_some]
  unfold Invocation.ofOptions?
  rw [hprofile, hstyle, hdepth, Option.none_or, Option.none_or, Option.none_or]
  cases lookup Config.depthVariable with
  | none => rfl
  | some text =>
    dsimp only
    cases Numeral.parseCount text <;> rfl

/-- **The command line takes a depth from a count as it stands.** -/
theorem settings?_eq_some_iff {config : Config} :
    settings? args lookup = some config ↔ Config.Gives Numeral.CountText lookup config := by
  unfold settings?
  rw [parse?_eq hargs hread hprofile hstyle hdepth, Option.bind_map, Option.bind_eq_some_iff]
  simp only [Function.comp_apply, toOption_eq_some_iff, Invocation.config_eq_ok_iff]
  cases htext : lookup Config.depthVariable with
  | none =>
    constructor
    · rintro ⟨maxDepth, hmax, hconfig⟩
      obtain rfl := Option.some.inj hmax
      exact ⟨hconfig.1, hconfig.2.1, by rw [htext]; exact hconfig.2.2.1, hconfig.2.2.2⟩
    · intro h
      have hmax := h.maxDepth
      rw [htext] at hmax
      exact ⟨none, rfl, h.profile, h.style, hmax, h.others⟩
  | some text =>
    constructor
    · rintro ⟨maxDepth, hmax, hconfig⟩
      obtain ⟨n, hn, rfl⟩ := Option.map_eq_some_iff.1 hmax
      have hn := Numeral.parseCount_eq_ok_iff.1 (toOption_eq_some_iff.1 hn)
      refine ⟨hconfig.1, hconfig.2.1, ?_, hconfig.2.2.2⟩
      rw [htext, hconfig.2.2.1]
      exact hn
    · intro h
      have hmax := h.maxDepth
      rw [htext] at hmax
      have hn := toOption_eq_some_iff.2 (Numeral.parseCount_eq_ok_iff.2 hmax)
      exact ⟨some config.maxDepth, Option.map_eq_some_iff.2 ⟨_, hn, rfl⟩, h.profile, h.style, rfl,
        h.others⟩

/-- **The program runs with the configuration that it arrives at.** -/
theorem runCommandLine_of_settings {m : Type → Type} [Monad m] [LawfulMonad m] [Workspace m]
    {config : Config} (h : settings? args lookup = some config) :
    (runCommandLine args lookup : m Outcome)
      = Outcome.ofResult <$> (Invocation.plain o).work config := by
  obtain ⟨i, hi, hconfig⟩ := Option.bind_eq_some_iff.1 h
  have hrun : (i.run : m (Except ProgramFailure Unit)) = (Invocation.plain o).work config := by
    rw [Invocation.run_of_config_eq_ok (toOption_eq_some_iff.1 hconfig)]
    rw [parse?_eq hargs hread hprofile hstyle hdepth] at hi
    obtain ⟨maxDepth, -, rfl⟩ := Option.map_eq_some_iff.1 hi
    rfl
  unfold runCommandLine
  rw [hi]
  dsimp only
  rw [hrun, map_eq_pure_bind]
  refine bind_congr fun result => ?_
  cases result <;> rfl

omit hargs hread hprofile hstyle hdepth in
/-- **Settings are rejected** before anything else is done. -/
theorem runCommandLine_of_settings_eq_none {m : Type → Type} [Monad m] [LawfulMonad m]
    [Workspace m] (h : settings? args lookup = none) :
    (runCommandLine args lookup : m Outcome) = pure .misused ∨
      ∃ fault, (runCommandLine args lookup : m Outcome)
        = pure (.failed (.compiler (.setting fault))) := by
  unfold runCommandLine
  cases hi : Invocation.parse? args lookup with
  | none => exact Or.inl rfl
  | some i =>
    cases hconfig : i.config with
    | ok config =>
      unfold settings? at h
      rw [hi, Option.bind_some, hconfig] at h
      cases h
    | error failure =>
      obtain ⟨fault, rfl⟩ := Invocation.exists_setting_of_config hconfig
      refine Or.inr ⟨fault, ?_⟩
      dsimp only
      rw [Invocation.run_of_config_eq_error hconfig, pure_bind]

/-- **The command line reads variables as the library does, but for padded counts.** With the
options for them left out it arrives at the configuration that the library reads, or both reject
the variables, unless the depth is a count with blanks around it and the library accepts it. What
the command line accepts it runs with, and what it rejects ends the program. -/
theorem settings_exact (lookup : String → Option String) :
    (settings? args lookup = (Config.ofVariables lookup).toOption ↔
      ¬ ((∃ text, lookup Config.depthVariable = some text ∧ Config.PaddedCount text) ∧
        ∃ config, Config.ofVariables lookup = .ok config)) ∧
    (∀ config, settings? args lookup = some config → Config.ofVariables lookup = .ok config) ∧
    ∀ (m : Type → Type) [Monad m] [LawfulMonad m] [Workspace m],
      (∀ config, settings? args lookup = some config →
        (runCommandLine args lookup : m Outcome)
          = Outcome.ofResult <$> (Invocation.plain o).work config) ∧
      (settings? args lookup = none →
        (runCommandLine args lookup : m Outcome) = pure .misused ∨
          ∃ fault, (runCommandLine args lookup : m Outcome)
            = pure (.failed (.compiler (.setting fault)))) := by
  have hiff {config : Config} : settings? args lookup = some config ↔
      Config.Gives Numeral.CountText lookup config :=
    settings?_eq_some_iff hargs hread hprofile hstyle hdepth
  -- there are no blanks in a count that is read as it stands
  have haccepts (config : Config) (h : settings? args lookup = some config) :
      Config.ofVariables lookup = .ok config :=
    Config.ofVariables_eq_ok_iff.2 ((hiff.1 h).imp fun _ _ hn => hn.trim_eq.symm ▸ hn)
  refine ⟨⟨?_, fun hplain => ?_⟩, haccepts, fun m _ _ _ =>
    ⟨fun config h => runCommandLine_of_settings hargs hread hprofile hstyle hdepth h,
      runCommandLine_of_settings_eq_none⟩⟩
  · rintro halike ⟨⟨text, htext, hpadded, -⟩, config, hconfig⟩
    rw [hconfig] at halike
    have hmax := (hiff.1 halike).maxDepth
    rw [htext] at hmax
    exact hpadded hmax.trim_eq
  · refine Option.ext fun config => ?_
    rw [toOption_eq_some_iff]
    refine ⟨haccepts config, fun hconfig => hiff.2 ?_⟩
    have hgives := Config.ofVariables_eq_ok_iff.1 hconfig
    -- a depth that only the library reads is a padded count
    refine hgives.imp fun text htext hn => ?_
    by_contra hnot
    refine hplain ⟨⟨text, htext, fun heq => hnot ?_, _, hn⟩, config, hconfig⟩
    rwa [heq] at hn

end Unset

/-! ## An example -/

/-- A depth with a blank in front of it is all that is set. -/
def paddedDepth (name : String) : Option String :=
  if name = Config.depthVariable then some " 4" else none

/-- **With a blank in front of the depth** the two readers differ: the library reads it, and the
command line is not understood. -/
theorem not_alike_paddedDepth :
    Options.read? {} [] = some {} ∧ Config.ofVariables paddedDepth = .ok {} ∧
      settings? ["swagger"] paddedDepth ≠ (Config.ofVariables paddedDepth).toOption ∧
      (runCommandLine ["swagger"] paddedDepth : StateM Folder Outcome) = pure .misused := by
  have hargs : ["swagger"].dropWhile Options.isVerbosity = "swagger" :: [] := by decide
  have hread : Options.read? {} [] = some {} := rfl
  have hconfig : Config.ofVariables paddedDepth = .ok {} := by decide +kernel
  have hpadded : Config.PaddedCount " 4" :=
    ⟨by decide, 4, Numeral.parseCount_eq_ok_iff.1 (by decide)⟩
  refine ⟨hread, hconfig, fun halike => ?_, rfl⟩
  have hexact := settings_exact hargs hread rfl rfl rfl paddedDepth
  exact hexact.1.1 halike ⟨⟨" 4", by decide, hpadded⟩, {}, hconfig⟩

end SwaggerForge
