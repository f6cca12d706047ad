import Jma.Attach.AgentMain

set_option autoImplicit false

/-! # A failed attach

`preCheckAndConfig` writes the entry and the port before it checks anything, and nothing takes them
back. A call that fails leaves the published transformer, `Instrumentation` and class set alone, but
the running session goes on with the entry and the port of the failed one. -/

namespace Jma

open AgentMain

/-- The arguments name the entry and the port that are configured already, as far as they can be
    read at all. -/
def SameEntry (env : AgentEnv) (cfg : GlobalConfig) (args : Option String) : Prop :=
  ∀ json params clazzName, args = some json → env.toBean json = some params →
    params.clazzName = some clazzName →
      cfg.enterClazzName = some (replaceAll clazzName '.' '/') ∧
      cfg.enterClassName = some (replaceAll (replaceAll clazzName '.' '/') '/' '.') ∧
      cfg.enterMethod = params.method ∧ cfg.httpPort = params.port

theorem config_eq_self_iff (cfg : GlobalConfig) (params : AgentParams) (clazzName : String) :
    config cfg params clazzName = cfg ↔
      cfg.enterClazzName = some (replaceAll clazzName '.' '/') ∧
      cfg.enterClassName = some (replaceAll (replaceAll clazzName '.' '/') '/' '.') ∧
      cfg.enterMethod = params.method ∧ cfg.httpPort = params.port := by
  obtain ⟨clazz, method, className, tct, inst, classSet, port⟩ := cfg
  simp only [config, GlobalConfig.setEnterClazzName, GlobalConfig.setEnterMethod,
    GlobalConfig.setHttpPort, GlobalConfig.mk.injEq, true_and]
  constructor
  · rintro ⟨h1, h2, h3, h4⟩
    exact ⟨h1.symm, h3.symm, h2.symm, h4.symm⟩
  · rintro ⟨h1, h3, h2, h4⟩
    exact ⟨h1.symm, h2.symm, h3.symm, h4.symm⟩

/-- What `preCheckAndConfig` leaves, whether it succeeds or not: nothing is written, or the entry
    and the port are. -/
theorem preCheckAndConfig_snd (env : AgentEnv) (cfg : GlobalConfig) (args : Option String) :
    ((preCheckAndConfig env cfg args).2 = cfg ∧
      ∀ json params, args = some json → env.toBean json = some params → params.clazzName = none) ∨
    ∃ json params clazzName, args = some json ∧ env.toBean json = some params ∧
      params.clazzName = some clazzName ∧
      (preCheckAndConfig env cfg args).2 = config cfg params clazzName := by
  cases args with
  | none => exact Or.inl ⟨rfl, by simp⟩
  | some json =>
      cases hbean : env.toBean json with
      | none =>
          refine Or.inl ⟨by simp [preCheckAndConfig, hbean], ?_⟩
          rintro _ params ⟨⟩ h
          rw [hbean] at h
          cases h
      | some params =>
          cases hclazz : params.clazzName with
          | none =>
              refine Or.inl ⟨by simp [preCheckAndConfig, hbean, hclazz], ?_⟩
              rintro _ _ ⟨⟩ h
              rw [hbean, Option.some.injEq] at h
              exact h ▸ hclazz
          | some clazzName =>
              refine Or.inr ⟨json, params, clazzName, rfl, hbean, hclazz, ?_⟩
              simp only [preCheckAndConfig, hbean, hclazz]
              split
              · rfl
              · split <;> rfl

/-- The configuration that `preCheckAndConfig` leaves is the old one iff the entry is the same. -/
theorem preCheckAndConfig_snd_eq_iff (env : AgentEnv) (cfg : GlobalConfig) (args : Option String) :
    (preCheckAndConfig env cfg args).2 = cfg ↔ SameEntry env cfg args := by
  rcases preCheckAndConfig_snd env cfg args with ⟨heq, hnone⟩ |
    ⟨json, params, clazzName, rfl, hbean, hclazz, heq⟩
  · refine ⟨fun _ json params clazzName hargs hbean hclazz => ?_, fun _ => heq⟩
    rw [hnone json params hargs hbean] at hclazz
    cases hclazz
  · rw [heq, config_eq_self_iff]
    constructor
    · rintro h _ _ _ ⟨⟩ hbean' hclazz'
      rw [hbean, Option.some.injEq] at hbean'
      subst hbean'
      rw [hclazz, Option.some.injEq] at hclazz'
      subst hclazz'
      exact h
    · intro h
      exact h json params clazzName rfl hbean hclazz

/-- `preCheckAndConfig` publishes nothing. -/
theorem preCheckAndConfig_published (env : AgentEnv) (cfg : GlobalConfig) (args : Option String) :
    (preCheckAndConfig env cfg args).2.tct = cfg.tct ∧
      (preCheckAndConfig env cfg args).2.inst = cfg.inst ∧
      (preCheckAndConfig env cfg args).2.finalClassSet = cfg.finalClassSet := by
  rcases preCheckAndConfig_snd env cfg args with
    ⟨heq, -⟩ | ⟨json, params, clazzName, -, -, -, heq⟩ <;>
    · rw [heq]
      exact ⟨rfl, rfl, rfl⟩

/-- A call that registers nothing ends with what `preCheckAndConfig` has left. -/
theorem agentmain_of_failed {weave : Weave} {env : AgentEnv} {tct : Nat} {s : AgentState}
    {args : Option String}
    (h : (agentmain weave env tct s args).2.jvm.registered = s.jvm.registered) :
    (agentmain weave env tct s args).2.config = (preCheckAndConfig env s.config args).2 ∧
      (agentmain weave env tct s args).2.jvm = s.jvm := by
  rcases hpre : preCheckAndConfig env s.config args with ⟨checked, cfg⟩
  rw [agentmain, hpre] at h ⊢
  cases checked with
  | error e => exact ⟨rfl, rfl⟩
  | ok goOn =>
      cases goOn with
      | false => exact ⟨rfl, rfl⟩
      | true =>
          cases hread : readHierarchy env cfg with
          | error e => simp [hread]
          | ok methods => simp [hread, Jvm.addTransformer, Jvm.newTransformer] at h

/-- **When a failed attach changes nothing.** A call of `agentmain` that ends without registering a
    transformer leaves the classes, the transformer, the `Instrumentation` and the class set; it
    leaves all of `GlobalConfig` iff it names the entry and the port that were configured. -/
theorem failed_attach_iff (weave : Weave) (env : AgentEnv) (tct : Nat) (s : AgentState)
    (args : Option String)
    (h : (agentmain weave env tct s args).2.jvm.registered = s.jvm.registered) :
    (agentmain weave env tct s args).2.jvm = s.jvm ∧
    ((agentmain weave env tct s args).2.config.tct = s.config.tct ∧
      (agentmain weave env tct s args).2.config.inst = s.config.inst ∧
      (agentmain weave env tct s args).2.config.finalClassSet = s.config.finalClassSet) ∧
    ((agentmain weave env tct s args).2.config = s.config ↔ SameEntry env s.config args) := by
  obtain ⟨hconfig, hjvm⟩ := agentmain_of_failed h
  rw [hconfig]
  exact ⟨hjvm, preCheckAndConfig_published env s.config args,
    preCheckAndConfig_snd_eq_iff env s.config args⟩

/-! ## An attach to a class that is not loaded -/

namespace NotLoaded

/-- The session with entry `p.A#run` and port 8090 is running. -/
def running : AgentState where
  config :=
    (((((GlobalConfig.initial.setEnterClazzName "p/A").setEnterMethod (some "run")).setHttpPort
      8090).setTimeCostTransformer 0).setInstrument 0).setTransClassSet [⟨1, "p.A", [1]⟩]
  jvm := Jvm.pristine.addTransformer 0 (.timeCost 0)
  heartbeats := 1

/-- A second attach, to a boot on port 8091 that answers; `p.A` is the only loaded class. -/
def env (params : AgentParams) : AgentEnv where
  toBean := fun _ => some params
  get := fun _ _ => .returned (some "ok")
  loadedAtCheck := [⟨1, "p.A", [1]⟩]
  allLoadedClassed := [⟨1, "p.A", [1]⟩]
  classPath := ⟨[], by decide⟩
  fold := Char.toLower
  inst := 1

/-- Byte Buddy is not reached. -/
def weave : Weave := fun _ _ => none

end NotLoaded

open NotLoaded in
/-- The attach fails because `p.B` is not loaded, and from then on `p.A#run` is not the entry and
    the heartbeats of the running session go to port 8091. -/
theorem failed_attach_changes_entry :
    let s := agentmain weave (env ⟨8091, some "run", some "p.B"⟩) 1 running (some "{}")
    s.1 = .error (.runtimeException "class[p.B] not loaded") ∧
      s.2.jvm.registered = running.jvm.registered ∧
      running.config.isEnter "p.A" "run" = true ∧ s.2.config.isEnter "p.A" "run" = false ∧
      running.config.httpPort = 8090 ∧ s.2.config.httpPort = 8091 ∧
      s.2.config ≠ running.config := by
  decide

open NotLoaded in
/-- A second attach to the entry and port of the running session, whose walk fails, changes
    nothing. -/
theorem same_entry_changes_nothing :
    (agentmain weave (env ⟨8090, some "run", some "p.A"⟩) 1 running (some "{}")).2.config
      = running.config := by
  refine (failed_attach_iff weave (env ⟨8090, some "run", some "p.A"⟩) 1 running (some "{}")
    ?_).2.2.2 ?_
  · decide
  · rintro _ _ _ ⟨⟩ ⟨⟩ ⟨⟩
    decide

end Jma
