import Jma.Advice.Threads
import Jma.Attach.FailedAttach

set_option autoImplicit false

/-! # The session after a failed attach

The advice of the running session reads the entry from `GlobalConfig` at every call. After an
attach that failed because its class is not loaded, that entry is a method of no loaded class: no
call opens the recording and none rolls, although the classes are instrumented still and every call
of theirs goes on taking a sample. `failed_attach_silences` is about all threads and any order of
their steps. -/

namespace Jma

open AgentMain MethodTimeCostAdvice

/-- The classes that were loaded when the attach looked for its entry. -/
def AgentEnv.loadedNames (env : AgentEnv) : List String := env.loadedAtCheck.map LoadedClass.name

/-- `x` is a step of the advice around a call of a method of a class in `loaded`, and the advice has
    read the configuration `cfg`. -/
def AdviceStep (cfg : GlobalConfig) (loaded : List String) (x : ThreadStep) : Prop :=
  ∃ inv : Invocation, inv.method.className ∈ loaded ∧ x.2 ∈ onEnter cfg inv ++ onExit cfg inv

/-! ## No loaded class has the entry -/

theorem preCheckAndConfig_not_loaded {env : AgentEnv} {cfg : GlobalConfig}
    {json message : String}
    (h : (preCheckAndConfig env cfg (some json)).1 = .error (.runtimeException message)) :
    ∀ className ∈ env.loadedNames,
      (preCheckAndConfig env cfg (some json)).2.enterClassName ≠ some className := by
  cases hbean : env.toBean json with
  | none => simp [preCheckAndConfig, hbean] at h
  | some params =>
      cases hclazz : params.clazzName with
      | none => simp [preCheckAndConfig, hbean, hclazz] at h
      | some clazzName =>
          simp only [preCheckAndConfig, hbean, hclazz] at h ⊢
          by_cases hhttp : HttpTransUtil.checkHttpConnection env.get
              (config cfg params clazzName).httpPort = true
          · by_cases hloaded : env.loadedAtCheck.any
                (fun c => some c.name == (config cfg params clazzName).enterClassName) = true
            · simp [hhttp, hloaded] at h
            · intro className hmem heq
              obtain ⟨c, hc, rfl⟩ := List.mem_map.1 hmem
              simp only [hhttp, hloaded, Bool.not_true, Bool.false_eq_true, if_false] at heq
              exact hloaded (List.any_eq_true.2 ⟨c, hc, by simp [heq]⟩)
          · simp [hhttp] at h

theorem agentmain_not_loaded {weave : Weave} {env : AgentEnv} {tct : Nat} {s : AgentState}
    {json message : String}
    (h : (agentmain weave env tct s (some json)).1 = .error (.runtimeException message)) :
    ∀ className ∈ env.loadedNames,
      (agentmain weave env tct s (some json)).2.config.enterClassName ≠ some className := by
  rcases hpre : preCheckAndConfig env s.config (some json) with ⟨checked, cfg⟩
  have hnot := @preCheckAndConfig_not_loaded env s.config json message
  rw [agentmain, hpre] at h ⊢
  rw [hpre] at hnot
  cases checked with
  | error e =>
      obtain rfl : e = .runtimeException message := Except.error.inj h
      exact hnot rfl
  | ok goOn =>
      cases goOn with
      | false => cases h
      | true =>
          -- past the check only the walk can fail, and what it throws is another exception
          cases hread : readHierarchy env cfg with
          | ok methods => simp [hread] at h
          | error e =>
              simp only [hread, Except.error.injEq] at h
              subst h
              simp only [readHierarchy] at hread
              split at hread
              · cases hread
              · rename_i clazzName _
                cases hwalk : MethodHierarchyUtil.readClassMethodHierarchy env.classPath env.fold
                  clazzName (cfg.enterMethod.getD "") <;> simp [hwalk, Except.mapError] at hread

/-- Where no loaded class has the entry, the advice does nothing but record. -/
theorem AdviceStep.mergeRecord {cfg : GlobalConfig} {loaded : List String} {x : ThreadStep}
    (hnot : ∀ className ∈ loaded, cfg.enterClassName ≠ some className)
    (h : AdviceStep cfg loaded x) : ∃ s, x.2 = .mergeRecord s := by
  obtain ⟨inv, hclass, hx⟩ := h
  have henter : inv.isEnter cfg = false := by
    simp [Invocation.isEnter, GlobalConfig.isEnter, hnot _ hclass]
  refine ⟨inv.sample cfg, ?_⟩
  simpa [onEnter, onExit, henter] using hx

/-! ## A run that only records -/

theorem exec_mergeRecord_snd (m : TimeCostManager) (t : String) (s : Sample) :
    (m.exec ⟨t, .mergeRecord s⟩).2 = [] := rfl

/-- Samples alone print nothing. -/
theorem run_samples_snd (m : TimeCostManager) (es : List Event)
    (hes : ∀ e ∈ es, ∃ s, e.operation = .mergeRecord s) : (m.run es).2 = [] := by
  induction es generalizing m with
  | nil => rfl
  | cons e rest ih =>
      obtain ⟨t, op⟩ := e
      obtain ⟨s, rfl⟩ := hes _ List.mem_cons_self
      show (m.exec ⟨t, .mergeRecord s⟩).2 ++ ((m.exec ⟨t, .mergeRecord s⟩).1.run rest).2 = []
      rw [exec_mergeRecord_snd, ih _ (fun e he => hes e (List.mem_cons_of_mem _ he)),
        List.append_nil]

/-- Samples alone are added to the last piece of a log, as far as they are accepted. -/
theorem SampleLog.run_samples (t : String) (log : SampleLog) (es : List Event)
    (hes : ∀ e ∈ es, ∃ s, e.operation = .mergeRecord s) :
    log.run t es = { log with current := log.current ++ accepted t log.recording es } := by
  induction es generalizing log with
  | nil => simp [run, accepted]
  | cons e rest ih =>
      obtain ⟨u, op⟩ := e
      obtain ⟨s, rfl⟩ := hes _ List.mem_cons_self
      show (log.step t ⟨u, .mergeRecord s⟩).run t rest = _
      rw [ih _ (fun e he => hes e (List.mem_cons_of_mem _ he))]
      by_cases h : log.recording ∧ u = t
      · simp [step, accepted, h]
      · simp only [step, accepted, if_neg h]

/-- **A failed attach silences the running session and leaves it recording.** A call of
    `agentmain` finds that its class is not loaded. Whatever the threads did `before`, and in
    whatever order they run instrumented calls of the loaded classes `after`: no report is printed
    any more, the flag stays as it was, and for every thread the samples accepted since are pending,
    after those that were pending then. -/
theorem failed_attach_silences (weave : Weave) (env : AgentEnv) (tct : Nat) (s : AgentState)
    (json message : String) (name : Nat → String) (before after : List ThreadStep)
    (hfail : (agentmain weave env tct s (some json)).1 = .error (.runtimeException message))
    (hafter : ∀ x ∈ after,
      AdviceStep (agentmain weave env tct s (some json)).2.config env.loadedNames x) :
    let atFailure := TimeCostManager.initial.run (eventsIn name before)
    let later := TimeCostManager.initial.run (eventsIn name (before ++ after))
    later.2 = atFailure.2 ∧ later.1.recording = atFailure.1.recording ∧
      ∀ t, later.1.pending t
        = groupByMethod ((logOf t (eventsIn name before)).current ++
            accepted t atFailure.1.recording (eventsIn name after)) := by
  intro atFailure later
  have hsamples : ∀ e ∈ eventsIn name after, ∃ s, e.operation = .mergeRecord s := by
    intro e he
    obtain ⟨x, hx, rfl⟩ := List.mem_map.1 he
    exact (hafter x hx).mergeRecord (agentmain_not_loaded hfail)
  have hlog (t : String) : logOf t (eventsIn name (before ++ after))
      = { logOf t (eventsIn name before) with
          current := (logOf t (eventsIn name before)).current ++
            accepted t (logOf t (eventsIn name before)).recording (eventsIn name after) } := by
    rw [eventsIn_append, logOf_append, SampleLog.run_samples t _ _ hsamples]
  have hflag (t : String) : atFailure.1.recording = (logOf t (eventsIn name before)).recording :=
    ((Refines.initial t).run (eventsIn name before)).1.recording
  refine ⟨?_, ?_, fun t => ?_⟩
  · show (TimeCostManager.initial.run (eventsIn name (before ++ after))).2 = _
    rw [eventsIn_append, TimeCostManager.run_append, run_samples_snd _ _ hsamples, List.append_nil]
  · have hlater : later.1.recording = (logOf "" (eventsIn name (before ++ after))).recording :=
      ((Refines.initial "").run (eventsIn name (before ++ after))).1.recording
    rw [hlater, hlog, hflag ""]
  · show (TimeCostManager.initial.run (eventsIn name (before ++ after))).1.pending t = _
    rw [pending_run, hlog, hflag t]

namespace NotLoaded

/-- A call of the entry of the running session, begun before the second attach. -/
def beforeFailure : List ThreadStep :=
  [(0, .canRecord true), (0, .mergeRecord ((callOf "run" 0 5).sample running.config)),
    (0, .printAndRolling (fun _ => 5))]

/-- Another call of it, made after the second attach has failed. -/
def afterFailure : List ThreadStep :=
  [(0, .mergeRecord ((callOf "run" 6 9).sample (running.config.setEnterClazzName "p/B")))]

end NotLoaded

open NotLoaded in
/-- The call of the entry after the failed attach to `p.B` is stored and not reported. -/
theorem silenced_after_not_loaded :
    let later := TimeCostManager.initial.run
      (eventsIn threadName (beforeFailure ++ afterFailure))
    later.2.length = 1 ∧ later.1.pending "main" ≠ [] := by
  obtain ⟨hreports, -, hpending⟩ := failed_attach_silences weave
    (env ⟨8091, some "run", some "p.B"⟩) 1 running "{}" "class[p.B] not loaded" threadName
    beforeFailure afterFailure (by decide)
    (by
      rintro x hx
      obtain rfl := List.mem_singleton.1 hx
      exact ⟨callOf "run" 6 9, by decide, List.mem_append_right _ List.mem_cons_self⟩)
  intro later
  refine ⟨?_, ?_⟩
  · rw [hreports]
    decide
  · rw [hpending]
    decide

end Jma
