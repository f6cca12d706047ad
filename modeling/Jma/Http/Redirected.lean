import Jma.Attach.Overlap

set_option autoImplicit false

/-! # Whose boot keeps a session alive

A heartbeat goes to the port in `GlobalConfig`, and `preCheckAndConfig` writes the port before it
checks anything. So after an attach that failed the session that is running beats at the boot of the
failed one. `session_lives_iff` says when it is cleaned up, over every run with any number of failed
attaches, each of which may have started a heartbeat thread of its own. -/

namespace Jma

open AgentMain HttpClientThread

/-- The port that a call of `agentmain` writes, if it gets so far as to write. -/
def AgentEnv.port (env : AgentEnv) : Option String → Option Int
  | none => none
  | some args =>
      match env.toBean args with
      | none => none
      | some params => params.clazzName.map (fun _ => params.port)

theorem httpPort_preCheckAndConfig (env : AgentEnv) (cfg : GlobalConfig) (args : Option String) :
    (preCheckAndConfig env cfg args).2.httpPort = (env.port args).getD cfg.httpPort := by
  rcases preCheckAndConfig_snd env cfg args with ⟨heq, hnone⟩ |
    ⟨json, params, clazzName, rfl, hbean, hclazz, heq⟩
  · have hport : env.port args = none := by
      cases args with
      | none => rfl
      | some json =>
          cases hbean : env.toBean json with
          | none => simp only [AgentEnv.port, hbean]
          | some params =>
              simp only [AgentEnv.port, hbean, hnone json params rfl hbean, Option.map_none]
    rw [heq, hport, Option.getD_none]
  · rw [heq]
    simp only [AgentEnv.port, hbean, hclazz, Option.map_some, Option.getD_some]
    rfl

/-! ## The heartbeat threads of a JVM -/

/-- A heartbeat thread between two turns, or at its end. -/
structure Beater where
  count : Nat
  ended : Bool

/-- The target JVM and its heartbeat threads, numbered as they are started. -/
structure Beats where
  shared : SharedState
  heartbeats : Nat
  beaters : Nat → Beater

inductive BeatEvent where
  /-- The advice of the target changes the manager. -/
  | target (f : TimeCostManager → TimeCostManager)
  /-- A call of `agentmain`; `tct` is the `TimeCostTransformer` that it may make. -/
  | agentmain (env : AgentEnv) (tct : Nat) (args : Option String)
  /-- A turn of a heartbeat thread, with what a request to each port gets at that moment. -/
  | turn (i : Nat) (interrupted : Bool) (boots : Int → HttpAnswer) (answer : RetransformAnswer)

/-- The port that an event writes. -/
def BeatEvent.port : BeatEvent → Option Int
  | .agentmain env _ args => env.port args
  | _ => none

/-- The port that was written last, at first `port`. -/
def portAfter (port : Int) (es : List BeatEvent) : Int :=
  es.foldl (fun port e => e.port.getD port) port

namespace Beats

/-- Thread `i` in its loop, as `HttpClientThread` has it. -/
def thread (s : Beats) (i : Nat) : HttpClientThread :=
  ⟨s.shared, (s.beaters i).count, (s.beaters i).ended⟩

def step (weave : Weave) (s : Beats) : BeatEvent → Beats
  | .target f => { s with shared := { s.shared with manager := f s.shared.manager } }
  | .agentmain env tct args =>
      let agent :=
        (Jma.agentmain weave env tct ⟨s.shared.config, s.shared.jvm, s.heartbeats⟩ args).2
      -- a call that gets past its checks starts a thread, also when its walk fails after that
      { shared := ⟨agent.config, agent.jvm, s.shared.manager⟩
        heartbeats := agent.heartbeats
        beaters :=
          if s.heartbeats < agent.heartbeats then
            Function.update s.beaters s.heartbeats ⟨flip, false⟩
          else s.beaters }
  | .turn i interrupted boots answer =>
      let thread := (s.thread i).step weave i
        ⟨interrupted, fun shared => shared, boots s.shared.config.httpPort, answer⟩
      { s with
        shared := thread.shared
        beaters := Function.update s.beaters i ⟨thread.count, thread.ended⟩ }

def run (weave : Weave) (s : Beats) (es : List BeatEvent) : Beats := es.foldl (step weave) s

/-- The event is a beat to `port`, and it gets no response. -/
def Unanswered (s : Beats) (port : Int) : BeatEvent → Prop
  | .turn i interrupted boots answer =>
      BootGone (s.thread i) ⟨interrupted, fun shared => shared, boots port, answer⟩
  | _ => False

end Beats

/-! ## One event -/

section

variable {weave : Weave} {inst tct : Nat} {classSet : List LoadedClass}

/-- A turn that does not find the boot gone changes nothing that is shared. -/
theorem shared_step_of_not_bootGone {id : Nat} {t : HttpClientThread} {interrupted : Bool}
    {request : HttpAnswer} {answer : RetransformAnswer}
    (h : ¬BootGone t ⟨interrupted, fun shared => shared, request, answer⟩) :
    (t.step weave id ⟨interrupted, fun shared => shared, request, answer⟩).shared = t.shared := by
  by_cases hended : t.ended = true
  · rw [step_of_ended hended]
  · by_cases hslept : interrupted = true
    · simp [HttpClientThread.step, hended, hslept]
    · by_cases hdue : t.count = flip
      · have hanswered : exitThread request = false := by
          by_contra hfailed
          exact h ⟨by simpa using hended, by simpa using hslept, hdue, by simpa using hfailed⟩
        simp [HttpClientThread.step, hended, hslept, hdue, checkBootExit, hanswered]
      · simp [HttpClientThread.step, hended, hslept, hdue]

/-- A clean-up leaves the configuration. -/
theorem config_cleanUp {s : SharedState} (h : Attached s inst tct classSet) (id : Nat)
    (answer : RetransformAnswer) : (cleanUp weave id answer s).state.config = s.config := by
  cases answer with
  | returned => rw [cleanUp_returned h, Outcome.state_ret]
  | threw e tcts => rw [cleanUp_threw h, Outcome.state_throw]

/-- A clean-up takes the transformer away, also when it throws. -/
theorem not_mem_cleanUp {s : SharedState} (h : Attached s inst tct classSet) (id : Nat)
    (answer : RetransformAnswer) :
    (inst, Transformer.timeCost tct) ∉ (cleanUp weave id answer s).state.jvm.registered := by
  cases answer with
  | returned =>
      rw [cleanUp_returned h, Outcome.state_ret]
      simp [Jvm.detach, Jvm.removeTransformer, Jvm.addTransformer]
  | threw e tcts =>
      rw [cleanUp_threw h, Outcome.state_throw]
      simp [Jvm.removeTransformer, Jvm.addTransformer]

namespace Beats

variable {s : Beats}

theorem shared_agentmain {env : AgentEnv} {args : Option String} (hfailed : found env args = none)
    (tct' : Nat) : (s.step weave (.agentmain env tct' args)).shared
      = { s.shared with config := (preCheckAndConfig env s.shared.config args).2 } := by
  obtain ⟨hjvm, hconfig⟩ := @agentmain_of_not_found weave env tct'
    ⟨s.shared.config, s.shared.jvm, s.heartbeats⟩ args hfailed
  rw [step, hjvm, hconfig]

theorem shared_of_unanswered (weave : Weave) {e : BeatEvent}
    (h : s.Unanswered s.shared.config.httpPort e) :
    ∃ id answer, (s.step weave e).shared = (cleanUp weave id answer s.shared).state := by
  cases e with
  | target f => exact absurd h id
  | agentmain env tct' args => exact absurd h id
  | turn i interrupted boots answer =>
      exact ⟨i, answer, congrArg HttpClientThread.shared (step_of_bootGone h)⟩

theorem shared_of_answered {i : Nat} {interrupted : Bool} {boots : Int → HttpAnswer}
    {answer : RetransformAnswer}
    (h : ¬s.Unanswered s.shared.config.httpPort (.turn i interrupted boots answer)) :
    (s.step weave (.turn i interrupted boots answer)).shared = s.shared :=
  shared_step_of_not_bootGone h

/-- The configuration stays that of a completed attach, and the port is the one written last. -/
theorem attached_step (weave : Weave) (h : Attached s.shared inst tct classSet) {e : BeatEvent}
    (hfailed : ∀ env tct' args, e = .agentmain env tct' args → found env args = none) :
    Attached (s.step weave e).shared inst tct classSet ∧
      (s.step weave e).shared.config.httpPort = e.port.getD s.shared.config.httpPort := by
  cases e with
  | target f => exact ⟨⟨h.inst, h.tct, h.finalClassSet⟩, rfl⟩
  | agentmain env tct' args =>
      rw [shared_agentmain (hfailed env tct' args rfl)]
      obtain ⟨htct, hinst, hset⟩ := preCheckAndConfig_published env s.shared.config args
      exact ⟨⟨hinst.trans h.inst, htct.trans h.tct, hset.trans h.finalClassSet⟩,
        httpPort_preCheckAndConfig env s.shared.config args⟩
  | turn i interrupted boots answer =>
      have hconfig : (s.step weave (.turn i interrupted boots answer)).shared.config
          = s.shared.config := by
        by_cases hgone : s.Unanswered s.shared.config.httpPort (.turn i interrupted boots answer)
        · obtain ⟨id, answer', hshared⟩ := shared_of_unanswered weave hgone
          rw [hshared, config_cleanUp h]
        · rw [shared_of_answered hgone]
      exact ⟨⟨hconfig ▸ h.inst, hconfig ▸ h.tct, hconfig ▸ h.finalClassSet⟩,
        congrArg GlobalConfig.httpPort hconfig⟩

/-- A beat without response takes the transformer away; nothing else touches the classes. -/
theorem registered_step (weave : Weave) (h : Attached s.shared inst tct classSet) {e : BeatEvent}
    (hfailed : ∀ env tct' args, e = .agentmain env tct' args → found env args = none) :
    (s.Unanswered s.shared.config.httpPort e →
      (inst, .timeCost tct) ∉ (s.step weave e).shared.jvm.registered) ∧
    (¬s.Unanswered s.shared.config.httpPort e → (s.step weave e).shared.jvm = s.shared.jvm) := by
  constructor
  · intro hgone
    obtain ⟨id, answer, hshared⟩ := shared_of_unanswered weave hgone
    rw [hshared]
    exact not_mem_cleanUp h id answer
  · intro hanswered
    cases e with
    | target f => rfl
    | agentmain env tct' args => rw [shared_agentmain (hfailed env tct' args rfl)]
    | turn i interrupted boots answer => rw [shared_of_answered hanswered]

/-! ## Every run -/

theorem run_snoc (s : Beats) (es : List BeatEvent) (e : BeatEvent) :
    s.run weave (es ++ [e]) = (s.run weave es).step weave e := by
  rw [run, List.foldl_append]
  rfl

theorem portAfter_snoc (port : Int) (es : List BeatEvent) (e : BeatEvent) :
    portAfter port (es ++ [e]) = e.port.getD (portAfter port es) := by
  rw [portAfter, List.foldl_append]
  rfl

/-- Every beat so far got a response from the boot at the port that was written last. -/
def Answered (weave : Weave) (s : Beats) (es : List BeatEvent) : Prop :=
  ∀ p e q, es = p ++ e :: q →
    ¬(s.run weave p).Unanswered (portAfter s.shared.config.httpPort p) e

theorem answered_snoc (weave : Weave) (s : Beats) (es : List BeatEvent) (e : BeatEvent) :
    s.Answered weave (es ++ [e]) ↔ s.Answered weave es ∧
      ¬(s.run weave es).Unanswered (portAfter s.shared.config.httpPort es) e :=
  Trace.forall_split_snoc

/-- What a run keeps: the session is published, and registered until a beat gets no response. -/
theorem run_spec (weave : Weave) {es : List BeatEvent}
    (hattached : Attached s.shared inst tct classSet)
    (hfailed : ∀ env tct' args, .agentmain env tct' args ∈ es → found env args = none) :
    (Attached (s.run weave es).shared inst tct classSet ∧
      (s.run weave es).shared.config.httpPort = portAfter s.shared.config.httpPort es) ∧
    (s.Answered weave es → (s.run weave es).shared.jvm = s.shared.jvm) ∧
    (¬s.Answered weave es → (inst, .timeCost tct) ∉ (s.run weave es).shared.jvm.registered) := by
  induction es using List.reverseRecOn with
  | nil =>
      refine ⟨⟨hattached, rfl⟩, fun _ => rfl, fun h => absurd ?_ h⟩
      exact fun p e q hnil => absurd hnil (by simp)
  | append_singleton es e ih =>
      obtain ⟨⟨hattached', hport⟩, hkept, hgone⟩ :=
        ih (fun env tct' args he => hfailed env tct' args (List.mem_append_left _ he))
      have hlast : ∀ env tct' args, e = .agentmain env tct' args → found env args = none :=
        fun env tct' args he => hfailed env tct' args (he ▸ List.mem_append_right _ (.head _))
      obtain ⟨hstep, hwritten⟩ := attached_step weave hattached' hlast
      obtain ⟨hunanswered, hanswered⟩ := registered_step weave hattached' hlast
      rw [hport] at hwritten hunanswered hanswered
      rw [run_snoc, portAfter_snoc, answered_snoc]
      refine ⟨⟨hstep, hwritten⟩, fun h => (hanswered h.2).trans (hkept h.1), fun h => ?_⟩
      by_cases hbeat : (s.run weave es).Unanswered (portAfter s.shared.config.httpPort es) e
      · exact hunanswered hbeat
      · rw [hanswered hbeat]
        exact hgone (fun hbefore => h ⟨hbefore, hbeat⟩)

/-- **Whose boot keeps a session alive.** An attach has been completed. After it other attaches
    fail, and heartbeat threads of the session and of those attaches take their turns, in any order.
    The transformer of the session stays registered, and all classes and transformers stay as they
    are, as long as every beat gets a response from the boot at the port that was written last, be
    it that of an attach that failed; a beat that gets none there takes the transformer away for
    good. The boot of the session itself plays no part. -/
theorem session_lives_iff (weave : Weave) {inst tct : Nat} {classSet : List LoadedClass}
    (s : Beats) (es : List BeatEvent) (hattached : Attached s.shared inst tct classSet)
    (hregistered : (inst, .timeCost tct) ∈ s.shared.jvm.registered)
    (hfailed : ∀ env tct' args, .agentmain env tct' args ∈ es → found env args = none) :
    ((inst, .timeCost tct) ∈ (s.run weave es).shared.jvm.registered ↔ s.Answered weave es) ∧
      (s.Answered weave es → (s.run weave es).shared.jvm = s.shared.jvm) := by
  obtain ⟨-, hkept, hgone⟩ := run_spec weave hattached hfailed
  refine ⟨⟨fun hmem => ?_, fun h => ?_⟩, hkept⟩
  · by_contra h
    exact hgone h hmem
  · rw [hkept h]
    exact hregistered

end Beats

end

namespace NotLoaded

/-- Only the boot on port 8090 responds. -/
def only8090 (port : Int) : HttpAnswer := if port = 8090 then .returned (some "ok") else .threw

/-- The session on port 8090 with its heartbeat thread. -/
def beating : Beats where
  shared := ⟨running.config, running.jvm, .initial⟩
  heartbeats := 1
  beaters := fun i => ⟨flip, i != 0⟩

/-- A boot on port 8091 attaches to `p.B`, which is not loaded, and exits; then a beat is due. -/
def redirected : List BeatEvent :=
  [.agentmain (env ⟨8091, some "run", some "p.B"⟩) 1 (some "{}"), .turn 0 false only8090 .returned]

end NotLoaded

open NotLoaded in
/-- The session on port 8090 is gone, although its boot responds. -/
theorem redirected_gone :
    (0, .timeCost 0) ∉ (beating.run weave redirected).shared.jvm.registered := by
  have hfailed : ∀ env tct' args, .agentmain env tct' args ∈ redirected →
      found env args = none := by
    intro env tct' args h
    rcases List.mem_cons.1 h with h | h
    · cases h
      rfl
    · cases List.mem_singleton.1 h
  have hattached : Attached beating.shared 0 0 [⟨1, "p.A", [1]⟩] := ⟨rfl, rfl, rfl⟩
  intro hmem
  refine (Beats.session_lives_iff weave beating redirected hattached (by decide) hfailed).1.1 hmem
    (redirected.take 1) (.turn 0 false only8090 .returned) [] rfl ?_
  exact ⟨rfl, rfl, rfl, rfl⟩

end Jma
