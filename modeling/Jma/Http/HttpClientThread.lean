import Jma.Attach.RoundTrip
import Jma.Attach.Sessions
import Jma.Http.HeartBeat
import Jma.Lib.Outcome

set_option autoImplicit false

/-! # `HttpClientThread`

The heartbeat thread sends its beats from an endless loop inside a `try` block. A failed beat makes
`checkBootExit` clean up: it removes the `TimeCostTransformer`, retransforms the class set with a
`ResetTransformer` registered, removes that one, too, and switches recording off. The call in the
middle may throw; then the rest is skipped, `run` catches the exception outside its loop, and no
later beat tries again. -/

namespace Jma

/-- What the heartbeat thread shares with the other threads of the target JVM. -/
structure SharedState where
  config : GlobalConfig
  jvm : Jvm
  manager : TimeCostManager

/-- How `retransformClasses` ends. A call that throws has retransformed no class, but it may have
    called transformers. -/
inductive RetransformAnswer where
  | returned
  | threw (e : String) (tcts : Nat → TimeCostTransformer)

namespace SharedState

def addTransformer (s : SharedState) (inst : Nat) (t : Transformer) : SharedState :=
  { s with jvm := s.jvm.addTransformer inst t }

def removeTransformer (s : SharedState) (inst : Nat) (t : Transformer) : SharedState :=
  { s with jvm := s.jvm.removeTransformer inst t }

def retransformClasses (weave : Weave) (answer : RetransformAnswer) (s : SharedState)
    (classes : List LoadedClass) : Outcome String SharedState :=
  match answer with
  | .returned => .ret { s with jvm := s.jvm.retransformClasses weave classes }
  | .threw e tcts => .throw e { s with jvm := { s.jvm with tcts := tcts } }

def canRecord (s : SharedState) (b : Bool) : SharedState :=
  { s with manager := s.manager.canRecord b }

end SharedState

/-! ## `checkBootExit` -/

/-- `exitThread`, which `checkBootExit` returns: the beat got no response. -/
def exitThread : HttpAnswer → Bool
  | .threw => true
  | .returned resp => resp.isNone

/-- What `checkBootExit` of the thread `id` does when the boot is gone. -/
def cleanUp (weave : Weave) (id : Nat) (answer : RetransformAnswer) (s : SharedState) :
    Outcome String SharedState :=
  match s.config.inst with
  | none => .ret s
  | some instrumentation =>
      let timeCostTransformer := s.config.tct
      let s :=
        match timeCostTransformer with
        | none => s
        | some tct => s.removeTransformer instrumentation (.timeCost tct)
      match s.config.finalClassSet with
      | none => .ret s
      | some classSet =>
          let resetTransformer := Transformer.reset id timeCostTransformer
          ((s.addTransformer instrumentation resetTransformer).retransformClasses weave answer
            classSet).andThen (fun s =>
              .ret ((s.removeTransformer instrumentation resetTransformer).canRecord false))

/-- `checkBootExit`, given how its two calls to the outside end. -/
def checkBootExit (weave : Weave) (id : Nat) (request : HttpAnswer) (answer : RetransformAnswer)
    (s : SharedState) : Outcome String SharedState :=
  if exitThread request then cleanUp weave id answer s else .ret s

/-- An attach has been completed: all that the clean-up needs is published. -/
structure Attached (s : SharedState) (inst tct : Nat) (classSet : List LoadedClass) : Prop where
  inst : s.config.inst = some inst
  tct : s.config.tct = some tct
  finalClassSet : s.config.finalClassSet = some classSet

open AgentMain in
/-- A call of `agentmain` that gets past its checks and returns leaves such a state. -/
theorem attached_of_agentmain {weave : Weave} {env : AgentEnv} {tct : Nat} {s : AgentState}
    {args : Option String} (m : TimeCostManager)
    (hcheck : (preCheckAndConfig env s.config args).1 = .ok true)
    (hok : (agentmain weave env tct s args).1 = .ok ()) :
    ∃ classSet, Attached ⟨(agentmain weave env tct s args).2.config,
      (agentmain weave env tct s args).2.jvm, m⟩ env.inst tct classSet := by
  rcases hpre : preCheckAndConfig env s.config args with ⟨checked, cfg⟩
  rw [hpre] at hcheck
  obtain rfl : checked = .ok true := hcheck
  rw [agentmain, hpre] at hok ⊢
  cases hread : readHierarchy env cfg with
  | error e =>
      simp only [hread] at hok
      cases hok
  | ok methods =>
      simp only [hread]
      exact ⟨finalClassSet methods env.allLoadedClassed, rfl, rfl, rfl⟩

section

variable {weave : Weave} {id inst tct : Nat} {classSet : List LoadedClass} {s : SharedState}

/-- A clean-up that gets through: the classes are detached and recording is off. -/
theorem cleanUp_returned (h : Attached s inst tct classSet) :
    cleanUp weave id .returned s
      = .ret ⟨s.config, s.jvm.detach weave inst tct id classSet, s.manager.canRecord false⟩ := by
  obtain ⟨config, jvm, manager⟩ := s
  obtain ⟨hinst, htct, hset⟩ := h
  simp only at hinst htct hset
  simp only [cleanUp, hinst, htct, SharedState.removeTransformer, hset]
  rfl

/-- A clean-up that throws stops with the `ResetTransformer` registered. -/
theorem cleanUp_threw (h : Attached s inst tct classSet) (e : String)
    (tcts : Nat → TimeCostTransformer) :
    cleanUp weave id (.threw e tcts) s
      = .throw e ⟨s.config, { (s.jvm.removeTransformer inst (.timeCost tct)).addTransformer inst
          (.reset id (some tct)) with tcts := tcts }, s.manager⟩ := by
  obtain ⟨config, jvm, manager⟩ := s
  obtain ⟨hinst, htct, hset⟩ := h
  simp only at hinst htct hset
  simp only [cleanUp, hinst, htct, SharedState.removeTransformer, hset]
  rfl

end

/-- The steps that `World` cuts `checkBootExit` into make the same clean-up when nobody gets in
    between. -/
theorem execute_heartbeat (T : Target) {w : World} {i inst tct : Nat} {classSet : List LoadedClass}
    (h : Attached ⟨w.config, w.jvm, w.manager⟩ inst tct classSet)
    (hpc : w.heartbeat i = .getInstrument) :
    ∃ w', Trace.execute (World.step T) w (List.replicate 8 (.heartbeat i)) = some w' ∧
      w'.heartbeat i = .ended ∧
      cleanUp T.weave i .returned ⟨w.config, w.jvm, w.manager⟩
        = .ret ⟨w'.config, w'.jvm, w'.manager⟩ := by
  obtain ⟨config, jvm, manager, agent, heartbeat, bootExited⟩ := w
  refine ⟨⟨config, jvm.detach T.weave inst tct i classSet, manager.canRecord false, agent,
    Function.update heartbeat i .ended, bootExited⟩, ?_, Function.update_self ..,
    cleanUp_returned h⟩
  obtain ⟨hinst, htct, hset⟩ := h
  simp only at hinst htct hset hpc
  -- eight steps, each at the program counter that the one before it has set
  simp only [Trace.execute, List.replicate, List.foldlM_cons, List.foldlM_nil, World.step,
    World.heartbeatStep, World.setHeartbeat, hpc, hinst, htct, hset, Function.update_self,
    Function.update_idem, Option.pure_def, Option.bind_eq_bind, Option.bind_fun_some,
    Option.bind_some, Jvm.detach]

/-! ## `run` -/

/-- One turn of the loop of `run`. -/
structure Turn where
  /-- `Thread.sleep(1000)` throws. -/
  interrupted : Bool
  /-- What the other threads have done by the end of the sleep. -/
  others : SharedState → SharedState
  /-- How the calls of `checkBootExit` end, should the turn make them. -/
  request : HttpAnswer
  retransform : RetransformAnswer

/-- The thread between two turns, and at its end. -/
structure HttpClientThread where
  shared : SharedState
  count : Nat
  ended : Bool

namespace HttpClientThread

/-- `run` before its loop. -/
def start (s : SharedState) : HttpClientThread := ⟨s, flip, false⟩

/-- One turn. The loop is left by a `break` or by an exception, and either ends the thread. -/
def step (weave : Weave) (id : Nat) (t : HttpClientThread) (turn : Turn) : HttpClientThread :=
  if t.ended then t
  else
    let s := turn.others t.shared
    if turn.interrupted then ⟨s, t.count, true⟩
    else if t.count = flip then
      let outcome := checkBootExit weave id turn.request turn.retransform s
      match outcome.thrown with
      | some _ => ⟨outcome.state, 0, true⟩
      | none =>
          if exitThread turn.request then ⟨outcome.state, 0, true⟩
          else ⟨outcome.state, 0 + 1, false⟩
    else ⟨s, t.count + 1, false⟩

def run (weave : Weave) (id : Nat) (t : HttpClientThread) (turns : List Turn) : HttpClientThread :=
  turns.foldl (step weave id) t

theorem run_append (weave : Weave) (id : Nat) (t : HttpClientThread) (turns turns' : List Turn) :
    t.run weave id (turns ++ turns') = (t.run weave id turns).run weave id turns' :=
  List.foldl_append

/-- The thread ends in `turn` because the boot is gone: it is running and a beat is due, which
    fails. -/
structure BootGone (t : HttpClientThread) (turn : Turn) : Prop where
  running : t.ended = false
  slept : turn.interrupted = false
  due : t.count = flip
  failed : exitThread turn.request = true

variable {weave : Weave} {id : Nat} {t : HttpClientThread} {turn : Turn}

theorem step_of_ended (h : t.ended = true) : t.step weave id turn = t := if_pos h

theorem step_of_bootGone (h : BootGone t turn) :
    t.step weave id turn
      = ⟨(cleanUp weave id turn.retransform (turn.others t.shared)).state, 0, true⟩ := by
  obtain ⟨hrun, hslept, hdue, hfailed⟩ := h
  simp only [step, hrun, hslept, hdue, checkBootExit, hfailed, Bool.false_eq_true, if_true,
    if_false]
  split <;> rfl

theorem ended_step_iff (h : t.ended = false) :
    (t.step weave id turn).ended = true ↔ turn.interrupted = true ∨ BootGone t turn := by
  by_cases hslept : turn.interrupted = true
  · refine iff_of_true ?_ (Or.inl hslept)
    simp [step, h, hslept]
  · by_cases hdue : t.count = flip
    · by_cases hfailed : exitThread turn.request = true
      · have hgone : BootGone t turn := ⟨h, by simpa using hslept, hdue, hfailed⟩
        rw [step_of_bootGone hgone]
        exact iff_of_true rfl (Or.inr hgone)
      · refine iff_of_false ?_ (fun hor => hor.elim hslept (fun hgone => hfailed hgone.failed))
        simp [step, h, hslept, hdue, checkBootExit, hfailed]
    · refine iff_of_false ?_ (fun hor => hor.elim hslept (fun hgone => hdue hgone.due))
      simp [step, h, hslept, hdue]

/-- Nothing but an interruption and a boot that is gone ends the thread. -/
theorem ended_run_iff (s : SharedState) (turns : List Turn) :
    ((start s).run weave id turns).ended = true ↔
      ∃ p turn q, turns = p ++ turn :: q ∧ ((start s).run weave id p).ended = false ∧
        (turn.interrupted = true ∨ BootGone ((start s).run weave id p) turn) := by
  induction turns using List.reverseRecOn with
  | nil => simp [run, start]
  | append_singleton turns turn ih =>
      rw [Trace.exists_split_snoc, ← ih, run_append]
      set t := (start s).run weave id turns
      show (t.step weave id turn).ended = true ↔ _
      by_cases hended : t.ended = true
      · rw [step_of_ended hended]
        exact iff_of_true hended (Or.inl hended)
      · have hrun : t.ended = false := by simpa using hended
        rw [ended_step_iff hrun]
        exact ⟨fun h => Or.inr ⟨hrun, h⟩, fun h => h.elim (fun h => absurd h hended) And.right⟩

/-- A thread that ends because the boot is gone leaves what its clean-up leaves. -/
theorem run_of_bootGone {p : List Turn} (h : BootGone (t.run weave id p) turn) :
    t.run weave id (p ++ [turn])
      = ⟨(cleanUp weave id turn.retransform (turn.others (t.run weave id p).shared)).state, 0,
          true⟩ := by
  rw [run_append]
  exact step_of_bootGone h

end HttpClientThread

/-! ## What is left behind -/

/-- Neither transformer is registered with the `Instrumentation`, and recording is off. -/
structure NothingLeft (inst tct id : Nat) (s : SharedState) : Prop where
  timeCost : (inst, .timeCost tct) ∉ s.jvm.registered
  reset : (inst, .reset id (some tct)) ∉ s.jvm.registered
  recording : s.manager.recording = false

open HttpClientThread

/-- **When a detach leaves nothing behind.** After any turns the heartbeat thread ends because the
    boot is gone, some time after an attach was completed. Then nothing is left iff the call of
    `retransformClasses` in its clean-up has returned. -/
theorem nothingLeft_iff (weave : Weave) (id : Nat) (s : SharedState) (p : List Turn) (turn : Turn)
    (inst tct : Nat) (classSet : List LoadedClass)
    (hgone : BootGone ((start s).run weave id p) turn)
    (hattached : Attached (turn.others ((start s).run weave id p).shared) inst tct classSet) :
    NothingLeft inst tct id ((start s).run weave id (p ++ [turn])).shared ↔
      turn.retransform = .returned := by
  rw [run_of_bootGone hgone]
  cases hanswer : turn.retransform with
  | returned =>
      rw [cleanUp_returned hattached]
      refine iff_of_true ⟨?_, ?_, rfl⟩ rfl
      · simp [Jvm.detach, Jvm.removeTransformer, Jvm.addTransformer]
      · simp [Jvm.detach, Jvm.removeTransformer]
  | threw e tcts =>
      rw [cleanUp_threw hattached]
      refine iff_of_false (fun h => h.reset ?_) (by simp)
      simp [Jvm.addTransformer]

/-! ### The first beat after the boot has exited -/

namespace BootExited

/-- The attach to `p.A#run` is complete and an entry call has begun. -/
def attached : SharedState :=
  ⟨NotLoaded.running.config, NotLoaded.running.jvm, TimeCostManager.initial.canRecord true⟩

/-- A turn whose beat fails. -/
def failedBeat (answer : RetransformAnswer) : Turn := ⟨false, fun s => s, .threw, answer⟩

def internalError : RetransformAnswer := .threw "java.lang.InternalError" attached.jvm.tcts

theorem attached_attached : Attached attached 0 0 [⟨1, "p.A", [1]⟩] := ⟨rfl, rfl, rfl⟩

theorem bootGone_failedBeat (answer : RetransformAnswer) :
    BootGone (start attached) (failedBeat answer) := ⟨rfl, rfl, rfl, rfl⟩

end BootExited

open BootExited

/-- When the call throws, the thread ends with the `ResetTransformer` registered and recording
    on. -/
theorem throwing_leaves_reset :
    BootGone (start attached) (failedBeat internalError) ∧
      Attached attached 0 0 [⟨1, "p.A", [1]⟩] ∧
      ((start attached).run NotLoaded.weave 0 [failedBeat internalError]).ended = true ∧
      ((start attached).run NotLoaded.weave 0 [failedBeat internalError]).shared.jvm.registered
        = [(0, .reset 0 (some 0))] ∧
      ((start attached).run NotLoaded.weave 0 [failedBeat internalError]).shared.manager.recording
        = true ∧
      ¬NothingLeft 0 0 0
        ((start attached).run NotLoaded.weave 0 [failedBeat internalError]).shared :=
  ⟨bootGone_failedBeat internalError, attached_attached, by decide, by decide, by decide,
    fun h => absurd h.recording (by decide)⟩

/-- When the call returns, nothing is left. -/
theorem returning_leaves_nothing :
    NothingLeft 0 0 0 ((start attached).run NotLoaded.weave 0 [failedBeat .returned]).shared :=
  (nothingLeft_iff NotLoaded.weave 0 attached [] (failedBeat .returned) 0 0 [⟨1, "p.A", [1]⟩]
    (bootGone_failedBeat .returned) attached_attached).2 rfl

end Jma
