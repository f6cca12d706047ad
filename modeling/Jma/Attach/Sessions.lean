import Jma.Attach.FailedAttach
import Jma.Core.TimeCostManager
import Jma.Lib.Trace

set_option autoImplicit false

/-! # Sessions that attach and clean up at the same time

Every attach is a call of `agentmain`, a heartbeat thread that this call starts, and the boot
process behind it. They all work on one `GlobalConfig`, one JVM and one `TimeCostManager`. Sessions
are numbered; the `TimeCostTransformer` of session `i` is object `i`. A step is one read or write of
something shared, or one call into the JVM. -/

namespace Jma

/-- Where a call of `agentmain` is: the step it takes next, with its local class set. -/
inductive AgentPc where
  | notCalled
  /-- `thread.start()`. -/
  | startHeartbeat
  /-- `readClassMethodHierarchy`. -/
  | readHierarchy
  /-- `getAllLoadedClasses` and `new TimeCostTransformer`. -/
  | newTransformer (methods : List CMethodInfo)
  | setTimeCostTransformer (classSet : List LoadedClass)
  | setInstrument (classSet : List LoadedClass)
  | setTransClassSet (classSet : List LoadedClass)
  | addTransformer (classSet : List LoadedClass)
  | retransform (classSet : List LoadedClass)
  /-- Returned or threw. -/
  | finished
  deriving DecidableEq

/-- Where a heartbeat thread is; after a failed beat, the step of `checkBootExit` it takes next with
    what it has read. -/
inductive HeartbeatPc where
  | notStarted
  | beating
  | getInstrument
  | getTimeCostTransformer (inst : Nat)
  | removeTransformer (inst : Nat) (tct : Option Nat)
  | getFinalClassSet (inst : Nat) (tct : Option Nat)
  | addReset (inst : Nat) (tct : Option Nat)
  | retransform (inst : Nat) (tct : Option Nat)
  | removeReset (inst : Nat) (tct : Option Nat)
  | stopRecording
  | ended
  deriving DecidableEq

structure World where
  config : GlobalConfig
  jvm : Jvm
  manager : TimeCostManager
  agent : Nat → AgentPc
  heartbeat : Nat → HeartbeatPc
  bootExited : Nat → Bool

/-- A target JVM: the classes it has, what each session finds around it and where its boot listens.
    `advised` tells instrumented bytes from others; no class is defined with instrumented bytes. -/
structure Target where
  weave : Weave
  env : Nat → AgentEnv
  bootPort : Nat → Int
  loaded : List LoadedClass
  allLoaded : ∀ i, (env i).allLoadedClassed ⊆ loaded
  advised : Bytes → Bool
  original : ∀ c ∈ loaded, advised c.bytes = false

inductive Action where
  /-- The boot of session `i` attaches: `preCheckAndConfig`. -/
  | attach (i : Nat) (args : Option String)
  /-- The next step of `agentmain` in session `i`. -/
  | agent (i : Nat)
  /-- A beat of session `i`, answered by a boot or failed. -/
  | beat (i : Nat) (answeredBy : Option Nat)
  /-- The next step of `checkBootExit` in session `i`. -/
  | heartbeat (i : Nat)
  /-- The boot of session `i` exits. -/
  | exit (i : Nat)

namespace World

def initial : World where
  config := .initial
  jvm := .pristine
  manager := .initial
  agent := fun _ => .notCalled
  heartbeat := fun _ => .notStarted
  bootExited := fun _ => false

def setAgent (w : World) (i : Nat) (pc : AgentPc) : World :=
  { w with agent := Function.update w.agent i pc }

def setHeartbeat (w : World) (i : Nat) (pc : HeartbeatPc) : World :=
  { w with heartbeat := Function.update w.heartbeat i pc }

open AgentMain in
/-- `preCheckAndConfig` of session `i`. -/
def attach (T : Target) (w : World) (i : Nat) (args : Option String) : World :=
  let checked := preCheckAndConfig (T.env i) w.config args
  { w with config := checked.2 }.setAgent i
    (match checked.1 with
     | .ok true => .startHeartbeat
     | _ => .finished)

open AgentMain in
/-- The step that `agentmain` of session `i` takes next. -/
def agentStep (T : Target) (w : World) (i : Nat) : AgentPc → Option World
  | .notCalled => none
  | .startHeartbeat => some ((w.setHeartbeat i .beating).setAgent i .readHierarchy)
  | .readHierarchy =>
      match AgentMain.readHierarchy (T.env i) w.config with
      | .error _ => some (w.setAgent i .finished)
      | .ok methods => some (w.setAgent i (.newTransformer methods))
  | .newTransformer methods =>
      let allLoadedClassed := (T.env i).allLoadedClassed
      some ({ w with
        jvm := w.jvm.newTransformer i (finalTransClasses methods allLoadedClassed) }.setAgent
        i (.setTimeCostTransformer (finalClassSet methods allLoadedClassed)))
  | .setTimeCostTransformer classSet =>
      some ({ w with config := w.config.setTimeCostTransformer i }.setAgent i
        (.setInstrument classSet))
  | .setInstrument classSet =>
      some ({ w with config := w.config.setInstrument (T.env i).inst }.setAgent i
        (.setTransClassSet classSet))
  | .setTransClassSet classSet =>
      some ({ w with config := w.config.setTransClassSet classSet }.setAgent i
        (.addTransformer classSet))
  | .addTransformer classSet =>
      some ({ w with jvm := w.jvm.addTransformer (T.env i).inst (.timeCost i) }.setAgent i
        (.retransform classSet))
  | .retransform classSet =>
      some ({ w with jvm := w.jvm.retransformClasses T.weave classSet }.setAgent i .finished)
  | .finished => none

/-- The step that `checkBootExit` of session `i` takes next. Without an `Instrumentation` or a class
    set there is nothing more to do; the thread ends in any case. -/
def heartbeatStep (T : Target) (w : World) (i : Nat) : HeartbeatPc → Option World
  | .notStarted => none
  | .beating => none
  | .getInstrument =>
      match w.config.inst with
      | none => some (w.setHeartbeat i .ended)
      | some inst => some (w.setHeartbeat i (.getTimeCostTransformer inst))
  | .getTimeCostTransformer inst =>
      some (w.setHeartbeat i (.removeTransformer inst w.config.tct))
  | .removeTransformer inst tct =>
      let jvm :=
        match tct with
        | none => w.jvm
        | some t => w.jvm.removeTransformer inst (.timeCost t)
      some ({ w with jvm := jvm }.setHeartbeat i (.getFinalClassSet inst tct))
  | .getFinalClassSet inst tct =>
      match w.config.finalClassSet with
      | none => some (w.setHeartbeat i .ended)
      | some _ => some (w.setHeartbeat i (.addReset inst tct))
  | .addReset inst tct =>
      some ({ w with jvm := w.jvm.addTransformer inst (.reset i tct) }.setHeartbeat i
        (.retransform inst tct))
  | .retransform inst tct =>
      -- the class set is read a second time, after the test for `null`
      match w.config.finalClassSet with
      | none => some (w.setHeartbeat i .ended)
      | some classSet =>
          some ({ w with jvm := w.jvm.retransformClasses T.weave classSet }.setHeartbeat i
            (.removeReset inst tct))
  | .removeReset inst tct =>
      some ({ w with jvm := w.jvm.removeTransformer inst (.reset i tct) }.setHeartbeat i
        .stopRecording)
  | .stopRecording =>
      some ({ w with manager := w.manager.canRecord false }.setHeartbeat i .ended)
  | .ended => none

/-- One step of one of the parties, if it is possible. A boot answers on the port that
    `GlobalConfig` holds; a beat may fail at any time. -/
def step (T : Target) (w : World) : Action → Option World
  | .attach i args => if w.agent i = .notCalled then some (w.attach T i args) else none
  | .agent i => w.agentStep T i (w.agent i)
  | .beat i (some j) =>
      if w.heartbeat i = .beating ∧ w.bootExited j = false ∧ T.bootPort j = w.config.httpPort then
        some w
      else none
  | .beat i none =>
      if w.heartbeat i = .beating then some (w.setHeartbeat i .getInstrument) else none
  | .heartbeat i => w.heartbeatStep T i (w.heartbeat i)
  | .exit i => if w.agent i = .notCalled then none else some { w with
      bootExited := Function.update w.bootExited i true }

/-- Every session is over: its `agentmain` call is finished, its boot has exited and its heartbeat
    thread, if it was started, has ended. -/
def Final (w : World) : Prop :=
  ∀ i, (w.agent i = .notCalled ∨ (w.agent i = .finished ∧ w.bootExited i = true)) ∧
    (w.heartbeat i = .notStarted ∨ w.heartbeat i = .ended)

/-! ## One attach alone -/

section

open AgentMain

variable (T : Target) {w : World} {i : Nat}

/-- The rest of `agentmain` when the walk throws. -/
theorem execute_of_error {e : AgentThrowable} (hagent : w.agent i = .startHeartbeat)
    (hread : readHierarchy (T.env i) w.config = .error e) :
    Trace.execute (step T) w (List.replicate 2 (.agent i))
      = some ((w.setHeartbeat i .beating).setAgent i .finished) := by
  obtain ⟨config, jvm, manager, agent, heartbeat, bootExited⟩ := w
  simp only at hagent hread
  simp only [Trace.execute, List.replicate, List.foldlM_cons, List.foldlM_nil, step, agentStep,
    setAgent, setHeartbeat, hagent, hread, Function.update_self, Function.update_idem,
    Option.pure_def, Option.bind_eq_bind, Option.bind_some]

/-- The rest of `agentmain` when the walk returns: eight steps, each at the program counter that the
    one before it has set. -/
theorem execute_of_ok {methods : List CMethodInfo} (hagent : w.agent i = .startHeartbeat)
    (hread : readHierarchy (T.env i) w.config = .ok methods) :
    Trace.execute (step T) w (List.replicate 8 (.agent i))
      = some (({ w with
          config :=
            ((w.config.setTimeCostTransformer i).setInstrument (T.env i).inst).setTransClassSet
              (finalClassSet methods (T.env i).allLoadedClassed)
          jvm := ((w.jvm.newTransformer i (finalTransClasses methods
            (T.env i).allLoadedClassed)).addTransformer (T.env i).inst
              (.timeCost i)).retransformClasses T.weave
                (finalClassSet methods (T.env i).allLoadedClassed) }.setHeartbeat i
            .beating).setAgent i .finished) := by
  obtain ⟨config, jvm, manager, agent, heartbeat, bootExited⟩ := w
  simp only at hagent hread
  simp only [Trace.execute, List.replicate, List.foldlM_cons, List.foldlM_nil, step, agentStep,
    setAgent, setHeartbeat, hagent, hread, Function.update_self, Function.update_idem,
    Option.pure_def, Option.bind_eq_bind, Option.bind_some]

/-- The steps that `agentmain` is cut into make the same call when nobody gets in between. -/
theorem execute_agentmain (args : Option String) (hagent : w.agent i = .notCalled)
    (hheartbeat : w.heartbeat i = .notStarted) (heartbeats : Nat) :
    ∃ n w', Trace.execute (step T) w (.attach i args :: List.replicate n (.agent i)) = some w' ∧
      w'.agent i = .finished ∧ w'.manager = w.manager ∧
      (agentmain T.weave (T.env i) i ⟨w.config, w.jvm, heartbeats⟩ args).2
        = ⟨w'.config, w'.jvm,
            if w'.heartbeat i = .beating then heartbeats + 1 else heartbeats⟩ := by
  have hattach : ∀ n, Trace.execute (step T) w (.attach i args :: List.replicate n (.agent i))
      = Trace.execute (step T) (w.attach T i args) (List.replicate n (.agent i)) := by
    intro n
    rw [Trace.execute, List.foldlM_cons, step, if_pos hagent]
    rfl
  have hagent' : (w.attach T i args).agent i
      = match (preCheckAndConfig (T.env i) w.config args).1 with
        | .ok true => .startHeartbeat
        | _ => .finished := Function.update_self ..
  rcases hpre : preCheckAndConfig (T.env i) w.config args with ⟨e | _ | _, cfg⟩ <;>
    rw [hpre] at hagent'
  · refine ⟨0, _, (hattach 0).trans rfl, hagent', rfl, ?_⟩
    simp [agentmain, hpre, hheartbeat, attach, setAgent]
  · refine ⟨0, _, (hattach 0).trans rfl, hagent', rfl, ?_⟩
    simp [agentmain, hpre, hheartbeat, attach, setAgent]
  · have hconfig : (w.attach T i args).config = cfg := congrArg Prod.snd hpre
    cases hread : readHierarchy (T.env i) cfg with
    | error e =>
        refine ⟨2, _, (hattach 2).trans (execute_of_error T hagent' (hconfig ▸ hread)),
          Function.update_self .., rfl, ?_⟩
        simp [agentmain, hpre, hread, attach, setAgent, setHeartbeat]
    | ok methods =>
        refine ⟨8, _, (hattach 8).trans (execute_of_ok T hagent' (hconfig ▸ hread)),
          Function.update_self .., rfl, ?_⟩
        simp [agentmain, hpre, hread, attach, setAgent, setHeartbeat]

end
end World

/-- The `TimeCostTransformer` objects in a list of transformers, with their `Instrumentation`. -/
def timeCostsIn (registered : List (Nat × Transformer)) : List (Nat × Nat) :=
  registered.filterMap (fun r =>
    match r.2 with
    | .timeCost t => some (r.1, t)
    | .reset _ _ => none)

/-- No `TimeCostTransformer` is registered and no loaded class runs instrumented code. -/
structure Jvm.Clean (T : Target) (jvm : Jvm) : Prop where
  timeCosts : timeCostsIn jvm.registered = []
  installed : ∀ c ∈ T.loaded, T.advised (jvm.installed c) = false

end Jma
