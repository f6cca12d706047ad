import Jma.Advice.CallTree
import Jma.Lib.Trace
import Mathlib.Logic.Function.Basic

set_option autoImplicit false

/-! # Detaching while calls are in flight

`checkBootExit` retransforms the classes and then switches recording off. Calls that are in flight
at that moment still have advice to run. A thread is its stack of instrumented calls, and a step is
one step of the advice of the innermost call; `mergeRecord` holds the monitor of the manager and is
split between its test of the flag and its write, because `canRecord` is not synchronized. -/

namespace Jma

/-- Where an instrumented call is. -/
inductive FramePc where
  /-- At the test of `onEnter`. -/
  | entering
  /-- At `canRecord(true)`. -/
  | opening
  /-- In the body, after `onEnter` has read the clock. -/
  | running (start : Int)
  /-- At `mergeRecord`, with the sample. -/
  | exiting (s : Sample)
  /-- Inside `mergeRecord`, past the test of the flag. -/
  | merging (s : Sample)
  /-- At `printAndRolling`. -/
  | rolling
  deriving DecidableEq

structure Frame where
  method : MethodIdentifier
  pc : FramePc
  deriving DecidableEq

/-- The test of both advices. -/
def Frame.isEnter (cfg : GlobalConfig) (f : Frame) : Bool :=
  cfg.isEnter f.method.className f.method.methodName

/-- How far the detach is. -/
inductive DetachPhase where
  | instrumented
  /-- The classes are retransformed to their original code. -/
  | restored
  /-- `canRecord(false)` has been executed. -/
  | stopped
  deriving DecidableEq, Repr

structure InFlight where
  manager : TimeCostManager
  /-- The thread inside `mergeRecord`. -/
  monitor : Option Nat
  /-- The instrumented calls of every thread, innermost first. -/
  stack : Nat → List Frame
  phase : DetachPhase

inductive FlightAction where
  /-- A thread calls an instrumented method. -/
  | call (t : Nat) (method : MethodIdentifier)
  /-- The next step of the advice of the innermost call, with its clock readings. -/
  | advance (t : Nat) (now : Int) (currentTimeMillis : String → Int)
  /-- The body of the innermost call ends normally, and `onExit` takes the sample. -/
  | ret (t : Nat) (stackTrace : List StackTraceElement) (now : Int)
  /-- The body of the innermost call ends by an exception; `onExit` is skipped. -/
  | throw (t : Nat)
  /-- The heartbeat thread retransforms the classes. -/
  | restore
  /-- The heartbeat thread executes `canRecord(false)`. -/
  | stop

/-- The thread that makes the step; the detach is the heartbeat thread's. -/
def FlightAction.thread : FlightAction → Option Nat
  | .call t _ => some t
  | .advance t _ _ => some t
  | .ret t _ _ => some t
  | .throw t => some t
  | .restore => none
  | .stop => none

namespace InFlight

def initial (manager : TimeCostManager) : InFlight := ⟨manager, none, fun _ => [], .instrumented⟩

def setStack (s : InFlight) (t : Nat) (stack : List Frame) : InFlight :=
  { s with stack := Function.update s.stack t stack }

@[simp] theorem stack_setStack_self (s : InFlight) (t : Nat) (stack : List Frame) :
    (s.setStack t stack).stack t = stack := Function.update_self ..

@[simp] theorem setStack_setStack (s : InFlight) (t : Nat) (stack stack' : List Frame) :
    (s.setStack t stack).setStack t stack' = s.setStack t stack' := by
  simp [setStack]

/-- What is left of a call after `mergeRecord`: the entry rolls. -/
def afterRecord (cfg : GlobalConfig) (f : Frame) (rest : List Frame) : List Frame :=
  if f.isEnter cfg then { f with pc := .rolling } :: rest else rest

/-- One step of the advice of `f`, the innermost call of thread `t`. -/
def advance (cfg : GlobalConfig) (name : Nat → String) (s : InFlight) (t : Nat) (f : Frame)
    (rest : List Frame) (now : Int) (currentTimeMillis : String → Int) : Option InFlight :=
  match f.pc with
  | .entering =>
      let pc := if f.isEnter cfg then .opening else .running now
      some (s.setStack t ({ f with pc := pc } :: rest))
  | .opening =>
      some ({ s with manager := s.manager.canRecord true }.setStack t
        ({ f with pc := .running now } :: rest))
  | .running _ => none
  | .exiting sample =>
      -- `mergeRecord` waits while another thread is inside; `canRecord` above does not
      if s.monitor.isSome then none
      else if !s.manager.recording then some (s.setStack t (afterRecord cfg f rest))
      else some ({ s with monitor := some t }.setStack t ({ f with pc := .merging sample } :: rest))
  | .merging sample =>
      some ({ s with
        manager := s.manager.store (name t) sample.toRecord, monitor := none }.setStack t
          (afterRecord cfg f rest))
  | .rolling =>
      if s.monitor.isSome then none
      else some ({ s with
        manager := (s.manager.printAndRolling (name t) currentTimeMillis).1 }.setStack t rest)

/-- Whether a thread is in target code, where it can make a call. -/
def inBody : List Frame → Bool
  | [] => true
  | f :: _ =>
      match f.pc with
      | .running _ => true
      | _ => false

/-- One step of one thread, if it is possible. Restored classes run without advice, so a call is of
    interest only while the classes are instrumented. -/
def step (cfg : GlobalConfig) (name : Nat → String) (s : InFlight) : FlightAction → Option InFlight
  | .call t method =>
      if s.phase = .instrumented ∧ inBody (s.stack t) = true then
        some (s.setStack t (⟨method, .entering⟩ :: s.stack t))
      else none
  | .advance t now currentTimeMillis =>
      match s.stack t with
      | [] => none
      | f :: rest => s.advance cfg name t f rest now currentTimeMillis
  | .ret t stackTrace now =>
      match s.stack t with
      | ⟨method, .running start⟩ :: rest =>
          let origin := Executable.method method.className method.methodName method.descriptor
          some (s.setStack t
            (⟨method, .exiting (AdviceUtil.sample cfg origin stackTrace start now)⟩ :: rest))
      | _ => none
  | .throw t =>
      match s.stack t with
      | ⟨_, .running _⟩ :: rest => some (s.setStack t rest)
      | _ => none
  | .restore => if s.phase = .instrumented then some { s with phase := .restored } else none
  | .stop =>
      if s.phase = .restored then
        some { s with phase := .stopped, manager := s.manager.canRecord false }
      else none

/-! ## The shape of the stacks -/

/-- Only the innermost call is in its advice, and only an entry opens the flag or rolls. -/
def StackOk (cfg : GlobalConfig) : List Frame → Prop
  | [] => True
  | f :: rest => (f.pc = .opening ∨ f.pc = .rolling → f.isEnter cfg = true) ∧
      ∀ g ∈ rest, ∃ start, g.pc = .running start

structure Inv (cfg : GlobalConfig) (s : InFlight) : Prop where
  shapes : ∀ t, StackOk cfg (s.stack t)
  monitor : ∀ t, s.monitor = some t →
    ∃ f rest sample, s.stack t = f :: rest ∧ f.pc = .merging sample

variable {cfg : GlobalConfig} {name : Nat → String}

theorem StackOk.tail {f : Frame} {rest : List Frame} (h : StackOk cfg (f :: rest)) :
    StackOk cfg rest := by
  cases rest with
  | nil => trivial
  | cons g rest =>
      obtain ⟨start, hg⟩ := h.2 g (List.mem_cons_self ..)
      refine ⟨fun hpc => ?_, fun g' hg' => h.2 g' (List.mem_cons_of_mem _ hg')⟩
      rw [hg] at hpc
      rcases hpc with hpc | hpc <;> cases hpc

/-- A call is made from the body of the innermost one. -/
theorem StackOk.push {stack : List Frame} (h : StackOk cfg stack) (hbody : inBody stack = true)
    (method : MethodIdentifier) : StackOk cfg (⟨method, .entering⟩ :: stack) := by
  refine ⟨by simp, fun g hg => ?_⟩
  cases stack with
  | nil => cases hg
  | cons f rest =>
      rcases List.mem_cons.1 hg with rfl | hg
      · obtain ⟨method', pc⟩ := g
        cases pc with
        | running start => exact ⟨start, rfl⟩
        | _ => cases hbody
      · exact h.2 g hg

theorem StackOk.replace {f g : Frame} {rest : List Frame} (h : StackOk cfg (f :: rest))
    (hg : g.pc = .opening ∨ g.pc = .rolling → g.isEnter cfg = true) : StackOk cfg (g :: rest) :=
  ⟨hg, h.2⟩

theorem StackOk.afterRecord {f : Frame} {rest : List Frame} (h : StackOk cfg (f :: rest)) :
    StackOk cfg (afterRecord cfg f rest) := by
  unfold InFlight.afterRecord
  split
  · next henter => exact h.replace (fun _ => henter)
  · exact h.tail

/-! ## What one step can do -/

variable {s s' : InFlight}

/-- The steps of the advice of `f`, the innermost call of thread `t`, with what each needs. -/
inductive Advances (cfg : GlobalConfig) (name : Nat → String) (s : InFlight) (t : Nat)
    (rest : List Frame) : Frame → InFlight → Prop
  | enter {f : Frame} (hpc : f.pc = .entering) (henter : f.isEnter cfg = true) :
      Advances cfg name s t rest f (s.setStack t ({ f with pc := .opening } :: rest))
  | read {f : Frame} (now : Int) (hpc : f.pc = .entering) (henter : f.isEnter cfg = false) :
      Advances cfg name s t rest f (s.setStack t ({ f with pc := .running now } :: rest))
  | «open» {f : Frame} (now : Int) (hpc : f.pc = .opening) :
      Advances cfg name s t rest f ({ s with manager := s.manager.canRecord true }.setStack t
        ({ f with pc := .running now } :: rest))
  | refuse {f : Frame} {x : Sample} (hpc : f.pc = .exiting x) (hfree : s.monitor = none)
      (hoff : s.manager.recording = false) :
      Advances cfg name s t rest f (s.setStack t (afterRecord cfg f rest))
  | lock {f : Frame} {x : Sample} (hpc : f.pc = .exiting x) (hfree : s.monitor = none)
      (hon : s.manager.recording = true) :
      Advances cfg name s t rest f
        ({ s with monitor := some t }.setStack t ({ f with pc := .merging x } :: rest))
  | store {f : Frame} {x : Sample} (hpc : f.pc = .merging x) :
      Advances cfg name s t rest f
        ({ s with
          manager := s.manager.store (name t) x.toRecord, monitor := none }.setStack t
            (afterRecord cfg f rest))
  | roll {f : Frame} (currentTimeMillis : String → Int) (hpc : f.pc = .rolling)
      (hfree : s.monitor = none) :
      Advances cfg name s t rest f ({ s with
        manager := (s.manager.printAndRolling (name t) currentTimeMillis).1 }.setStack t rest)

theorem advances {t : Nat} {f : Frame} {rest : List Frame} {now : Int}
    {currentTimeMillis : String → Int}
    (h : s.advance cfg name t f rest now currentTimeMillis = some s') :
    Advances cfg name s t rest f s' := by
  have hfree : ∀ {o : Option InFlight}, (if s.monitor.isSome then none else o) = some s' →
      s.monitor = none ∧ o = some s' := by
    intro o ho
    cases hm : s.monitor <;> simp_all
  obtain ⟨method, pc⟩ := f
  cases pc with
  | entering =>
      by_cases henter : (⟨method, .entering⟩ : Frame).isEnter cfg = true
      · simp only [advance, if_pos henter] at h
        cases h
        exact .enter rfl henter
      · simp only [advance, if_neg henter] at h
        cases h
        exact .read now rfl (Bool.eq_false_iff.2 henter)
  | opening =>
      cases h
      exact .open now rfl
  | running start => cases h
  | exiting x =>
      obtain ⟨hmon, h⟩ := hfree h
      cases hrec : s.manager.recording with
      | false =>
          simp only [hrec] at h
          cases h
          exact .refuse rfl hmon hrec
      | true =>
          simp only [hrec] at h
          cases h
          exact .lock rfl hmon hrec
  | merging x =>
      cases h
      exact .store rfl
  | rolling =>
      obtain ⟨hmon, h⟩ := hfree h
      cases h
      exact .roll currentTimeMillis rfl hmon

/-- The steps of a run: a thread calls, advances, returns or throws, or the detach goes on. -/
theorem step_cases {a : FlightAction} (h : step cfg name s a = some s') :
    (∃ t method, s.phase = .instrumented ∧ inBody (s.stack t) = true ∧
      s' = s.setStack t (⟨method, .entering⟩ :: s.stack t)) ∨
    (∃ t f rest, s.stack t = f :: rest ∧ Advances cfg name s t rest f s') ∨
    (∃ t method start rest x, s.stack t = ⟨method, .running start⟩ :: rest ∧
      s' = s.setStack t (⟨method, .exiting x⟩ :: rest)) ∨
    (∃ t method start rest, s.stack t = ⟨method, .running start⟩ :: rest ∧
      s' = s.setStack t rest) ∨
    (s.phase = .instrumented ∧ s' = { s with phase := .restored }) ∨
    (s.phase = .restored ∧
      s' = { s with phase := .stopped, manager := s.manager.canRecord false }) := by
  cases a with
  | call t method =>
      by_cases hcall : s.phase = .instrumented ∧ inBody (s.stack t) = true
      · rw [step, if_pos hcall] at h
        cases h
        exact Or.inl ⟨t, method, hcall.1, hcall.2, rfl⟩
      · rw [step, if_neg hcall] at h
        cases h
  | advance t now currentTimeMillis =>
      rw [step] at h
      split at h
      · cases h
      · next f rest hstack => exact Or.inr (Or.inl ⟨t, f, rest, hstack, advances h⟩)
  | ret t stackTrace now =>
      rw [step] at h
      split at h
      · next method start rest hstack =>
          cases h
          exact Or.inr (Or.inr (Or.inl ⟨t, method, start, rest, _, hstack, rfl⟩))
      · cases h
  | throw t =>
      rw [step] at h
      split at h
      · next method start rest hstack =>
          cases h
          exact Or.inr (Or.inr (Or.inr (Or.inl ⟨t, method, start, rest, hstack, rfl⟩)))
      · cases h
  | restore =>
      rw [step] at h
      split at h <;> cases h
      next hphase => exact Or.inr (Or.inr (Or.inr (Or.inr (Or.inl ⟨hphase, rfl⟩))))
  | stop =>
      rw [step] at h
      split at h <;> cases h
      next hphase => exact Or.inr (Or.inr (Or.inr (Or.inr (Or.inr ⟨hphase, rfl⟩))))

/-! ## The invariant of the stacks -/

theorem Inv.initial (manager : TimeCostManager) : Inv cfg (initial manager) where
  shapes := fun _ => trivial
  monitor := fun _ h => by cases h

/-- A thread gets a new stack, and the monitor stays as it is or changes hands with it. -/
theorem Inv.setStack (h : Inv cfg s) {t : Nat} {stack : List Frame} (hstack : StackOk cfg stack)
    (hs' : s'.stack = Function.update s.stack t stack)
    (hmon : ∀ u, s'.monitor = some u → (u = t ∧ ∃ f rest x, stack = f :: rest ∧ f.pc = .merging x) ∨
      (u ≠ t ∧ s.monitor = some u)) : Inv cfg s' where
  shapes := by
    rw [hs']
    exact (Function.forall_update_iff s.stack (fun _ => StackOk cfg)).2
      ⟨hstack, fun u _ => h.shapes u⟩
  monitor := by
    intro u hm
    rw [hs']
    rcases hmon u hm with ⟨rfl, hmerging⟩ | ⟨hu, hm'⟩
    · rw [Function.update_self]
      exact hmerging
    · rw [Function.update_of_ne hu]
      exact h.monitor u hm'

/-- A thread whose innermost call is not inside `mergeRecord` does not hold the monitor. -/
theorem Inv.monitor_ne (h : Inv cfg s) {t : Nat} {f : Frame} {rest : List Frame}
    (hstack : s.stack t = f :: rest) (hpc : ∀ x, f.pc ≠ .merging x) {u : Nat}
    (hm : s.monitor = some u) : u ≠ t := by
  rintro rfl
  obtain ⟨g, rest', x, hstack', hmerging⟩ := h.monitor u hm
  cases hstack.symm.trans hstack'
  exact hpc x hmerging

theorem Inv.advance (h : Inv cfg s) {t : Nat} {f : Frame} {rest : List Frame}
    (hstack : s.stack t = f :: rest) (hadv : Advances cfg name s t rest f s') : Inv cfg s' := by
  have hok : StackOk cfg (f :: rest) := hstack ▸ h.shapes t
  cases hadv with
  | enter hpc henter =>
      exact h.setStack (hok.replace (g := { f with pc := .opening }) (fun _ => henter)) rfl
        (fun u hm => Or.inr ⟨h.monitor_ne hstack (by simp [hpc]) hm, hm⟩)
  | read now hpc =>
      exact h.setStack (hok.replace (g := { f with pc := .running now }) (by simp)) rfl
        (fun u hm => Or.inr ⟨h.monitor_ne hstack (by simp [hpc]) hm, hm⟩)
  | «open» now hpc =>
      exact h.setStack (hok.replace (g := { f with pc := .running now }) (by simp)) rfl
        (fun u hm => Or.inr ⟨h.monitor_ne hstack (by simp [hpc]) hm, hm⟩)
  | refuse hpc hfree =>
      exact h.setStack hok.afterRecord rfl (fun u hm => absurd (hfree.symm.trans hm) (by simp))
  | lock hpc hfree =>
      exact h.setStack (hok.replace (by simp)) rfl
        (fun u hm => Or.inl ⟨(Option.some_inj.1 hm).symm, _, _, _, rfl, rfl⟩)
  | store hpc => exact h.setStack hok.afterRecord rfl (fun u hm => by cases hm)
  | roll clock hpc hfree =>
      exact h.setStack hok.tail rfl (fun u hm => absurd (hfree.symm.trans hm) (by simp))

/-- Every step keeps the shape of the stacks. -/
theorem Inv.step (h : Inv cfg s) {a : FlightAction} (hstep : step cfg name s a = some s') :
    Inv cfg s' := by
  rcases step_cases hstep with ⟨t, method, -, hbody, rfl⟩ | ⟨t, f, rest, hstack, hadv⟩ |
    ⟨t, method, start, rest, x, hstack, rfl⟩ | ⟨t, method, start, rest, hstack, rfl⟩ |
    ⟨-, rfl⟩ | ⟨-, rfl⟩
  · refine h.setStack ((h.shapes t).push hbody method) rfl (fun u hm => Or.inr ⟨?_, hm⟩)
    rintro rfl
    obtain ⟨f, rest, x, hstack, hpc⟩ := h.monitor u hm
    rw [hstack, inBody, hpc] at hbody
    cases hbody
  · exact h.advance hstack hadv
  · have hok : StackOk cfg (_ :: rest) := hstack ▸ h.shapes t
    exact h.setStack (hok.replace (by simp)) rfl
      (fun u hm => Or.inr ⟨h.monitor_ne hstack (by simp) hm, hm⟩)
  · have hok : StackOk cfg (_ :: rest) := hstack ▸ h.shapes t
    exact h.setStack hok.tail rfl (fun u hm => Or.inr ⟨h.monitor_ne hstack (by simp) hm, hm⟩)
  · exact ⟨h.shapes, h.monitor⟩
  · exact ⟨h.shapes, h.monitor⟩

/-! ## Calls that end without a trace -/

/-- A call is calm when none of its next steps of advice opens the flag or stores a sample. -/
structure Calm (cfg : GlobalConfig) (f : Frame) : Prop where
  opens : f.pc ≠ .opening
  enters : f.pc = .entering → f.isEnter cfg = false
  merges : ∀ x, f.pc ≠ .merging x

/-- When the calls in flight can end without a trace in the manager: no entry call has its
    `canRecord(true)` ahead, no call is past the test of the flag in `mergeRecord`, and an entry
    call that will roll finds only empty chains. -/
structure Quiet (cfg : GlobalConfig) (s : InFlight) : Prop where
  calm : ∀ t, ∀ f ∈ s.stack t, Calm cfg f
  rolls : (∀ t, ∀ f ∈ s.stack t, f.isEnter cfg = false) ∨ ∀ key, s.manager.pending key = []

/-- What is claimed of the state `s` right after `canRecord(false)`: no later step of any thread
    changes `costMap` or turns recording on. -/
def StaysOff (cfg : GlobalConfig) (name : Nat → String) (s : InFlight) : Prop :=
  ∀ s', Trace.Runs (step cfg name) (fun _ _ => True) s s' →
    s'.manager.costMap = s.manager.costMap ∧ s'.manager.recording = false

theorem Quiet.setStack (h : Quiet cfg s) {t : Nat} {stack : List Frame}
    (hcalm : ∀ g ∈ stack, Calm cfg g)
    (henter : ∀ g ∈ stack, ∃ f ∈ s.stack t, f.isEnter cfg = g.isEnter cfg)
    (hs' : s'.stack = Function.update s.stack t stack)
    (hsame : s'.manager.costMap = s.manager.costMap) : Quiet cfg s' where
  calm := by
    rw [hs']
    exact (Function.forall_update_iff s.stack (fun _ stack => ∀ g ∈ stack, Calm cfg g)).2
      ⟨hcalm, fun u _ => h.calm u⟩
  rolls := by
    refine h.rolls.imp (fun hnone => ?_) (fun hempty key => ?_)
    · rw [hs']
      refine (Function.forall_update_iff s.stack
        (fun _ stack => ∀ g ∈ stack, Frame.isEnter cfg g = false)).2
          ⟨fun g hg => ?_, fun u _ => hnone u⟩
      obtain ⟨f, hf, heq⟩ := henter g hg
      rw [← heq]
      exact hnone t f hf
    · rw [TimeCostManager.pending, hsame]
      exact hempty key

/-- The innermost call goes on. -/
theorem Quiet.next (h : Quiet cfg s) {t : Nat} {f : Frame} {rest : List Frame} {pc : FramePc}
    (hstack : s.stack t = f :: rest) (hpc : Calm cfg { f with pc := pc }) :
    Quiet cfg (s.setStack t ({ f with pc := pc } :: rest)) := by
  have hcalm : ∀ g ∈ f :: rest, Calm cfg g := hstack ▸ h.calm t
  refine h.setStack (fun g hg => ?_) (fun g hg => ?_) rfl rfl
  · rcases List.mem_cons.1 hg with rfl | hg
    · exact hpc
    · exact hcalm g (List.mem_cons_of_mem _ hg)
  · rcases List.mem_cons.1 hg with rfl | hg
    · exact ⟨f, hstack ▸ List.mem_cons_self, rfl⟩
    · exact ⟨g, hstack ▸ List.mem_cons_of_mem _ hg, rfl⟩

/-- The innermost call is left. -/
theorem Quiet.leave (h : Quiet cfg s) {t : Nat} {f : Frame} {rest : List Frame}
    (hstack : s.stack t = f :: rest) (hs' : s'.stack = Function.update s.stack t rest)
    (hsame : s'.manager.costMap = s.manager.costMap) : Quiet cfg s' := by
  have hcalm : ∀ g ∈ f :: rest, Calm cfg g := hstack ▸ h.calm t
  exact h.setStack (fun g hg => hcalm g (List.mem_cons_of_mem _ hg))
    (fun g hg => ⟨g, hstack ▸ List.mem_cons_of_mem _ hg, rfl⟩) hs' hsame

/-- The state after a quiet detach, and what its steps keep. -/
structure Silent (cfg : GlobalConfig) (costMap : AList fun _ : String => TimeCostChain)
    (s : InFlight) : Prop where
  inv : Inv cfg s
  phase : s.phase = .stopped
  off : s.manager.recording = false
  same : s.manager.costMap = costMap
  quiet : Quiet cfg s

variable {costMap : AList fun _ : String => TimeCostChain}

theorem Silent.advance (h : Silent cfg costMap s) {t : Nat} {f : Frame} {rest : List Frame}
    (hstack : s.stack t = f :: rest) (hadv : Advances cfg name s t rest f s') :
    Silent cfg costMap s' := by
  have hinv := h.inv.advance hstack hadv
  have hmem : f ∈ s.stack t := hstack ▸ List.mem_cons_self
  have hf : Calm cfg f := h.quiet.calm t f hmem
  cases hadv with
  | enter hpc henter => exact absurd (hf.enters hpc) (by simp [henter])
  | read now hpc henter =>
      exact ⟨hinv, h.phase, h.off, h.same, h.quiet.next hstack ⟨by simp, by simp, by simp⟩⟩
  | «open» now hpc => exact absurd hpc hf.opens
  | refuse hpc hfree hoff =>
      refine ⟨hinv, h.phase, h.off, h.same, ?_⟩
      unfold afterRecord
      split
      · exact h.quiet.next hstack ⟨by simp, by simp, by simp⟩
      · exact h.quiet.leave hstack rfl rfl
  | lock hpc hfree hon => exact absurd (h.off.symm.trans hon) (by simp)
  | store hpc => exact absurd hpc (hf.merges _)
  | roll clock hpc hfree =>
      -- only an entry rolls, so nothing is pending
      have henter : f.isEnter cfg = true :=
        (hstack ▸ h.inv.shapes t : StackOk cfg (f :: rest)).1 (Or.inr hpc)
      have hempty : ∀ key, s.manager.pending key = [] := by
        refine h.quiet.rolls.resolve_left (fun hnone => ?_)
        rw [hnone t f hmem] at henter
        cases henter
      have hsame := TimeCostManager.costMap_printAndRolling hempty (name t) clock
      exact ⟨hinv, h.phase, h.off, hsame.trans h.same, h.quiet.leave hstack rfl hsame⟩

theorem Silent.step (h : Silent cfg costMap s) {a : FlightAction}
    (hstep : step cfg name s a = some s') : Silent cfg costMap s' := by
  have hinv := h.inv.step hstep
  rcases step_cases hstep with ⟨t, method, hphase, -, -⟩ | ⟨t, f, rest, hstack, hadv⟩ |
    ⟨t, method, start, rest, x, hstack, rfl⟩ | ⟨t, method, start, rest, hstack, rfl⟩ |
    ⟨hphase, -⟩ | ⟨hphase, -⟩
  · exact absurd (h.phase.symm.trans hphase) (by simp)
  · exact h.advance hstack hadv
  · exact ⟨hinv, h.phase, h.off, h.same, h.quiet.next hstack ⟨by simp, by simp, by simp⟩⟩
  · exact ⟨hinv, h.phase, h.off, h.same, h.quiet.leave hstack rfl rfl⟩
  · exact absurd (h.phase.symm.trans hphase) (by simp)
  · exact absurd (h.phase.symm.trans hphase) (by simp)

/-! ## Calls that leave a trace -/

section

variable (cfg : GlobalConfig) (name : Nat → String)

/-- An entry call at `canRecord(true)` turns recording on. -/
theorem open_of_opening {t : Nat} {f : Frame} {rest : List Frame} (hstack : s.stack t = f :: rest)
    (hpc : f.pc = .opening) : ∃ s', Trace.Runs (step cfg name) (fun _ _ => True) s s' ∧
      s'.manager.recording = true := by
  obtain ⟨method, pc⟩ := f
  obtain rfl : pc = .opening := hpc
  have hopen : step cfg name s (.advance t 0 (fun _ => 0))
      = some ({ s with manager := s.manager.canRecord true }.setStack t
          (⟨method, .running 0⟩ :: rest)) := by
    rw [step, hstack]
    rfl
  exact ⟨_, .head trivial hopen .refl, rfl⟩

theorem open_of_entering {t : Nat} {f : Frame} {rest : List Frame} (hstack : s.stack t = f :: rest)
    (hpc : f.pc = .entering) (henter : f.isEnter cfg = true) :
    ∃ s', Trace.Runs (step cfg name) (fun _ _ => True) s s' ∧ s'.manager.recording = true := by
  obtain ⟨method, pc⟩ := f
  obtain rfl : pc = .entering := hpc
  have henters : step cfg name s (.advance t 0 (fun _ => 0))
      = some (s.setStack t (⟨method, .opening⟩ :: rest)) := by
    rw [step, hstack]
    simp only [advance, if_pos henter]
  obtain ⟨s', hrun, hon⟩ := open_of_opening cfg name
    (stack_setStack_self s t (⟨method, .opening⟩ :: rest)) rfl
  exact ⟨s', .head trivial henters hrun, hon⟩

/-- A call past the test of the flag stores its sample. -/
theorem store_of_merging {t : Nat} {f : Frame} {rest : List Frame} {x : Sample}
    (hstack : s.stack t = f :: rest) (hpc : f.pc = .merging x) :
    ∃ s', Trace.Runs (step cfg name) (fun _ _ => True) s s' ∧
      s'.manager.costMap ≠ s.manager.costMap := by
  obtain ⟨method, pc⟩ := f
  obtain rfl : pc = .merging x := hpc
  have hstore : step cfg name s (.advance t 0 (fun _ => 0))
      = some ({ s with
          manager := s.manager.store (name t) x.toRecord, monitor := none }.setStack t
            (afterRecord cfg ⟨method, .merging x⟩ rest)) := by
    rw [step, hstack]
    rfl
  refine ⟨_, .head trivial hstore .refl, fun hsame => ?_⟩
  have hpending : (s.manager.store (name t) x.toRecord).pending (name t)
      = s.manager.pending (name t) :=
    congrArg (fun m => ((AList.lookup (name t) m).getD .empty).recordList) hsame
  rw [TimeCostManager.pending_store_self] at hpending
  exact mergeInto_ne (List.cons_ne_nil _ _) _ hpending

/-- A call at `printAndRolling` empties every chain. -/
theorem roll_of_rolling (hfree : s.monitor = none) {t : Nat} {f : Frame} {rest : List Frame}
    (hstack : s.stack t = f :: rest) (hpc : f.pc = .rolling) :
    ∃ s', Trace.Runs (step cfg name) (fun _ _ => True) s s' ∧
      ∀ key, s'.manager.pending key = [] := by
  obtain ⟨method, pc⟩ := f
  obtain rfl : pc = .rolling := hpc
  have hroll : step cfg name s (.advance t 0 (fun _ => 0))
      = some ({ s with
          manager := (s.manager.printAndRolling (name t) (fun _ => 0)).1 }.setStack t rest) := by
    rw [step, hstack]
    simp only [advance, hfree]
    rfl
  exact ⟨_, .head trivial hroll .refl, s.manager.pending_printAndRolling (name t) (fun _ => 0)⟩

/-- With recording off, a call at `mergeRecord` goes on without a sample. -/
theorem step_refuse (hoff : s.manager.recording = false) (hfree : s.monitor = none) {t : Nat}
    {method : MethodIdentifier} {x : Sample} {rest : List Frame}
    (hstack : s.stack t = ⟨method, .exiting x⟩ :: rest) :
    step cfg name s (.advance t 0 (fun _ => 0))
      = some (s.setStack t (afterRecord cfg ⟨method, .exiting x⟩ rest)) := by
  rw [step, hstack]
  simp only [advance, hfree, hoff]
  rfl

theorem roll_of_exiting (hoff : s.manager.recording = false) (hfree : s.monitor = none) {t : Nat}
    {method : MethodIdentifier} {x : Sample} {rest : List Frame}
    (hstack : s.stack t = ⟨method, .exiting x⟩ :: rest)
    (henter : (⟨method, .exiting x⟩ : Frame).isEnter cfg = true) :
    ∃ s', Trace.Runs (step cfg name) (fun _ _ => True) s s' ∧
      ∀ key, s'.manager.pending key = [] := by
  have hrefuse := step_refuse cfg name hoff hfree hstack
  rw [afterRecord, if_pos henter] at hrefuse
  obtain ⟨s', hrun, hempty⟩ := roll_of_rolling cfg name
    (s := s.setStack t (⟨method, .rolling⟩ :: rest)) hfree (stack_setStack_self ..) rfl
  exact ⟨s', .head trivial hrefuse hrun, hempty⟩

/-- With recording off and the monitor free, a thread with an entry call in flight comes to its
    roll: the calls above the entry call end one after the other, by an exception where they are in
    their body. -/
theorem roll_of_entry {stack : List Frame} {t : Nat} (hoff : s.manager.recording = false)
    (hfree : s.monitor = none) (hstack : s.stack t = stack) (hok : StackOk cfg stack)
    (hcalm : ∀ f ∈ stack, Calm cfg f) (hentry : ∃ f ∈ stack, f.isEnter cfg = true) :
    ∃ s', Trace.Runs (step cfg name) (fun _ _ => True) s s' ∧
      ∀ key, s'.manager.pending key = [] := by
  induction stack generalizing s with
  | nil =>
      obtain ⟨f, hf, -⟩ := hentry
      cases hf
  | cons f rest ih =>
      obtain ⟨method, pc⟩ := f
      have hf := hcalm _ List.mem_cons_self
      -- once this call has ended, the entry call is further out
      have hpop : (⟨method, pc⟩ : Frame).isEnter cfg = false →
          ∃ s', Trace.Runs (step cfg name) (fun _ _ => True) (s.setStack t rest) s' ∧
            ∀ key, s'.manager.pending key = [] := by
        intro hno
        refine ih hoff hfree (stack_setStack_self ..) hok.tail
          (fun g hg => hcalm g (List.mem_cons_of_mem _ hg)) ?_
        obtain ⟨g, hg, henter⟩ := hentry
        rcases List.mem_cons.1 hg with rfl | hg
        · rw [hno] at henter
          cases henter
        · exact ⟨g, hg, henter⟩
      cases pc with
      | entering =>
          have hno := hf.enters rfl
          have hread : step cfg name s (.advance t 0 (fun _ => 0))
              = some (s.setStack t (⟨method, .running 0⟩ :: rest)) := by
            rw [step, hstack]
            simp only [advance, hno]
            rfl
          have hthrow : step cfg name (s.setStack t (⟨method, .running 0⟩ :: rest)) (.throw t)
              = some (s.setStack t rest) := by
            simp [step, setStack]
          obtain ⟨s', hrun, hempty⟩ := hpop hno
          exact ⟨s', .head trivial hread (.head trivial hthrow hrun), hempty⟩
      | opening => exact absurd rfl hf.opens
      | running start =>
          cases henter : (⟨method, .running start⟩ : Frame).isEnter cfg with
          | false =>
              have hthrow : step cfg name s (.throw t) = some (s.setStack t rest) := by
                simp only [step, hstack]
              obtain ⟨s', hrun, hempty⟩ := hpop henter
              exact ⟨s', .head trivial hthrow hrun, hempty⟩
          | true =>
              have hret : step cfg name s (.ret t [] 0)
                  = some (s.setStack t (⟨method, .exiting (AdviceUtil.sample cfg
                      (.method method.className method.methodName method.descriptor) [] start 0)⟩
                        :: rest)) := by
                simp only [step, hstack]
              obtain ⟨s', hrun, hempty⟩ := roll_of_exiting cfg name (s := s.setStack t _) hoff hfree
                (stack_setStack_self ..) henter
              exact ⟨s', .head trivial hret hrun, hempty⟩
      | exiting x =>
          cases henter : (⟨method, .exiting x⟩ : Frame).isEnter cfg with
          | false =>
              have hrefuse := step_refuse cfg name hoff hfree hstack
              rw [afterRecord, if_neg (by simp [henter])] at hrefuse
              obtain ⟨s', hrun, hempty⟩ := hpop henter
              exact ⟨s', .head trivial hrefuse hrun, hempty⟩
          | true => exact roll_of_exiting cfg name hoff hfree hstack henter
      | merging x => exact absurd rfl (hf.merges x)
      | rolling => exact roll_of_rolling cfg name hfree hstack rfl

end

/-- A call that is not the innermost one is in its body. -/
theorem StackOk.calm {stack : List Frame} (h : StackOk cfg stack)
    (hhead : ∀ f rest, stack = f :: rest → Calm cfg f) : ∀ f ∈ stack, Calm cfg f := by
  cases stack with
  | nil => exact fun f hf => by cases hf
  | cons g rest =>
      intro f hf
      rcases List.mem_cons.1 hf with rfl | hf
      · exact hhead f rest rfl
      · obtain ⟨start, hpc⟩ := h.2 f hf
        exact ⟨by simp [hpc], by simp [hpc], by simp [hpc]⟩

/-- A state that stays off is quiet. -/
theorem Inv.quiet_of_staysOff (h : Inv cfg s) (hoff : s.manager.recording = false)
    (hstays : StaysOff cfg name s) : Quiet cfg s := by
  have hcalm : ∀ t, ∀ f ∈ s.stack t, Calm cfg f := by
    intro t
    refine (h.shapes t).calm (fun f rest hstack => ⟨fun hpc => ?_, fun hpc => ?_, fun x hpc => ?_⟩)
    · obtain ⟨s', hrun, hon⟩ := open_of_opening cfg name hstack hpc
      exact absurd ((hstays s' hrun).2.symm.trans hon) (by simp)
    · rw [← Bool.not_eq_true]
      intro henter
      obtain ⟨s', hrun, hon⟩ := open_of_entering cfg name hstack hpc henter
      exact absurd ((hstays s' hrun).2.symm.trans hon) (by simp)
    · obtain ⟨s', hrun, hne⟩ := store_of_merging cfg name hstack hpc
      exact hne (hstays s' hrun).1
  have hfree : s.monitor = none := by
    rw [Option.eq_none_iff_forall_ne_some]
    intro u hm
    obtain ⟨f, rest, x, hstack, hpc⟩ := h.monitor u hm
    exact (hcalm u f (hstack ▸ List.mem_cons_self)).merges x hpc
  refine ⟨hcalm, ?_⟩
  -- the roll of an entry call in flight can be reached, and it leaves nothing pending
  by_cases hentry : ∃ t, ∃ f ∈ s.stack t, f.isEnter cfg = true
  · obtain ⟨t, hentry⟩ := hentry
    obtain ⟨s', hrun, hempty⟩ :=
      roll_of_entry cfg name hoff hfree rfl (h.shapes t) (hcalm t) hentry
    refine Or.inr (fun key => ?_)
    rw [TimeCostManager.pending, ← (hstays s' hrun).1]
    exact hempty key
  · refine Or.inl (fun t f hf => ?_)
    rw [← Bool.not_eq_true]
    exact fun henter => hentry ⟨t, f, hf, henter⟩

/-! ## One thread alone -/

open MethodTimeCostAdvice

/-- What operations of thread `t` make of the manager. -/
def after (name : Nat → String) (s : InFlight) (t : Nat) (operations : List Operation) : InFlight :=
  { s with manager := (s.manager.run (operations.map (Event.mk (name t)))).1 }

theorem after_append (s : InFlight) (t : Nat) (os os' : List Operation) :
    s.after name t (os ++ os') = (s.after name t os).after name t os' := by
  simp only [after, List.map_append, TimeCostManager.run_append]

section

variable (cfg : GlobalConfig) (name : Nat → String) {t : Nat} {inv : Invocation}
  {rest : List Frame}

/-- A call, up to the start of its body. -/
theorem runs_onEnter (inv : Invocation) (hphase : s.phase = .instrumented)
    (hbody : inBody (s.stack t) = true) :
    Trace.Runs (step cfg name) (fun _ a => a.thread = some t) s
      ((s.after name t (onEnter cfg inv)).setStack t
        (⟨inv.method, .running inv.start⟩ :: s.stack t)) := by
  have hcall : step cfg name s (.call t inv.method)
      = some (s.setStack t (⟨inv.method, .entering⟩ :: s.stack t)) := if_pos ⟨hphase, hbody⟩
  by_cases henter : inv.isEnter cfg = true
  · have hframe : (⟨inv.method, .entering⟩ : Frame).isEnter cfg = true := henter
    have htest : step cfg name (s.setStack t (⟨inv.method, .entering⟩ :: s.stack t))
        (.advance t 0 inv.currentTimeMillis)
          = some (s.setStack t (⟨inv.method, .opening⟩ :: s.stack t)) := by
      simp [step, advance, hframe]
    have hopen : step cfg name (s.setStack t (⟨inv.method, .opening⟩ :: s.stack t))
        (.advance t inv.start inv.currentTimeMillis)
          = some ((s.after name t [.canRecord true]).setStack t
              (⟨inv.method, .running inv.start⟩ :: s.stack t)) := by
      simp [step, advance, after, TimeCostManager.run, TimeCostManager.exec, setStack]
    rw [onEnter, if_pos henter]
    exact .head rfl hcall (.head rfl htest (.head rfl hopen .refl))
  · have hframe : (⟨inv.method, .entering⟩ : Frame).isEnter cfg ≠ true := henter
    have hread : step cfg name (s.setStack t (⟨inv.method, .entering⟩ :: s.stack t))
        (.advance t inv.start inv.currentTimeMillis)
          = some (s.setStack t (⟨inv.method, .running inv.start⟩ :: s.stack t)) := by
      simp [step, advance, hframe]
    rw [onEnter, if_neg henter]
    exact .head rfl hcall (.head rfl hread .refl)

/-- The steps of `mergeRecord`. -/
theorem runs_mergeRecord {method : MethodIdentifier} {x : Sample} (hfree : s.monitor = none)
    (hstack : s.stack t = ⟨method, .exiting x⟩ :: rest) :
    Trace.Runs (step cfg name) (fun _ a => a.thread = some t) s
      ((s.after name t [.mergeRecord x]).setStack t
        (afterRecord cfg ⟨method, .exiting x⟩ rest)) := by
  cases hrec : s.manager.recording with
  | false =>
      have hsame : s.after name t [.mergeRecord x] = s := by
        simp [after, TimeCostManager.run, TimeCostManager.exec, TimeCostManager.mergeRecord, hrec]
      rw [hsame]
      exact .head rfl (step_refuse cfg name hrec hfree hstack) .refl
  | true =>
      have hlock : step cfg name s (.advance t 0 (fun _ => 0))
          = some ({ s with monitor := some t }.setStack t (⟨method, .merging x⟩ :: rest)) := by
        rw [step, hstack]
        simp only [advance, hfree, hrec]
        rfl
      refine .head rfl hlock (.head (a := .advance t 0 (fun _ => 0)) rfl ?_ .refl)
      rw [step, stack_setStack_self]
      simp only [advance, after, List.map, TimeCostManager.run, TimeCostManager.exec,
        TimeCostManager.mergeRecord, hrec, setStack, Function.update_idem, hfree]
      rfl

/-- The end of a call that returns. -/
theorem runs_onExit (hfree : s.monitor = none)
    (hstack : s.stack t = ⟨inv.method, .running inv.start⟩ :: rest) :
    Trace.Runs (step cfg name) (fun _ a => a.thread = some t) s
      ((s.after name t (onExit cfg inv)).setStack t rest) := by
  have hret : step cfg name s (.ret t inv.stackTrace inv.end)
      = some (s.setStack t (⟨inv.method, .exiting (inv.sample cfg)⟩ :: rest)) := by
    simp [step, hstack, Invocation.sample]
  have hrecord : Trace.Runs (step cfg name) (fun _ a => a.thread = some t) s
      ((s.after name t [.mergeRecord (inv.sample cfg)]).setStack t
        (afterRecord cfg ⟨inv.method, .exiting (inv.sample cfg)⟩ rest)) := by
    refine .head rfl hret ?_
    have hmerge := runs_mergeRecord cfg name
      (s := s.setStack t (⟨inv.method, .exiting (inv.sample cfg)⟩ :: rest)) hfree
      (stack_setStack_self ..)
    simpa [after, setStack] using hmerge
  by_cases henter : inv.isEnter cfg = true
  · have hframe : (⟨inv.method, .exiting (inv.sample cfg)⟩ : Frame).isEnter cfg = true := henter
    rw [afterRecord, if_pos hframe] at hrecord
    refine hrecord.tail (a := .advance t 0 inv.currentTimeMillis) rfl ?_
    rw [onExit, if_pos henter, step, stack_setStack_self]
    simp [advance, hfree, after, TimeCostManager.run, TimeCostManager.exec, setStack]
  · have hframe : (⟨inv.method, .exiting (inv.sample cfg)⟩ : Frame).isEnter cfg ≠ true := henter
    rw [afterRecord, if_neg hframe] at hrecord
    rw [onExit, if_neg henter]
    simpa [after, setStack] using hrecord

/-- **One thread alone.** The steps that the calls of a thread are cut into execute the operations
    of the calls when no other thread gets in between. -/
theorem runs_calls (calls : Calls) (hphase : s.phase = .instrumented)
    (hfree : s.monitor = none) (hbody : inBody (s.stack t) = true) :
    Trace.Runs (step cfg name) (fun _ a => a.thread = some t) s
      (s.after name t (calls.operations cfg)) := by
  induction calls generalizing s with
  | nil => exact .refl
  | call inv nested next ihn ihx =>
      have hbegin := runs_onEnter cfg name inv hphase hbody
      have hnested := hbegin.trans (ihn hphase hfree (by rw [stack_setStack_self]; rfl))
      -- the call ends by its exit advice or by an exception
      have hends : Trace.Runs (step cfg name) (fun _ a => a.thread = some t) s
          (s.after name t (onEnter cfg inv ++ nested.operations cfg ++
            (if inv.normal then onExit cfg inv else []))) := by
        by_cases hnormal : inv.normal = true
        · rw [if_pos hnormal]
          have hexit := hnested.trans (runs_onExit cfg name hfree (stack_setStack_self ..))
          rw [after_append, after_append]
          simpa [after, setStack] using hexit
        · rw [if_neg hnormal, List.append_nil, after_append]
          exact hnested.tail (a := .throw t) rfl (by simp [step, after, setStack])
      rw [Calls.operations, after_append]
      exact hends.trans (ihx hphase hfree hbody)

end

/-! ## The detach -/

/-- **When recording stays off after the detach.** In every run, and however its threads are
    interleaved with the detach: after `canRecord(false)` no step of any thread changes `costMap` or
    turns recording on iff the calls in flight were quiet when it was executed. -/
theorem staysOff_iff_quiet (cfg : GlobalConfig) (name : Nat → String) (manager : TimeCostManager)
    {s s₁ : InFlight} (hrun : Trace.Runs (step cfg name) (fun _ _ => True) (initial manager) s)
    (hstop : step cfg name s .stop = some s₁) : StaysOff cfg name s₁ ↔ Quiet cfg s := by
  have hinv : Inv cfg s₁ :=
    (hrun.invariant (fun h _ hstep => h.step hstep) (Inv.initial manager)).step hstop
  rw [step] at hstop
  split at hstop <;> cases hstop
  constructor
  · intro hstays
    have hquiet := hinv.quiet_of_staysOff rfl hstays
    exact ⟨hquiet.calm, hquiet.rolls⟩
  · intro hquiet s' hrun'
    have hsilent := hrun'.invariant (fun h _ hstep => Silent.step h hstep)
      ⟨hinv, rfl, rfl, rfl, ⟨hquiet.calm, hquiet.rolls⟩⟩
    exact ⟨hsilent.same, hsilent.off⟩

section Late

/-- The entry call has tested that it is the entry when the classes are restored. -/
def lateOpening : List FlightAction :=
  [.call 0 ⟨"p.A", "run", "()V"⟩, .advance 0 0 (fun _ => 0), .restore]

/-- The entry call is in its body, with nothing recorded, when the classes are restored. -/
def inBodyOfEntry : List FlightAction :=
  [.call 0 ⟨"p.A", "run", "()V"⟩, .advance 0 0 (fun _ => 0), .advance 0 0 (fun _ => 0), .restore]

/-- An entry call that was at `canRecord(true)` during the detach turns recording on afterwards. -/
theorem late_opening_turns_on : ∃ s s₁,
    Trace.execute (step enterRun fun _ => "main") (initial .initial) lateOpening = some s ∧
      step enterRun (fun _ => "main") s .stop = some s₁ ∧
      ¬StaysOff enterRun (fun _ => "main") s₁ := by
  refine ⟨_, _, rfl, rfl, fun hstays => ?_⟩
  have hlate := hstays _ (.head (a := .advance 0 0 fun _ => 0) trivial rfl .refl)
  exact absurd hlate.2 (by decide)

/-- An entry call that was in its body, with nothing pending, ends without a trace. -/
theorem entry_in_body_stays_off : ∃ s s₁,
    Trace.execute (step enterRun fun _ => "main") (initial .initial) inBodyOfEntry = some s ∧
      step enterRun (fun _ => "main") s .stop = some s₁ ∧
      StaysOff enterRun (fun _ => "main") s₁ := by
  have hrun :
      Trace.execute (step enterRun fun _ => "main") (initial .initial) inBodyOfEntry = some _ := rfl
  refine ⟨_, _, hrun, rfl, (staysOff_iff_quiet enterRun (fun _ => "main") .initial
    (Trace.runs_of_execute hrun) rfl).2 ⟨?_, Or.inr (fun _ => rfl)⟩⟩
  intro t f hf
  rcases t with _ | t
  · obtain rfl := List.mem_singleton.1 hf
    exact ⟨by simp, by simp, by simp⟩
  · cases hf

end Late

end InFlight

end Jma
