import Jma.Advice.Threads
import Jma.Report.Messages

set_option autoImplicit false

/-! # Reporting, step by step

`mergeRecord` and `printAndRolling` hold the monitor of the manager; `canRecord` does not, and takes
two steps. A roll sends its lines one after the other while it holds the monitor, and a thread that
posts a message waits for the answer of the boot. Here every one of these is a step of its own, and
any thread may take the next one. -/

namespace Jma

open HttpTransUtil

/-- What a thread of the target JVM does in its advice. -/
inductive Act where
  | operation (o : Operation)
  /-- `sendSuccess(body)`, outside the monitor. -/
  | notice (body : String)

/-- The operations among what a thread does. -/
def operationsIn (acts : List Act) : List Operation :=
  acts.filterMap (fun act =>
    match act with
    | .operation o => some o
    | .notice _ => none)

/-- The two advices with their notices, whose texts end with a date. -/
def MethodTimeCostAdvice.onEnterActs (cfg : GlobalConfig) (date : String) (inv : Invocation) :
    List Act :=
  if inv.isEnter cfg then [.operation (.canRecord true), .notice ("method called at " ++ date)]
  else []

def MethodTimeCostAdvice.onExitActs (cfg : GlobalConfig) (date : String) (inv : Invocation) :
    List Act :=
  .operation (.mergeRecord (inv.sample cfg)) ::
    if inv.isEnter cfg then
      [.notice ("method  ended at " ++ date ++ " ,wait analyse..."),
        .operation (.printAndRolling inv.currentTimeMillis)]
    else []

/-- What a thread does in the advice of its calls; `called` and `ended` are the dates of a call. -/
def Calls.acts (cfg : GlobalConfig) (called ended : Invocation → String) : Calls → List Act
  | nil => []
  | call inv nested next =>
      MethodTimeCostAdvice.onEnterActs cfg (called inv) inv ++ nested.acts cfg called ended ++
        (if inv.normal then MethodTimeCostAdvice.onExitActs cfg (ended inv) inv else []) ++
          next.acts cfg called ended

/-- The notices aside, it is what the thread does to the manager. -/
theorem operationsIn_acts (cfg : GlobalConfig) (called ended : Invocation → String)
    (calls : Calls) : operationsIn (calls.acts cfg called ended) = calls.operations cfg := by
  have henter : ∀ (date : String) (inv : Invocation),
      operationsIn (MethodTimeCostAdvice.onEnterActs cfg date inv)
        = MethodTimeCostAdvice.onEnter cfg inv := by
    intro date inv
    unfold MethodTimeCostAdvice.onEnterActs MethodTimeCostAdvice.onEnter
    split <;> rfl
  have hexit : ∀ (date : String) (inv : Invocation),
      operationsIn (MethodTimeCostAdvice.onExitActs cfg date inv)
        = MethodTimeCostAdvice.onExit cfg inv := by
    intro date inv
    unfold MethodTimeCostAdvice.onExitActs MethodTimeCostAdvice.onExit
    split <;> rfl
  induction calls with
  | nil => rfl
  | call inv nested next ihn ihx =>
      have happend : ∀ as bs : List Act,
          operationsIn (as ++ bs) = operationsIn as ++ operationsIn bs :=
        fun _ _ => List.filterMap_append
      rw [Calls.acts, Calls.operations, happend, happend, happend, henter, ihn, ihx]
      by_cases hnormal : inv.normal = true
      · rw [if_pos hnormal, if_pos hnormal, hexit]
      · rw [if_neg hnormal, if_neg hnormal]
        rfl

/-- Where a thread is in the first thing it has to do. -/
inductive ReportPc where
  | ready
  /-- In `canRecord(true)`, between `getAndAdd` and the write of the flag. -/
  | flagging
  /-- In `mergeRecord`, before the test of the flag. -/
  | merging (s : Sample)
  /-- In `mergeRecord`, past the test. -/
  | storing (s : Sample)
  /-- In `printAndRolling`: the entries of `costMap` to come, the lines still to be sent for the
      last one, and the blocks printed so far. -/
  | rolling (entries : List (Σ _ : String, TimeCostChain)) (currentTimeMillis : String → Int)
      (lines : List TransferMessage) (blocks : List Block)

structure Worker where
  todo : List Act
  pc : ReportPc
  /-- The message the thread waits for, and whether the boot has handled it. -/
  inFlight : Option (TransferMessage × Bool)

structure Reporting where
  manager : TimeCostManager
  /-- The thread that holds the monitor. -/
  monitor : Option Nat
  workers : Nat → Worker
  /-- The messages that the boot has handled, in order. -/
  console : List TransferMessage
  /-- The operations in the order in which they take effect. No step reads it. -/
  history : List ThreadStep
  /-- The blocks of the rolls that are over. No step reads them. -/
  rolls : List (List Block)
  /-- How many calls of `canRecord(true)` have begun. No step reads it. -/
  begun : Nat

inductive ReportAction where
  /-- The next step of a thread that does not wait for an answer. -/
  | advance (t : Nat)
  /-- The boot handles the message of a thread. -/
  | handle (t : Nat)
  /-- The answer reaches the thread. -/
  | answer (t : Nat)
  /-- The post fails; the exception is caught in `send`. -/
  | fail (t : Nat)

namespace Reporting

def initial (programs : Nat → List Act) : Reporting where
  manager := .initial
  monitor := none
  workers := fun t => ⟨programs t, .ready, none⟩
  console := []
  history := []
  rolls := []
  begun := 0

def setWorker (s : Reporting) (t : Nat) (w : Worker) : Reporting :=
  { s with workers := Function.update s.workers t w }

/-- The operation takes effect. -/
def commit (s : Reporting) (t : Nat) (o : Operation) : Reporting :=
  { s with history := s.history ++ [(t, o)] }

/-- One entry of `costMap` in a roll: the chain is archived and replaced by an empty one. -/
def rollEntry (m : TimeCostManager) (currentTimeMillis : String → Int)
    (e : Σ _ : String, TimeCostChain) : TimeCostManager :=
  { m with
    backup := TimeCostManager.archive m.backup e.1 (currentTimeMillis e.1) e.2
    costMap := AssocMap.mapVals (fun key chain => if key = e.1 then .empty else chain) m.costMap }

/-- The next step of thread `t`, which is at `w`. -/
def advance (name : Nat → String) (s : Reporting) (t : Nat) (w : Worker) : Option Reporting :=
  match w.pc with
  | .ready =>
      match w.todo with
      | [] => none
      | .notice body :: rest =>
          some (s.setWorker t ⟨rest, .ready, some (sendSuccess body, false)⟩)
      | .operation (.canRecord true) :: _ =>
          some ({ s with
            manager := { s.manager with seq := s.manager.seq + 1 }
            begun := s.begun + 1 }.setWorker t ⟨w.todo, .flagging, none⟩)
      | .operation (.canRecord false) :: rest =>
          some (({ s with manager := s.manager.canRecord false }.commit t
            (.canRecord false)).setWorker t ⟨rest, .ready, none⟩)
      | .operation (.mergeRecord x) :: _ =>
          if s.monitor.isSome then none
          else some ({ s with monitor := some t }.setWorker t ⟨w.todo, .merging x, none⟩)
      | .operation (.printAndRolling currentTimeMillis) :: _ =>
          if s.monitor.isSome then none
          else some (({ s with monitor := some t }.commit t
            (.printAndRolling currentTimeMillis)).setWorker t
              ⟨w.todo, .rolling s.manager.costMap.entries currentTimeMillis [] [], none⟩)
  | .flagging =>
      some (({ s with manager := { s.manager with recording := true } }.commit t
        (.canRecord true)).setWorker t ⟨w.todo.tail, .ready, none⟩)
  | .merging x =>
      if !s.manager.recording then
        some (({ s with monitor := none }.commit t (.mergeRecord x)).setWorker t
          ⟨w.todo.tail, .ready, none⟩)
      else some ((s.commit t (.mergeRecord x)).setWorker t ⟨w.todo, .storing x, none⟩)
  | .storing x =>
      some ({ s with
        manager := s.manager.store (name t) x.toRecord, monitor := none }.setWorker t
          ⟨w.todo.tail, .ready, none⟩)
  | .rolling entries currentTimeMillis (line :: lines) blocks =>
      some (s.setWorker t
        ⟨w.todo, .rolling entries currentTimeMillis lines blocks, some (line, false)⟩)
  | .rolling (e :: entries) currentTimeMillis [] blocks =>
      -- the header takes the number that `seq` has now
      let printed := (s.manager.block (name t) e.1 e.2).toList
      some ({ s with manager := rollEntry s.manager currentTimeMillis e }.setWorker t
        ⟨w.todo, .rolling entries currentTimeMillis (printed.flatMap Block.messages)
          (blocks ++ printed), none⟩)
  | .rolling [] _ [] blocks =>
      some ({ s with monitor := none, rolls := s.rolls ++ [blocks] }.setWorker t
        ⟨w.todo.tail, .ready, none⟩)

/-- One step, if it is possible. -/
def step (name : Nat → String) (s : Reporting) : ReportAction → Option Reporting
  | .advance t =>
      match (s.workers t).inFlight with
      | none => s.advance name t (s.workers t)
      | some _ => none
  | .handle t =>
      match (s.workers t).inFlight with
      | some (line, false) =>
          some ({ s with console := s.console ++ [line] }.setWorker t
            { s.workers t with inFlight := some (line, true) })
      | _ => none
  | .answer t =>
      match (s.workers t).inFlight with
      | some (_, true) => some (s.setWorker t { s.workers t with inFlight := none })
      | _ => none
  | .fail t =>
      match (s.workers t).inFlight with
      | some _ => some (s.setWorker t { s.workers t with inFlight := none })
      | none => none

/-! ## What one step can do -/

variable {name : Nat → String} {s s' : Reporting} {t : Nat}

/-- The steps of a thread that does not wait for an answer, with what each needs. -/
inductive Advances (name : Nat → String) (s : Reporting) (t : Nat) : Worker → Reporting → Prop
  | notice {rest : List Act} (body : String) :
      Advances name s t ⟨.notice body :: rest, .ready, none⟩
        (s.setWorker t ⟨rest, .ready, some (sendSuccess body, false)⟩)
  | count {rest : List Act} :
      Advances name s t ⟨.operation (.canRecord true) :: rest, .ready, none⟩
        ({ s with
          manager := { s.manager with seq := s.manager.seq + 1 }
          begun := s.begun + 1 }.setWorker t
            ⟨.operation (.canRecord true) :: rest, .flagging, none⟩)
  | close {rest : List Act} :
      Advances name s t ⟨.operation (.canRecord false) :: rest, .ready, none⟩
        (({ s with manager := s.manager.canRecord false }.commit t (.canRecord false)).setWorker t
          ⟨rest, .ready, none⟩)
  | enter {rest : List Act} {x : Sample} (hfree : s.monitor = none) :
      Advances name s t ⟨.operation (.mergeRecord x) :: rest, .ready, none⟩
        ({ s with monitor := some t }.setWorker t
          ⟨.operation (.mergeRecord x) :: rest, .merging x, none⟩)
  | roll {rest : List Act} {clock : String → Int} (hfree : s.monitor = none) :
      Advances name s t ⟨.operation (.printAndRolling clock) :: rest, .ready, none⟩
        (({ s with monitor := some t }.commit t (.printAndRolling clock)).setWorker t
          ⟨.operation (.printAndRolling clock) :: rest,
            .rolling s.manager.costMap.entries clock [] [], none⟩)
  | flag {todo : List Act} :
      Advances name s t ⟨todo, .flagging, none⟩
        (({ s with manager := { s.manager with recording := true } }.commit t
          (.canRecord true)).setWorker t ⟨todo.tail, .ready, none⟩)
  | refuse {todo : List Act} {x : Sample} (hoff : s.manager.recording = false) :
      Advances name s t ⟨todo, .merging x, none⟩
        (({ s with monitor := none }.commit t (.mergeRecord x)).setWorker t
          ⟨todo.tail, .ready, none⟩)
  | pass {todo : List Act} {x : Sample} (hon : s.manager.recording = true) :
      Advances name s t ⟨todo, .merging x, none⟩
        ((s.commit t (.mergeRecord x)).setWorker t ⟨todo, .storing x, none⟩)
  | store {todo : List Act} {x : Sample} :
      Advances name s t ⟨todo, .storing x, none⟩
        ({ s with
          manager := s.manager.store (name t) x.toRecord, monitor := none }.setWorker t
            ⟨todo.tail, .ready, none⟩)
  | send {todo : List Act} {entries : List (Σ _ : String, TimeCostChain)} {clock : String → Int}
      {line : TransferMessage} {lines : List TransferMessage} {blocks : List Block} :
      Advances name s t ⟨todo, .rolling entries clock (line :: lines) blocks, none⟩
        (s.setWorker t ⟨todo, .rolling entries clock lines blocks, some (line, false)⟩)
  | next {todo : List Act} {e : Σ _ : String, TimeCostChain}
      {entries : List (Σ _ : String, TimeCostChain)} {clock : String → Int} {blocks : List Block} :
      Advances name s t ⟨todo, .rolling (e :: entries) clock [] blocks, none⟩
        ({ s with manager := rollEntry s.manager clock e }.setWorker t
          ⟨todo, .rolling entries clock
            ((s.manager.block (name t) e.1 e.2).toList.flatMap Block.messages)
            (blocks ++ (s.manager.block (name t) e.1 e.2).toList), none⟩)
  | leave {todo : List Act} {clock : String → Int} {blocks : List Block} :
      Advances name s t ⟨todo, .rolling [] clock [] blocks, none⟩
        ({ s with monitor := none, rolls := s.rolls ++ [blocks] }.setWorker t
          ⟨todo.tail, .ready, none⟩)

theorem advances {todo : List Act} {pc : ReportPc}
    (h : s.advance name t ⟨todo, pc, none⟩ = some s') : Advances name s t ⟨todo, pc, none⟩ s' := by
  have hfree : ∀ {o : Option Reporting}, (if s.monitor.isSome then none else o) = some s' →
      s.monitor = none ∧ o = some s' := by
    intro o ho
    cases hm : s.monitor <;> simp_all
  cases pc with
  | ready =>
      cases todo with
      | nil => cases h
      | cons act rest =>
          cases act with
          | notice body =>
              cases h
              exact .notice body
          | operation o =>
              cases o with
              | canRecord b =>
                  cases b with
                  | true =>
                      cases h
                      exact .count
                  | false =>
                      cases h
                      exact .close
              | mergeRecord x =>
                  obtain ⟨hmon, h⟩ := hfree h
                  cases h
                  exact .enter hmon
              | printAndRolling clock =>
                  obtain ⟨hmon, h⟩ := hfree h
                  cases h
                  exact .roll hmon
  | flagging =>
      cases h
      exact .flag
  | merging x =>
      cases hrec : s.manager.recording with
      | false =>
          simp only [advance, hrec] at h
          cases h
          exact .refuse hrec
      | true =>
          simp only [advance, hrec] at h
          cases h
          exact .pass hrec
  | storing x =>
      cases h
      exact .store
  | rolling entries clock lines blocks =>
      cases lines with
      | cons line lines =>
          cases h
          exact .send
      | nil =>
          cases entries with
          | cons e entries =>
              cases h
              exact .next
          | nil =>
              cases h
              exact .leave

/-- A step of a run: a thread advances, or something happens to the message it waits for. -/
theorem step_cases {a : ReportAction} (h : step name s a = some s') :
    (∃ t todo pc, s.workers t = ⟨todo, pc, none⟩ ∧ Advances name s t ⟨todo, pc, none⟩ s') ∨
    (∃ t todo pc line, s.workers t = ⟨todo, pc, some (line, false)⟩ ∧
      s' = { s with console := s.console ++ [line] }.setWorker t ⟨todo, pc, some (line, true)⟩) ∨
    (∃ t todo pc line, s.workers t = ⟨todo, pc, some (line, true)⟩ ∧
      s' = s.setWorker t ⟨todo, pc, none⟩) ∨
    (∃ t todo pc line, a = .fail t ∧ s.workers t = ⟨todo, pc, some (line, false)⟩ ∧
      s' = s.setWorker t ⟨todo, pc, none⟩) := by
  cases a with
  | advance t =>
      rw [step] at h
      rcases hw : s.workers t with ⟨todo, pc, inFlight⟩
      rw [hw] at h
      cases inFlight with
      | none => exact Or.inl ⟨t, todo, pc, hw, advances h⟩
      | some message => cases h
  | handle t =>
      rw [step] at h
      rcases hw : s.workers t with ⟨todo, pc, inFlight⟩
      rw [hw] at h
      rcases inFlight with _ | ⟨line, handled⟩
      · cases h
      · cases handled with
        | false =>
            cases h
            exact Or.inr (Or.inl ⟨t, todo, pc, line, hw, rfl⟩)
        | true => cases h
  | answer t =>
      rw [step] at h
      rcases hw : s.workers t with ⟨todo, pc, inFlight⟩
      rw [hw] at h
      rcases inFlight with _ | ⟨line, handled⟩
      · cases h
      · cases handled with
        | false => cases h
        | true =>
            cases h
            exact Or.inr (Or.inr (Or.inl ⟨t, todo, pc, line, hw, rfl⟩))
  | fail t =>
      rw [step] at h
      rcases hw : s.workers t with ⟨todo, pc, inFlight⟩
      rw [hw] at h
      rcases inFlight with _ | ⟨line, handled⟩
      · cases h
      · cases h
        cases handled with
        | false => exact Or.inr (Or.inr (Or.inr ⟨t, todo, pc, line, rfl, hw, rfl⟩))
        | true => exact Or.inr (Or.inr (Or.inl ⟨t, todo, pc, line, hw, rfl⟩))

end Reporting

end Jma
