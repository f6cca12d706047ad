import Jma.Core.TimeCostRecord
import Jma.Lib.AssocMap

set_option autoImplicit false

/-! # `TimeCostManager`

The store between the advice and the reports. Every method below is `synchronized` or a single
volatile write, so each is one atomic operation; `Operation` names them and `run` executes a
sequence of them, by any threads in any order. -/

namespace Jma

structure TimeCostManager where
  /-- Rolled chains, by thread name and clock reading. -/
  backup : AList fun _ : String => AList fun _ : Int => TimeCostChain
  /-- Pending chains, by thread name. -/
  costMap : AList fun _ : String => TimeCostChain
  /-- The field `canRecord`: whether `mergeRecord` accepts. -/
  recording : Bool
  /-- An `AtomicInteger`. -/
  seq : BitVec 32

/-- One block of a report: the chain of `threadName`, printed under a header that carries the name
    of the thread that rolls and the current `seq`. -/
structure Block where
  threadName : String
  headerName : String
  headerSeq : BitVec 32
  recordList : List TimeCostRecord
  deriving DecidableEq, Repr

/-- `methodAndTraceEq`: in spite of its name the trace is not compared. -/
def methodAndTraceEq (record costRecord : TimeCostRecord) : Bool :=
  record.method == costRecord.method

/-- The loop of `mergeRecord`: the first record of the same method takes the costs and the count;
    without one the record is appended. -/
def mergeInto (record : TimeCostRecord) : List TimeCostRecord → List TimeCostRecord
  | [] => [record]
  | costRecord :: rest =>
      if methodAndTraceEq record costRecord then
        { costRecord with
          costs := costRecord.costs ++ record.costs
          count := costRecord.count + record.count } :: rest
      else costRecord :: mergeInto record rest

/-- A merged record always shows: the loop changes the list. -/
theorem mergeInto_ne {record : TimeCostRecord} (h : record.costs ≠ [])
    (recordList : List TimeCostRecord) : mergeInto record recordList ≠ recordList := by
  induction recordList with
  | nil => exact List.cons_ne_nil _ _
  | cons costRecord rest ih =>
      intro heq
      rw [mergeInto] at heq
      split at heq
      · have hcosts := congrArg TimeCostRecord.costs (List.cons.inj heq).1
        exact h (List.append_right_eq_self.1 hcosts)
      · exact ih (List.cons.inj heq).2

namespace TimeCostManager

/-- The singleton as the class loader leaves it. -/
def initial : TimeCostManager := ⟨∅, ∅, false, 0⟩

/-- `canRecord(b)`. -/
def canRecord (m : TimeCostManager) (b : Bool) : TimeCostManager :=
  { m with seq := if b then m.seq + 1 else m.seq, recording := b }

/-- The part of `mergeRecord` behind the test of `canRecord`. -/
def store (m : TimeCostManager) (key : String) (record : TimeCostRecord) : TimeCostManager :=
  let chain := (m.costMap.lookup key).getD .empty
  { m with costMap := m.costMap.insert key ⟨mergeInto record chain.recordList⟩ }

/-- `mergeRecord(record)` by the thread named `key`. -/
def mergeRecord (m : TimeCostManager) (key : String) (record : TimeCostRecord) : TimeCostManager :=
  if !m.recording then m else m.store key record

/-- File a rolled chain under its thread and the clock reading. -/
def archive (backup : AList fun _ : String => AList fun _ : Int => TimeCostChain)
    (threadName : String) (currentTimeMillis : Int) (back : TimeCostChain) :
    AList fun _ : String => AList fun _ : Int => TimeCostChain :=
  let forThread := (backup.lookup threadName).getD ∅
  backup.insert threadName (forThread.insert currentTimeMillis back)

/-- The block printed for one entry of `costMap`; an empty chain prints nothing. -/
def block (m : TimeCostManager) (current threadName : String) (chain : TimeCostChain) :
    Option Block :=
  if chain.recordList.isEmpty then none
  else some ⟨threadName, current, m.seq, chain.recordList⟩

/-- `printAndRolling()` by the thread named `current`: every chain is archived and replaced by an
    empty one, and the non-empty ones are printed. `currentTimeMillis` is the reading taken while
    the chain of a thread is rolled. -/
def printAndRolling (m : TimeCostManager) (current : String) (currentTimeMillis : String → Int) :
    TimeCostManager × List Block :=
  ({ m with
     backup := m.costMap.entries.foldl
       (fun backup e => archive backup e.1 (currentTimeMillis e.1) e.2) m.backup
     costMap := AssocMap.mapVals (fun _ _ => .empty) m.costMap },
   m.costMap.entries.filterMap (fun e => m.block current e.1 e.2))

/-- The records pending for thread `t`. -/
def pending (m : TimeCostManager) (t : String) : List TimeCostRecord :=
  ((m.costMap.lookup t).getD .empty).recordList

end TimeCostManager

/-- The records that a roll prints for thread `t`, over all its blocks. -/
def printedFor (t : String) (blocks : List Block) : List TimeCostRecord :=
  (blocks.filter (fun b => b.threadName = t)).flatMap Block.recordList

/-! ## Operations and runs -/

/-- The atomic operations on the manager. A merged record is a fresh one from `AdviceUtil.record`,
    so it is given by its sample. -/
inductive Operation where
  | canRecord (b : Bool)
  | mergeRecord (s : Sample)
  | printAndRolling (currentTimeMillis : String → Int)

/-- Whether the operation is a roll. -/
def Operation.isRoll : Operation → Bool
  | .printAndRolling _ => true
  | _ => false

/-- An operation and the name of the thread that executes it. -/
structure Event where
  thread : String
  operation : Operation

namespace TimeCostManager

/-- Execute one operation; a roll also returns its blocks. -/
def exec (m : TimeCostManager) (e : Event) : TimeCostManager × List (List Block) :=
  match e.operation with
  | .canRecord b => (m.canRecord b, [])
  | .mergeRecord s => (m.mergeRecord e.thread s.toRecord, [])
  | .printAndRolling clock =>
      let rolled := m.printAndRolling e.thread clock
      (rolled.1, [rolled.2])

/-- Execute a sequence of operations: the final manager, and what each roll printed, in order. -/
def run (m : TimeCostManager) : List Event → TimeCostManager × List (List Block)
  | [] => (m, [])
  | e :: rest =>
      let first := m.exec e
      let last := first.1.run rest
      (last.1, first.2 ++ last.2)

theorem run_append (m : TimeCostManager) (es es' : List Event) :
    m.run (es ++ es')
      = (((m.run es).1.run es').1, (m.run es).2 ++ ((m.run es).1.run es').2) := by
  induction es generalizing m with
  | nil => rfl
  | cons e rest ih => simp only [List.cons_append, run, ih, List.append_assoc]

/-! ## What one operation does to the pending records -/

@[simp] theorem pending_initial (t : String) : initial.pending t = [] := rfl

@[simp] theorem pending_canRecord (m : TimeCostManager) (b : Bool) (t : String) :
    (m.canRecord b).pending t = m.pending t := rfl

@[simp] theorem recording_canRecord (m : TimeCostManager) (b : Bool) :
    (m.canRecord b).recording = b := rfl

@[simp] theorem recording_store (m : TimeCostManager) (key : String) (r : TimeCostRecord) :
    (m.store key r).recording = m.recording := rfl

theorem pending_store_self (m : TimeCostManager) (key : String) (r : TimeCostRecord) :
    (m.store key r).pending key = mergeInto r (m.pending key) := by
  simp [pending, store]

theorem pending_store_of_ne (m : TimeCostManager) {key t : String} (r : TimeCostRecord)
    (h : t ≠ key) : (m.store key r).pending t = m.pending t := by
  simp [pending, store, AList.lookup_insert_ne h]

@[simp] theorem recording_mergeRecord (m : TimeCostManager) (key : String) (r : TimeCostRecord) :
    (m.mergeRecord key r).recording = m.recording := by
  unfold mergeRecord
  split <;> rfl

@[simp] theorem recording_printAndRolling (m : TimeCostManager) (current : String)
    (clock : String → Int) : (m.printAndRolling current clock).1.recording = m.recording := rfl

/-- After a roll nothing is pending. -/
@[simp] theorem pending_printAndRolling (m : TimeCostManager) (current : String)
    (clock : String → Int) (t : String) : (m.printAndRolling current clock).1.pending t = [] := by
  simp only [pending, printAndRolling, AssocMap.lookup_mapVals]
  cases m.costMap.lookup t <;> rfl

/-- A roll with nothing pending leaves the chains as they are. -/
theorem costMap_printAndRolling {m : TimeCostManager} (h : ∀ key, m.pending key = [])
    (current : String) (clock : String → Int) :
    (m.printAndRolling current clock).1.costMap = m.costMap := by
  show AssocMap.mapVals (fun _ _ => .empty) m.costMap = m.costMap
  refine AssocMap.mapVals_eq_self (fun key chain hlookup => ?_)
  have hchain := h key
  rw [pending, hlookup] at hchain
  obtain ⟨recordList⟩ := chain
  exact congrArg TimeCostChain.mk hchain.symm

theorem printedFor_append (t : String) (bs bs' : List Block) :
    printedFor t (bs ++ bs') = printedFor t bs ++ printedFor t bs' := by
  simp [printedFor]

theorem printedFor_block (m : TimeCostManager) (current threadName : String) (chain : TimeCostChain)
    (t : String) :
    printedFor t (m.block current threadName chain).toList
      = if threadName = t then chain.recordList else [] := by
  obtain ⟨records⟩ := chain
  cases records with
  | nil => simp [block, printedFor]
  | cons r rest => by_cases ht : threadName = t <;> simp [block, printedFor, ht]

/-- A roll prints for every thread exactly what was pending for it. -/
theorem printedFor_printAndRolling (m : TimeCostManager) (current : String) (clock : String → Int)
    (t : String) : printedFor t (m.printAndRolling current clock).2 = m.pending t := by
  have hentries : ∀ entries : List (Σ _ : String, TimeCostChain),
      printedFor t (entries.filterMap (fun e => m.block current e.1 e.2))
        = (entries.filterMap
            (fun e => if e.1 = t then some e.2.recordList else none)).flatten := by
    intro entries
    induction entries with
    | nil => rfl
    | cons e rest ih =>
        have hcons : (e :: rest).filterMap (fun e => m.block current e.1 e.2)
            = (m.block current e.1 e.2).toList
              ++ rest.filterMap (fun e => m.block current e.1 e.2) := by
          rw [List.filterMap_cons]
          cases m.block current e.1 e.2 <;> rfl
        rw [hcons, printedFor_append, printedFor_block, ih, List.filterMap_cons]
        by_cases ht : e.1 = t <;> simp [ht]
  rw [printAndRolling, hentries, AssocMap.filterMap_entries m.costMap t (fun _ c => c.recordList)]
  unfold pending
  cases m.costMap.lookup t <;> simp [TimeCostChain.empty]

end TimeCostManager

end Jma
