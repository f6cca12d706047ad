import Jma.Advice.CallTree

set_option autoImplicit false

/-! # What the report of an entry call covers

One thread runs any sequence of calls. The flag is opened by the first entry call and never closed
by the advice, and a roll prints whatever is pending. So the report of an entry call is exact only
if nothing was pending when it began and nothing rolled the chain in between: `report_exact_iff`. -/

namespace Jma

open MethodTimeCostAdvice

variable (cfg : GlobalConfig) (t : String)

/-- The operations of thread `t` as events. -/
def eventsOf (operations : List Operation) : List Event := operations.map (Event.mk t)

@[simp] theorem eventsOf_append (os os' : List Operation) :
    eventsOf t (os ++ os') = eventsOf t os ++ eventsOf t os' := List.map_append

/-! ## The log along a sequence of calls -/

theorem SampleLog.run_append (log : SampleLog) (es es' : List Event) :
    log.run t (es ++ es') = (log.run t es).run t es' := List.foldl_append

theorem run_onEnter (inv : Invocation) {log : SampleLog} (hrec : log.recording = true) :
    log.run t (eventsOf t (onEnter cfg inv)) = log := by
  obtain ⟨recording, rolled, current⟩ := log
  subst hrec
  unfold onEnter
  split <;> rfl

/-- The exit of a call with the flag on: the sample is added, and an entry rolls the piece. -/
theorem run_onExit (inv : Invocation) {log : SampleLog} (hrec : log.recording = true) :
    log.run t (eventsOf t (onExit cfg inv))
      = if inv.isEnter cfg then ⟨true, log.rolled ++ [log.current ++ [inv.sample cfg]], []⟩
        else ⟨true, log.rolled, log.current ++ [inv.sample cfg]⟩ := by
  obtain ⟨recording, rolled, current⟩ := log
  subst hrec
  unfold onExit
  split <;> simp [eventsOf, SampleLog.run, SampleLog.step]

/-- **A sequence of calls with the flag on.** Unless an entry call ends in it, the samples of the
    calls are appended; if one does, what is pending afterwards is less than these samples. -/
theorem run_calls (calls : Calls) (log : SampleLog) (hrec : log.recording = true) :
    (log.run t (eventsOf t (calls.operations cfg))).recording = true ∧
      (calls.hasRoll cfg = false →
        (log.run t (eventsOf t (calls.operations cfg))).current
          = log.current ++ calls.samples cfg) ∧
      (calls.hasRoll cfg = true →
        (log.run t (eventsOf t (calls.operations cfg))).current.length
          < (calls.samples cfg).length) := by
  induction calls generalizing log with
  | nil =>
      exact ⟨hrec, fun _ => (List.append_nil _).symm, fun h => absurd h (by simp [Calls.hasRoll])⟩
  | call inv nested next ihn ihx =>
      obtain ⟨hrecN, hkeepN, hlessN⟩ := ihn log hrec
      set logN := log.run t (eventsOf t (nested.operations cfg)) with hlogN
      -- the log when `inv` has ended
      set logE := logN.run t (eventsOf t (if inv.normal then onExit cfg inv else [])) with hlogE
      have hsplit : log.run t (eventsOf t ((Calls.call inv nested next).operations cfg))
          = logE.run t (eventsOf t (next.operations cfg)) := by
        simp only [Calls.operations, eventsOf_append, SampleLog.run_append,
          run_onEnter cfg t inv hrec]
        rw [← hlogN, ← hlogE]
      have hend : (inv.isEnter cfg && inv.normal) = false →
          logE.current = logN.current ++ (if inv.normal then [inv.sample cfg] else []) := by
        intro hno
        rw [hlogE]
        by_cases hnormal : inv.normal = true
        · have henter : ¬ inv.isEnter cfg = true := by simpa [hnormal] using hno
          rw [if_pos hnormal, if_pos hnormal, run_onExit cfg t inv hrecN, if_neg henter]
        · rw [if_neg hnormal, if_neg hnormal, List.append_nil]
          rfl
      have hrolls : (inv.isEnter cfg && inv.normal) = true → logE.current = [] := by
        intro hyes
        obtain ⟨henter, hnormal⟩ := Bool.and_eq_true_iff.1 hyes
        rw [hlogE, if_pos hnormal, run_onExit cfg t inv hrecN, if_pos henter]
      have hrecE : logE.recording = true := by
        rw [hlogE]
        split
        · rw [run_onExit cfg t inv hrecN]
          split <;> rfl
        · exact hrecN
      obtain ⟨hrecX, hkeepX, hlessX⟩ := ihx logE hrecE
      rw [hsplit]
      refine ⟨hrecX, fun hno => ?_, fun hyes => ?_⟩
      · simp only [Calls.hasRoll, Bool.or_eq_false_iff] at hno
        obtain ⟨⟨hinv, hnested⟩, hnext⟩ := hno
        rw [hkeepX hnext, hend hinv, hkeepN hnested]
        simp only [Calls.samples, List.append_assoc]
      · simp only [Calls.samples, List.length_append]
        by_cases hnext : next.hasRoll cfg = true
        · have := hlessX hnext
          omega
        · have hkeep := hkeepX (by simpa using hnext)
          rw [hkeep, List.length_append]
          by_cases hinv : (inv.isEnter cfg && inv.normal) = true
          · obtain ⟨-, hnormal⟩ := Bool.and_eq_true_iff.1 hinv
            rw [hrolls hinv, if_pos hnormal]
            simp
          · have hnested : nested.hasRoll cfg = true := by
              simpa [Calls.hasRoll, hinv, hnext] using hyes
            have := hlessN hnested
            rw [hend (by simpa using hinv), List.length_append]
            omega

/-! ## The report -/

/-- The records of thread `t` that the last roll of a run prints, the run being `before` and then
    the call of `inv`. -/
def report (before : List Operation) (inv : Invocation) (nested : Calls) : List TimeCostRecord :=
  ((TimeCostManager.initial.run
      (eventsOf t (before ++ (Calls.call inv nested .nil).operations cfg))).2.getLast?.map
    (printedFor t)).getD []

/-- Every sample taken while the flag was on has been rolled: a call that ends normally after an
    entry call has begun is followed by the normal end of an entry call. -/
def NothingPending (before : List Operation) : Prop :=
  ∀ p s q, before = p ++ .mergeRecord s :: q → .canRecord true ∈ p →
    ∃ o ∈ q, o.isRoll = true

/-- `NothingPending` is what its name says. -/
theorem current_eq_nil_iff_nothingPending {before : List Operation}
    (hopen : ∀ o ∈ before, o ≠ .canRecord false) :
    (logOf t (eventsOf t before)).current = [] ↔ NothingPending before := by
  have hrec : ∀ p q : List Operation, before = p ++ q →
      ((logOf t (eventsOf t p)).recording = true ↔ .canRecord true ∈ p) := by
    intro p q hpq
    rw [recording_logOf_iff]
    · simp [eventsOf]
    · intro e he hoff
      obtain ⟨o, ho, rfl⟩ := List.mem_map.1 he
      exact hopen o (hpq ▸ List.mem_append_left _ ho) hoff
  rw [current_logOf_eq_nil_iff]
  constructor
  · intro h p s q hpq hcan
    obtain ⟨e, he, hroll⟩ := h (eventsOf t p) s (eventsOf t q) (by simp [hpq, eventsOf])
      ((hrec p _ hpq).2 hcan)
    obtain ⟨o, ho, rfl⟩ := List.mem_map.1 he
    exact ⟨o, ho, hroll⟩
  · intro h p s q hpq hon
    obtain ⟨p', q₀, hbefore, rfl, hq₀⟩ := List.map_eq_append_iff.1 hpq
    obtain ⟨o, q', rfl, ho, rfl⟩ := List.map_eq_cons_iff.1 hq₀
    obtain rfl : o = .mergeRecord s := congrArg Event.operation ho
    obtain ⟨o', ho', hroll⟩ := h p' s q' hbefore ((hrec p' _ hbefore).1 hon)
    exact ⟨⟨t, o'⟩, List.mem_map.2 ⟨o', ho', rfl⟩, hroll⟩

/-- The report of an entry call is the piece that ends with the call's own sample. -/
theorem report_eq {before : List Operation} {inv : Invocation} {nested : Calls}
    (henter : inv.isEnter cfg = true) (hnormal : inv.normal = true) :
    report cfg t before inv nested
      = groupByMethod ((SampleLog.run t { logOf t (eventsOf t before) with recording := true }
          (eventsOf t (nested.operations cfg))).current ++ [inv.sample cfg]) := by
  have hops : (Calls.call inv nested .nil).operations cfg
      = .canRecord true :: (nested.operations cfg ++ onExit cfg inv) := by
    simp [Calls.operations, onEnter, henter, hnormal]
  have hrun : logOf t (eventsOf t (before ++ (Calls.call inv nested .nil).operations cfg))
      = (SampleLog.run t { logOf t (eventsOf t before) with recording := true }
          (eventsOf t (nested.operations cfg))).run t (eventsOf t (onExit cfg inv)) := by
    rw [hops, eventsOf_append, logOf_append, ← SampleLog.run_append, ← eventsOf_append]
    rfl
  have hrec := (run_calls cfg t nested
    { logOf t (eventsOf t before) with recording := true } rfl).1
  rw [report, ← List.getLast?_map, printed_run, hrun, run_onExit cfg t inv hrec, if_pos henter]
  simp

/-- **When a report covers exactly its own entry call.** The block printed at the normal end of an
    outermost entry call shows the samples of the calls that ended normally inside it, and no other
    sample, iff no entry call ended normally inside it and nothing was pending when it began. -/
theorem report_exact_iff {calls : Calls} {before : List Operation} {inv : Invocation}
    {nested : Calls} (h : calls.OutermostEnter cfg before inv nested)
    (hnormal : inv.normal = true) :
    (samplesIn (report cfg t before inv nested)).Perm
        (((Calls.call inv nested .nil).samples cfg).map Sample.shown) ↔
      nested.hasRoll cfg = false ∧ NothingPending before := by
  have hown : (Calls.call inv nested .nil).samples cfg
      = nested.samples cfg ++ [inv.sample cfg] := by
    simp [Calls.samples, hnormal]
  obtain ⟨-, hkeep, hless⟩ := run_calls cfg t nested
    { logOf t (eventsOf t before) with recording := true } rfl
  rw [report_eq cfg t h.isEnter hnormal, hown,
    ← current_eq_nil_iff_nothingPending t h.before_ne]
  set pending := (logOf t (eventsOf t before)).current with hpending
  set piece := (SampleLog.run t { logOf t (eventsOf t before) with recording := true }
    (eventsOf t (nested.operations cfg))).current with hpiece
  have hshown := samplesIn_groupByMethod_perm (piece ++ [inv.sample cfg])
  constructor
  · intro hperm
    have hlen := (hshown.symm.trans hperm).length_eq
    simp only [List.length_map, List.length_append, List.length_singleton] at hlen
    have hno : nested.hasRoll cfg = false := by
      by_contra hyes
      have := hless (by simpa using hyes)
      omega
    refine ⟨hno, List.eq_nil_of_length_eq_zero ?_⟩
    rw [hkeep hno, List.length_append] at hlen
    omega
  · rintro ⟨hno, hnil⟩
    have hexact : piece = nested.samples cfg := by
      rw [hkeep hno]
      exact congrArg (· ++ nested.samples cfg) hnil
    rw [← hexact]
    exact hshown

/-! ## A stale sample in a report -/

section Stale

/-- A normal call of `p.A#name` from `start` to `end`. -/
def callOf (name : String) (start «end» : Int) : Invocation :=
  ⟨⟨"p.A", name, "()V"⟩, [], start, «end», fun _ => «end», true⟩

/-- The entry is called, then `idle` outside it, then the entry again. -/
def idleBetweenEntries : Calls :=
  .call (callOf "run" 0 1) .nil
    (.call (callOf "idle" 2 3) .nil (.call (callOf "run" 4 5) .nil .nil))

/-- What the thread does before the second entry call. -/
def beforeSecondEntry : List Operation :=
  (Calls.call (callOf "run" 0 1) .nil .nil).operations enterRun ++
    ((Calls.call (callOf "idle" 2 3) .nil .nil).operations enterRun ++ [])

theorem idleBetweenEntries_outermost :
    idleBetweenEntries.OutermostEnter enterRun beforeSecondEntry (callOf "run" 4 5) .nil :=
  .later (.later (.here (by decide)))

/-- The second report shows `idle`, which ran between the two entry calls. -/
theorem second_report_not_exact :
    idleBetweenEntries.OutermostEnter enterRun beforeSecondEntry (callOf "run" 4 5) .nil ∧
      ¬ (samplesIn (report enterRun "main" beforeSecondEntry (callOf "run" 4 5) .nil)).Perm
        (((Calls.call (callOf "run" 4 5) .nil .nil).samples enterRun).map Sample.shown) :=
  ⟨idleBetweenEntries_outermost, by decide⟩

/-- The entry is called twice, and calls `help` the second time. -/
def helpInSecondEntry : Calls :=
  .call (callOf "run" 0 1) .nil
    (.call (callOf "run" 2 5) (.call (callOf "help" 3 4) .nil .nil) .nil)

/-- What the thread does before the second entry call. -/
def afterFirstEntry : List Operation :=
  (Calls.call (callOf "run" 0 1) .nil .nil).operations enterRun ++ []

theorem helpInSecondEntry_outermost :
    helpInSecondEntry.OutermostEnter enterRun afterFirstEntry (callOf "run" 2 5)
      (.call (callOf "help" 3 4) .nil .nil) :=
  .later (.here (by decide))

/-- The second report shows `help` and its caller, and nothing of the first entry call. -/
theorem second_report_exact :
    (samplesIn (report enterRun "main" afterFirstEntry (callOf "run" 2 5)
        (.call (callOf "help" 3 4) .nil .nil))).Perm
      (((Calls.call (callOf "run" 2 5) (.call (callOf "help" 3 4) .nil .nil) .nil).samples
        enterRun).map Sample.shown) := by
  refine (report_exact_iff enterRun "main" helpInSecondEntry_outermost rfl).2 ⟨by decide, ?_⟩
  exact (current_eq_nil_iff_nothingPending "main" helpInSecondEntry_outermost.before_ne).1
    (by decide)

end Stale

end Jma
