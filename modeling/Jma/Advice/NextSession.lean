import Jma.Advice.EntryReport

set_option autoImplicit false

/-! # The reports of the next session

The manager is one for all sessions of a target JVM. A clean-up switches recording off and rolls
nothing, so what is pending then waits for the first roll of the next session. `next_session_iff`
compares the reports of a session with those of a JVM that has had none before. -/

namespace Jma

/-! ## A log that does not start empty -/

/-- `log` is what `fresh` is, had it started with `rolled` finished and `pending` not rolled: what
    was pending joins the first piece. -/
structure Resumes (rolled : List (List Sample)) (pending : List Sample) (log fresh : SampleLog) :
    Prop where
  recording : log.recording = fresh.recording
  rolled_eq : log.rolled = rolled ++ fresh.rolled.modifyHead (pending ++ ·)
  current_eq : log.current = (if fresh.rolled = [] then pending else []) ++ fresh.current

section

variable {t : String} {rolled : List (List Sample)} {pending : List Sample} {log fresh : SampleLog}

theorem Resumes.start (recording : Bool) (rolled : List (List Sample)) (pending : List Sample) :
    Resumes rolled pending ⟨recording, rolled, pending⟩ ⟨recording, [], []⟩ where
  recording := rfl
  rolled_eq := (List.append_nil _).symm
  current_eq := (List.append_nil _).symm

theorem Resumes.step (h : Resumes rolled pending log fresh) (e : Event) :
    Resumes rolled pending (log.step t e) (fresh.step t e) := by
  obtain ⟨hrecording, hrolled, hcurrent⟩ := h
  obtain ⟨u, op⟩ := e
  cases op with
  | canRecord b => exact ⟨rfl, hrolled, hcurrent⟩
  | mergeRecord s =>
      by_cases haccept : fresh.recording ∧ u = t
      · have hlog : log.recording ∧ u = t := hrecording ▸ haccept
        simp only [SampleLog.step, if_pos hlog, if_pos haccept]
        exact ⟨hrecording, hrolled, by rw [hcurrent, List.append_assoc]⟩
      · have hlog : ¬(log.recording ∧ u = t) := hrecording ▸ haccept
        simp only [SampleLog.step, if_neg hlog, if_neg haccept]
        exact ⟨hrecording, hrolled, hcurrent⟩
  | printAndRolling clock =>
      refine ⟨hrecording, ?_, by simp [SampleLog.step]⟩
      show log.rolled ++ [log.current]
        = rolled ++ (fresh.rolled ++ [fresh.current]).modifyHead (pending ++ ·)
      rw [hrolled, hcurrent, List.append_assoc]
      -- the first roll takes what was pending, a later one finds it gone
      cases fresh.rolled with
      | nil => rfl
      | cons piece rest => simp

theorem Resumes.run (h : Resumes rolled pending log fresh) (es : List Event) :
    Resumes rolled pending (log.run t es) (fresh.run t es) := by
  induction es generalizing log fresh with
  | nil => exact h
  | cons e rest ih => exact ih (h.step e)

end

/-- A log has finished a piece iff it has seen a roll. -/
theorem rolled_logOf_eq_nil_iff (t : String) (es : List Event) :
    (logOf t es).rolled = [] ↔ ∀ e ∈ es, e.operation.isRoll = false := by
  induction es using List.reverseRecOn with
  | nil => simp [logOf, SampleLog.run, SampleLog.initial]
  | append_singleton es e ih =>
      obtain ⟨u, op⟩ := e
      rw [logOf_snoc]
      cases op with
      | canRecord b => simpa [SampleLog.step, Operation.isRoll, or_imp, forall_and] using ih
      | mergeRecord s =>
          have hrolled : ((logOf t es).step t ⟨u, .mergeRecord s⟩).rolled
              = (logOf t es).rolled := by
            simp only [SampleLog.step]
            split <;> rfl
          rw [hrolled, ih]
          simp [Operation.isRoll, or_imp, forall_and]
      | printAndRolling clock => simp [SampleLog.step, Operation.isRoll]

/-! ## The next session -/

/-- What the rolls of `next` print for `t`, in a JVM with the sessions `earlier` behind it; their
    last clean-up has been made by the thread `u`. -/
def nextReports (earlier : List Event) (u t : String) (next : List Event) :
    List (List TimeCostRecord) :=
  ((TimeCostManager.initial.run (earlier ++ [⟨u, .canRecord false⟩])).1.run next).2.map
    (printedFor t)

theorem nextReports_eq (earlier : List Event) (u t : String) (next : List Event) :
    nextReports earlier u t next
      = ((logOf t next).rolled.modifyHead ((logOf t earlier).current ++ ·)).map groupByMethod := by
  have hrefines := (Refines.initial t).run (earlier ++ [⟨u, .canRecord false⟩])
  have hprinted := (hrefines.1.run next).2
  have hstopped : logOf t (earlier ++ [⟨u, .canRecord false⟩])
      = ⟨false, (logOf t earlier).rolled, (logOf t earlier).current⟩ := logOf_snoc ..
  have hresumes : Resumes (logOf t earlier).rolled (logOf t earlier).current
      ((logOf t (earlier ++ [⟨u, .canRecord false⟩])).run t next) (logOf t next) := by
    rw [hstopped]
    exact (Resumes.start ..).run next
  have hrolled : (logOf t (earlier ++ [⟨u, .canRecord false⟩])).rolled
      = (logOf t earlier).rolled := by
    rw [hstopped]
  show (TimeCostManager.run _ next).2.map (printedFor t) = _
  refine List.append_cancel_left (hprinted.symm.trans ?_)
  show ((logOf t (earlier ++ [⟨u, .canRecord false⟩])).run t next).rolled.map groupByMethod = _
  rw [hresumes.rolled_eq, List.map_append]
  exact congrArg (List.map groupByMethod · ++ _) hrolled.symm

/-- More samples of one thread never make the same report. -/
theorem groupByMethod_append_eq_iff (pending piece : List Sample) :
    groupByMethod (pending ++ piece) = groupByMethod piece ↔ pending = [] := by
  constructor
  · intro h
    have hlength := ((samplesIn_groupByMethod_perm (pending ++ piece)).symm.trans
      (h ▸ samplesIn_groupByMethod_perm piece)).length_eq
    rw [List.length_map, List.length_map, List.length_append] at hlength
    exact List.eq_nil_of_length_eq_zero (by omega)
  · rintro rfl
    rfl

/-- **When a session reports as in a fresh JVM.** Sessions of any threads, in any interleaving, have
    come before, and the last of them has been cleaned up. In the next one, what the first roll
    prints for a thread is made of the samples that were pending for it and of its new ones, and the
    later rolls print the new ones. So, if the session rolls at all, its reports for the thread are
    those of a JVM without earlier sessions iff every sample that was accepted under the name of the
    thread was followed by a roll of the earlier sessions. -/
theorem next_session_iff (earlier next : List Event) (u t : String)
    (hroll : ∃ e ∈ next, e.operation.isRoll = true) :
    (∃ first rest, (logOf t next).rolled = first :: rest ∧
      nextReports earlier u t next
        = groupByMethod ((logOf t earlier).current ++ first) :: rest.map groupByMethod) ∧
    (nextReports earlier u t next = (TimeCostManager.initial.run next).2.map (printedFor t) ↔
      ∀ p s q, earlier = p ++ ⟨t, .mergeRecord s⟩ :: q → (logOf t p).recording = true →
        ∃ e ∈ q, e.operation.isRoll = true) := by
  have hne : (logOf t next).rolled ≠ [] := by
    rw [Ne, rolled_logOf_eq_nil_iff]
    obtain ⟨e, he, hrolls⟩ := hroll
    exact fun h => by simp [h e he] at hrolls
  obtain ⟨first, rest, hrolled⟩ := List.exists_cons_of_ne_nil hne
  have hreports : nextReports earlier u t next
      = groupByMethod ((logOf t earlier).current ++ first) :: rest.map groupByMethod := by
    rw [nextReports_eq, hrolled]
    rfl
  refine ⟨⟨first, rest, hrolled, hreports⟩, ?_⟩
  rw [hreports, printed_run, hrolled, List.map_cons, List.cons.injEq, and_iff_left rfl,
    groupByMethod_append_eq_iff, current_logOf_eq_nil_iff]

section SecondSession

/-- The first session: the entry is called, then `idle` outside it. -/
def firstSession : List Event := eventsOf "main" beforeSecondEntry

/-- The second one: the entry is called. -/
def secondSession : List Event :=
  eventsOf "main" ((Calls.call (callOf "run" 4 5) .nil .nil).operations enterRun)

/-- The report of the second session shows `idle`, which ran in the first. -/
theorem second_session_not_fresh : nextReports firstSession "heartbeat" "main" secondSession
    ≠ (TimeCostManager.initial.run secondSession).2.map (printedFor "main") := by
  intro h
  obtain ⟨-, hfresh⟩ := next_session_iff firstSession secondSession "heartbeat" "main"
    ⟨⟨"main", .printAndRolling (fun _ => 5)⟩, .tail _ (.tail _ (.head _)), rfl⟩
  obtain ⟨e, he, -⟩ := hfresh.1 h (firstSession.take 3)
    ((callOf "idle" 2 3).sample enterRun) [] rfl rfl
  cases he

end SecondSession

end Jma
