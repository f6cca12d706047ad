import Jma.Core.Statistics

set_option autoImplicit false

/-! # Does the order of arrival matter?

Which record a sample is merged into, where that record stands in its chain and where the sample
stands in the record all depend on what arrived before. The rows of a report do not: they are the
groups of the accepted samples, each reduced to values that no order changes. -/

namespace Jma

open StatisticInfo

/-- The accepted calls of `mergeRecord`, the flag being `recording` at first: the name of the
    thread, the method, begin and end. -/
def acceptedCalls : Bool → List Event → List (String × MethodIdentifier × CostPair)
  | _, [] => []
  | recording, e :: rest =>
      match e.operation with
      | .canRecord b => acceptedCalls b rest
      | .mergeRecord s =>
          if recording then (e.thread, s.shown) :: acceptedCalls recording rest
          else acceptedCalls recording rest
      | .printAndRolling _ => acceptedCalls recording rest

/-- The rows that blocks show for thread `t`. -/
def rowsFor (t : String) (blocks : List Block) :
    List (MethodIdentifier × Int × Int × Int × Int × Nat) :=
  (blocks.filter (fun b => b.threadName = t)).flatMap (fun b => (infos b.recordList).map row)

/-! ## What is pending between two rolls -/

/-- The calls of one thread are the samples that the log accepts for it. -/
theorem map_shown_accepted (t : String) (recording : Bool) (es : List Event) :
    (accepted t recording es).map Sample.shown
      = ((acceptedCalls recording es).filter (fun call => call.1 = t)).map Prod.snd := by
  induction es generalizing recording with
  | nil => rfl
  | cons e rest ih =>
      obtain ⟨u, op⟩ := e
      cases op with
      | canRecord b => exact ih b
      | printAndRolling clock => exact ih recording
      | mergeRecord s =>
          simp only [accepted, acceptedCalls]
          by_cases hrec : recording = true
          · by_cases hu : u = t <;> simp [hrec, hu, ih]
          · simp [hrec, ih]

/-- Without a roll the log only grows, by the accepted samples. -/
theorem SampleLog.current_run_of_not_roll {t : String} {es : List Event}
    (hno : ∀ e ∈ es, e.operation.isRoll = false) (log : SampleLog) :
    (log.run t es).current = log.current ++ accepted t log.recording es := by
  induction es generalizing log with
  | nil => simp [run, accepted]
  | cons e rest ih =>
      have hrest := ih (fun e' he' => hno e' (List.mem_cons_of_mem _ he')) (log.step t e)
      have hroll := hno e (List.mem_cons_self ..)
      rw [run, List.foldl_cons, ← run, hrest]
      obtain ⟨u, op⟩ := e
      cases op with
      | canRecord b => rfl
      | printAndRolling clock => cases hroll
      | mergeRecord s =>
          by_cases h : log.recording = true ∧ u = t
          · simp [step, accepted, h]
          · simp only [step, accepted, if_neg h]

/-! ## Rows of a piece -/

/-- A row shows the method, the count and values of the costs that their order does not change. -/
theorem row_statistic_of_perm {r r' : TimeCostRecord} (hmethod : r.method = r'.method)
    (hcount : r.count = r'.count) (hcosts : r.costs.Perm r'.costs) :
    (statistic r).row = (statistic r').row := by
  have hdurations := hcosts.map (fun c => subLong c.end c.begin)
  have : RightCommutative addLong := ⟨addLong_right_comm⟩
  simp only [statistic, foldl_addCost, row, StatisticInfo.new, hmethod, hcount,
    hdurations.foldl_eq]

theorem map_cost_own (k : MethodIdentifier) (piece : List Sample) :
    (Grouping.own Sample.method k piece).map Sample.cost
      = ((piece.map Sample.shown).filter (fun x => x.1 = k)).map Prod.snd := by
  rw [Grouping.own, List.filter_map, List.map_map]
  rfl

/-- Pieces with the same samples, up to their order, have the same rows, up to theirs. -/
theorem rows_groupByMethod_perm {piece piece' : List Sample}
    (h : (piece.map Sample.shown).Perm (piece'.map Sample.shown)) :
    ((groupByMethod piece).map (fun r => (statistic r).row)).Perm
      ((groupByMethod piece').map (fun r => (statistic r).row)) := by
  have hkeys : (piece.map Sample.method).Perm (piece'.map Sample.method) := by
    have hfst := h.map Prod.fst
    rwa [List.map_map, List.map_map] at hfst
  rw [groupByMethod, groupByMethod, List.map_map, List.map_map]
  refine Grouping.map_groups_perm Sample.method hkeys (fun k => ?_)
  have hcosts : ((Grouping.own Sample.method k piece).map Sample.cost).Perm
      ((Grouping.own Sample.method k piece').map Sample.cost) := by
    rw [map_cost_own, map_cost_own]
    exact (h.filter _).map _
  refine row_statistic_of_perm rfl ?_ hcosts
  simpa [groupRecord] using hcosts.length_eq

/-- A roll shows for every thread the rows of what was pending for it. -/
theorem rowsFor_printedAfter (t : String) (before : List Event) (u : String)
    (clock : String → Int) :
    rowsFor t (TimeCostManager.printedAfter before u clock)
      = (infos (groupByMethod (logOf t before).current)).map row := by
  rw [rowsFor, TimeCostManager.printedAfter, TimeCostManager.filter_printAndRolling, pending_run]
  unfold TimeCostManager.block
  cases hrecords : groupByMethod (logOf t before).current with
  | nil => rfl
  | cons r rest => simp

/-- **Reports do not depend on the order of arrival.** If two sequences of operations without a roll
    follow the same operations, and their accepted calls of `mergeRecord` are the same up to their
    order, then the next roll shows the same rows for every thread, up to their order. -/
theorem rows_of_perm (before seg seg' : List Event) (t u u' : String) (clock clock' : String → Int)
    (hno : ∀ e ∈ seg, e.operation.isRoll = false) (hno' : ∀ e ∈ seg', e.operation.isRoll = false)
    (hperm : (acceptedCalls (TimeCostManager.initial.run before).1.recording seg).Perm
      (acceptedCalls (TimeCostManager.initial.run before).1.recording seg')) :
    (rowsFor t (TimeCostManager.printedAfter (before ++ seg) u clock)).Perm
      (rowsFor t (TimeCostManager.printedAfter (before ++ seg') u' clock')) := by
  have hrec : (TimeCostManager.initial.run before).1.recording = (logOf t before).recording :=
    ((Refines.initial t).run before).1.recording
  rw [hrec] at hperm
  have hshown : ((logOf t (before ++ seg)).current.map Sample.shown).Perm
      ((logOf t (before ++ seg')).current.map Sample.shown) := by
    rw [logOf_append, logOf_append, SampleLog.current_run_of_not_roll hno,
      SampleLog.current_run_of_not_roll hno', List.map_append, List.map_append,
      map_shown_accepted, map_shown_accepted]
    exact ((hperm.filter _).map _).append_left _
  have hrows : ∀ piece, ((infos (groupByMethod piece)).map row).Perm
      ((groupByMethod piece).map (fun r => (statistic r).row)) := by
    intro piece
    have hinfos := (infos_perm (groupByMethod piece)).map row
    rwa [List.map_map] at hinfos
  rw [rowsFor_printedAfter, rowsFor_printedAfter]
  exact (hrows _).trans ((rows_groupByMethod_perm hshown).trans (hrows _).symm)

section Swapped

/-- A call of `p.A#name` that `thread` has timed. -/
def merged (thread name : String) (begin «end» : Int) : Event :=
  ⟨thread, .mergeRecord ⟨⟨"p.A", name, "()V"⟩, [], ⟨begin, «end»⟩⟩⟩

/-- Three calls of two threads. -/
def threeCalls : List Event :=
  [merged "main" "step" 1 3, merged "worker" "step" 2 4, merged "main" "run" 0 5,
   merged "main" "step" 5 6]

/-- The same calls in another order. -/
def threeCallsSwapped : List Event :=
  [merged "main" "run" 0 5, merged "main" "step" 5 6, merged "main" "step" 1 3,
   merged "worker" "step" 2 4]

/-- After a first report the calls arrive in either order, and the next one is the same. -/
theorem swapped_calls_same_rows :
    (rowsFor "main" (TimeCostManager.printedAfter (entryCall 0 5 ++ threeCalls) "main"
      (fun _ => 7))).Perm
    (rowsFor "main" (TimeCostManager.printedAfter (entryCall 0 5 ++ threeCallsSwapped) "worker"
      (fun _ => 8))) :=
  rows_of_perm (entryCall 0 5) threeCalls threeCallsSwapped "main" "main" "worker" (fun _ => 7)
    (fun _ => 8) (by decide) (by decide) (by decide)

end Swapped

end Jma
