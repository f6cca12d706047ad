import Jma.Core.TimeCostManager
import Jma.Lib.Grouping
import Jma.Lib.Trace

set_option autoImplicit false

/-! # The store refines a plain log

For one thread the manager does no more than keep a log: the samples accepted since the last roll,
and the finished pieces before it. `SampleLog` is that log; `Refines` ties it to the map of chains
of mutable records, and every operation keeps the tie. A roll by any thread ends the piece of every
thread. -/

namespace Jma

/-! ## The log -/

/-- The samples of one thread, cut at the rolls. -/
structure SampleLog where
  recording : Bool
  rolled : List (List Sample)
  current : List Sample

namespace SampleLog

def initial : SampleLog := ⟨false, [], []⟩

/-- What an operation does to the log of thread `t`. -/
def step (t : String) (log : SampleLog) (e : Event) : SampleLog :=
  match e.operation with
  | .canRecord b => { log with recording := b }
  | .mergeRecord s =>
      if log.recording ∧ e.thread = t then { log with current := log.current ++ [s] } else log
  | .printAndRolling _ => { log with rolled := log.rolled ++ [log.current], current := [] }

theorem step_accept {t : String} {log : SampleLog} (s : Sample) (hrec : log.recording = true) :
    (log.step t ⟨t, .mergeRecord s⟩).current = log.current ++ [s] := by
  simp [step, hrec]

theorem step_of_not_recording {t u : String} {log : SampleLog} (s : Sample)
    (hrec : log.recording ≠ true) : log.step t ⟨u, .mergeRecord s⟩ = log :=
  if_neg (fun h => hrec h.1)

theorem step_of_ne {t u : String} (log : SampleLog) (s : Sample) (hu : u ≠ t) :
    log.step t ⟨u, .mergeRecord s⟩ = log :=
  if_neg (fun h => hu h.2)

@[simp] theorem recording_step_mergeRecord (t u : String) (log : SampleLog) (s : Sample) :
    (log.step t ⟨u, .mergeRecord s⟩).recording = log.recording := by
  simp only [step]
  split <;> rfl

/-- The log of thread `t` after a sequence of operations. -/
def run (t : String) (log : SampleLog) (es : List Event) : SampleLog := es.foldl (step t) log

end SampleLog

/-- The samples of `t` that are merged while the flag is on. -/
def accepted (t : String) : Bool → List Event → List Sample
  | _, [] => []
  | recording, e :: rest =>
      match e.operation with
      | .canRecord b => accepted t b rest
      | .mergeRecord s =>
          if recording ∧ e.thread = t then s :: accepted t recording rest
          else accepted t recording rest
      | .printAndRolling _ => accepted t recording rest

/-- The pieces of the log are the accepted samples, cut. -/
theorem SampleLog.flatten_run (t : String) (es : List Event) (log : SampleLog) :
    (log.run t es).rolled.flatten ++ (log.run t es).current
      = log.rolled.flatten ++ log.current ++ accepted t log.recording es := by
  induction es generalizing log with
  | nil => simp [run, accepted]
  | cons e rest ih =>
      obtain ⟨u, op⟩ := e
      have hrun : log.run t (⟨u, op⟩ :: rest) = (log.step t ⟨u, op⟩).run t rest := rfl
      rw [hrun, ih]
      cases op with
      | canRecord b => rfl
      | mergeRecord s =>
          by_cases h : log.recording ∧ u = t
          · simp [step, accepted, h]
          · simp only [step, accepted, if_neg h]
      | printAndRolling clock => simp [step, accepted]

/-! ## Grouping a piece -/

/-- The record of the samples of one method. -/
def groupRecord (g : MethodIdentifier × List Sample) : TimeCostRecord :=
  { method := g.1
    callTree := (g.2.head?.map Sample.callTree).getD []
    count := g.2.length
    costs := g.2.map Sample.cost }

/-- A piece grouped by method: records in order of first arrival, costs in arrival order. -/
def groupByMethod (piece : List Sample) : List TimeCostRecord :=
  (Grouping.groups Sample.method piece).map groupRecord

@[simp] theorem groupByMethod_nil : groupByMethod [] = [] := rfl

/-- The loop of `mergeRecord` is the insertion into the groups. -/
theorem mergeInto_groupRecord (s : Sample) (gs : List (MethodIdentifier × List Sample))
    (hne : ∀ g ∈ gs, g.2 ≠ []) :
    mergeInto s.toRecord (gs.map groupRecord)
      = (Grouping.insert Sample.method s gs).map groupRecord := by
  induction gs with
  | nil => rfl
  | cons g rest ih =>
      obtain ⟨k, own⟩ := g
      have hrest := ih (fun g hg => hne g (List.mem_cons_of_mem _ hg))
      simp only [List.map_cons, mergeInto, Grouping.insert]
      by_cases hk : s.method = k
      · have hown : own ≠ [] := hne (k, own) List.mem_cons_self
        obtain ⟨first, others, rfl⟩ := List.exists_cons_of_ne_nil hown
        simp [methodAndTraceEq, Sample.toRecord, groupRecord, hk]
      · have hne' : methodAndTraceEq s.toRecord (groupRecord (k, own)) = false := by
          simp [methodAndTraceEq, Sample.toRecord, groupRecord, hk]
        rw [if_neg (by simp [hne']), if_neg hk, List.map_cons, hrest]

theorem mergeInto_groupByMethod (s : Sample) (piece : List Sample) :
    mergeInto s.toRecord (groupByMethod piece) = groupByMethod (piece ++ [s]) := by
  rw [groupByMethod, mergeInto_groupRecord s _ (fun _ hg => Grouping.own_ne_nil_of_mem _ hg),
    ← Grouping.groups_snoc, groupByMethod]

theorem map_method_groupByMethod (piece : List Sample) :
    (groupByMethod piece).map TimeCostRecord.method
      = (Grouping.groups Sample.method piece).map Prod.fst := by
  rw [groupByMethod, List.map_map]
  rfl

/-- Every sample of a piece has a record of its method. -/
theorem exists_record_of_mem {piece : List Sample} {s : Sample} (hs : s ∈ piece) :
    ∃ r ∈ groupByMethod piece, r.method = s.method := by
  have hkey : s.method ∈ (groupByMethod piece).map TimeCostRecord.method := by
    rw [map_method_groupByMethod, Grouping.map_fst_groups, List.mem_eraseDups]
    exact List.mem_map.2 ⟨s, hs, rfl⟩
  obtain ⟨r, hr, heq⟩ := List.mem_map.1 hkey
  exact ⟨r, hr, heq⟩

/-- The methods of the records are those of the samples. -/
theorem exists_record_iff {piece : List Sample} {k : MethodIdentifier} :
    (∃ r ∈ groupByMethod piece, r.method = k) ↔ ∃ s ∈ piece, s.method = k := by
  have hkeys :
      k ∈ (groupByMethod piece).map TimeCostRecord.method ↔ k ∈ piece.map Sample.method := by
    rw [map_method_groupByMethod, Grouping.map_fst_groups, List.mem_eraseDups]
  simpa only [List.mem_map] using hkeys

/-- No two records of a grouped piece are of the same method. -/
theorem nodup_groupByMethod (piece : List Sample) :
    ((groupByMethod piece).map TimeCostRecord.method).Nodup := by
  rw [map_method_groupByMethod]
  exact Grouping.nodup_keys _ _

/-- A record of a grouped piece counts its costs, of which there is at least one. -/
theorem count_groupByMethod {piece : List Sample} {r : TimeCostRecord}
    (hr : r ∈ groupByMethod piece) : 1 ≤ r.count ∧ r.count = r.costs.length := by
  obtain ⟨g, hg, rfl⟩ := List.mem_map.1 hr
  refine ⟨?_, by simp [groupRecord]⟩
  exact List.length_pos_of_ne_nil (Grouping.own_ne_nil_of_mem _ hg)

/-- A record of a grouped piece has the costs of its method's samples, in order. -/
theorem costs_of_mem_groupByMethod {piece : List Sample} {r : TimeCostRecord}
    (hr : r ∈ groupByMethod piece) :
    r.costs = (piece.filter (fun s => s.method = r.method)).map Sample.cost := by
  obtain ⟨g, hg, rfl⟩ := List.mem_map.1 hr
  obtain ⟨k, -, rfl⟩ := List.mem_map.1 hg
  rfl

/-- It has the call tree of the first of them. -/
theorem callTree_of_mem_groupByMethod {piece : List Sample} {r : TimeCostRecord}
    (hr : r ∈ groupByMethod piece) :
    r.callTree
      = ((piece.filter (fun s => s.method = r.method)).head?.map Sample.callTree).getD [] := by
  obtain ⟨g, hg, rfl⟩ := List.mem_map.1 hr
  obtain ⟨k, -, rfl⟩ := List.mem_map.1 hg
  rfl

/-- A record of a grouped piece is of the method of one of its samples, with its call tree. -/
theorem exists_sample_of_record {piece : List Sample} {r : TimeCostRecord}
    (hr : r ∈ groupByMethod piece) :
    ∃ x ∈ piece, x.method = r.method ∧ x.callTree = r.callTree := by
  have hcosts := costs_of_mem_groupByMethod hr
  have htree := callTree_of_mem_groupByMethod hr
  obtain ⟨hpos, hcount⟩ := count_groupByMethod hr
  cases hown : piece.filter (fun x => x.method = r.method) with
  | nil =>
      rw [hcount, hcosts, hown] at hpos
      exact absurd hpos (Nat.not_succ_le_zero 0)
  | cons first rest =>
      rw [hown] at htree
      obtain ⟨hmem, hmethod⟩ := List.mem_filter.1 (hown ▸ List.mem_cons_self (a := first))
      exact ⟨first, hmem, of_decide_eq_true hmethod, htree.symm⟩

/-- The costs of a method in a grouped piece are those of its samples, in order. -/
theorem costs_groupByMethod (k : MethodIdentifier) (piece : List Sample) :
    ((groupByMethod piece).filter (fun r => r.method = k)).flatMap TimeCostRecord.costs
      = (piece.filter (fun s => s.method = k)).map Sample.cost := by
  have hfilter : (groupByMethod piece).filter (fun r => r.method = k)
      = ((Grouping.groups Sample.method piece).filter (fun g => g.1 = k)).map groupRecord := by
    rw [groupByMethod, List.filter_map]
    rfl
  have hcosts : ∀ gs : List (MethodIdentifier × List Sample),
      (gs.map groupRecord).flatMap TimeCostRecord.costs
        = (gs.flatMap Prod.snd).map Sample.cost := by
    intro gs
    rw [List.flatMap_map, List.map_flatMap]
    rfl
  rw [hfilter, hcosts, Grouping.flatMap_own]
  rfl

/-- The samples that a list of records holds: its costs, each with its method. -/
def samplesIn (records : List TimeCostRecord) : List (MethodIdentifier × CostPair) :=
  records.flatMap (fun r => r.costs.map (fun c => (r.method, c)))

/-- A sample as a report shows it. -/
def Sample.shown (s : Sample) : MethodIdentifier × CostPair := (s.method, s.cost)

/-- Grouping a piece keeps its samples, each as often as it occurs. -/
theorem samplesIn_groupByMethod_perm (piece : List Sample) :
    (samplesIn (groupByMethod piece)).Perm (piece.map Sample.shown) := by
  have hown : samplesIn (groupByMethod piece)
      = ((Grouping.groups Sample.method piece).flatMap Prod.snd).map Sample.shown := by
    rw [samplesIn, groupByMethod, List.flatMap_map, List.map_flatMap]
    refine List.flatMap_congr (fun g hg => ?_)
    rw [groupRecord, List.map_map]
    refine List.map_congr_left (fun s hs => ?_)
    rw [Function.comp_apply, Sample.shown, Grouping.key_of_mem_own Sample.method hg hs]
  rw [hown]
  exact (Grouping.flatMap_groups_perm Sample.method piece).map _

/-! ## The refinement -/

/-- The manager holds, for thread `t`, the log's current piece. -/
structure Refines (t : String) (m : TimeCostManager) (log : SampleLog) : Prop where
  recording : m.recording = log.recording
  pending : m.pending t = groupByMethod log.current

theorem Refines.initial (t : String) : Refines t .initial .initial := ⟨rfl, rfl⟩

/-- One operation: the tie is kept, and a roll prints the piece that it ends. -/
theorem Refines.step {t : String} {m : TimeCostManager} {log : SampleLog} (h : Refines t m log)
    (e : Event) :
    Refines t (m.exec e).1 (log.step t e) ∧
      (log.step t e).rolled.map groupByMethod
        = log.rolled.map groupByMethod ++ (m.exec e).2.map (printedFor t) := by
  obtain ⟨u, op⟩ := e
  obtain ⟨hrec, hpend⟩ := h
  cases op with
  | canRecord b => exact ⟨⟨rfl, hpend⟩, by simp [SampleLog.step, TimeCostManager.exec]⟩
  | mergeRecord s =>
      have hrolled : (log.step t ⟨u, .mergeRecord s⟩).rolled = log.rolled := by
        simp only [SampleLog.step]
        split <;> rfl
      refine ⟨⟨?_, ?_⟩, by simp [TimeCostManager.exec, hrolled]⟩
      · simp [TimeCostManager.exec, hrec]
      · by_cases hon : log.recording = true
        · have hstore : m.mergeRecord u s.toRecord = m.store u s.toRecord := by
            simp [TimeCostManager.mergeRecord, hrec, hon]
          -- only a sample under the name `t` changes what is pending for `t`
          by_cases hu : u = t
          · subst hu
            simp only [TimeCostManager.exec, hstore, TimeCostManager.pending_store_self, hpend,
              mergeInto_groupByMethod, SampleLog.step_accept s hon]
          · simp only [TimeCostManager.exec, hstore, SampleLog.step_of_ne log s hu,
              TimeCostManager.pending_store_of_ne m _ (Ne.symm hu), hpend]
        · have hskip : m.mergeRecord u s.toRecord = m := by
            simp [TimeCostManager.mergeRecord, hrec, hon]
          simp only [TimeCostManager.exec, hskip, SampleLog.step_of_not_recording s hon, hpend]
  | printAndRolling clock =>
      refine ⟨⟨hrec, ?_⟩, ?_⟩
      · simp [TimeCostManager.exec, SampleLog.step]
      · simp [TimeCostManager.exec, SampleLog.step, TimeCostManager.printedFor_printAndRolling,
          hpend]

/-- Any sequence of operations keeps the tie, and its rolls print the pieces that they end. -/
theorem Refines.run {t : String} {m : TimeCostManager} {log : SampleLog} (h : Refines t m log)
    (es : List Event) :
    Refines t (m.run es).1 (log.run t es) ∧
      (log.run t es).rolled.map groupByMethod
        = log.rolled.map groupByMethod ++ (m.run es).2.map (printedFor t) := by
  induction es generalizing m log with
  | nil => exact ⟨h, by simp [SampleLog.run, TimeCostManager.run]⟩
  | cons e rest ih =>
      obtain ⟨hstep, hrolled⟩ := h.step e
      obtain ⟨hrun, hrolled'⟩ := ih hstep
      refine ⟨hrun, ?_⟩
      simp only [SampleLog.run, List.foldl_cons, TimeCostManager.run, List.map_append]
      rw [SampleLog.run] at hrolled'
      rw [hrolled', hrolled, List.append_assoc]

/-- The log of thread `t` after a run from the start. -/
def logOf (t : String) (es : List Event) : SampleLog := SampleLog.initial.run t es

theorem logOf_append (t : String) (es es' : List Event) :
    logOf t (es ++ es') = (logOf t es).run t es' := by
  rw [logOf, SampleLog.run, List.foldl_append]
  rfl

theorem logOf_snoc (t : String) (es : List Event) (e : Event) :
    logOf t (es ++ [e]) = (logOf t es).step t e := logOf_append t es [e]

/-- What is pending after a run is the last piece, grouped. -/
theorem pending_run (t : String) (es : List Event) :
    (TimeCostManager.initial.run es).1.pending t = groupByMethod (logOf t es).current :=
  ((Refines.initial t).run es).1.pending

/-- What the rolls of a run print are the finished pieces, grouped. -/
theorem printed_run (t : String) (es : List Event) :
    (TimeCostManager.initial.run es).2.map (printedFor t)
      = (logOf t es).rolled.map groupByMethod :=
  (((Refines.initial t).run es).2.trans (List.nil_append _)).symm

/-- The flag is the argument of the last `canRecord`; while nobody closes it, it is on once
    somebody has opened it. -/
theorem recording_logOf_iff (t : String) (es : List Event)
    (hopen : ∀ e ∈ es, e.operation ≠ .canRecord false) :
    (logOf t es).recording = true ↔ ∃ e ∈ es, e.operation = .canRecord true := by
  induction es using List.reverseRecOn with
  | nil => simp [logOf, SampleLog.run, SampleLog.initial]
  | append_singleton es e ih =>
      have ih' := ih (fun e' he' => hopen e' (List.mem_append_left _ he'))
      have hlast := hopen e (by simp)
      obtain ⟨u, op⟩ := e
      rw [logOf_snoc]
      cases op with
      | canRecord b =>
          cases b with
          | false => exact absurd rfl hlast
          | true => exact iff_of_true rfl ⟨⟨u, .canRecord true⟩, by simp, rfl⟩
      | mergeRecord s =>
          rw [SampleLog.recording_step_mergeRecord, ih']
          simp [or_and_right, exists_or]
      | printAndRolling clock =>
          have hflag : ((logOf t es).step t ⟨u, .printAndRolling clock⟩).recording
              = (logOf t es).recording := rfl
          rw [hflag, ih']
          simp [or_and_right, exists_or]

/-- Nothing is pending iff every sample taken with the flag on has been rolled since. -/
theorem current_logOf_eq_nil_iff (t : String) (es : List Event) :
    (logOf t es).current = [] ↔
      ∀ p s q, es = p ++ ⟨t, .mergeRecord s⟩ :: q → (logOf t p).recording = true →
        ∃ e ∈ q, e.operation.isRoll = true := by
  induction es using List.reverseRecOn with
  | nil => simp [logOf, SampleLog.run, SampleLog.initial]
  | append_singleton es e ih =>
      obtain ⟨u, op⟩ := e
      rw [logOf_snoc]
      -- an earlier sample of the longer run is a sample of the shorter one, with `e` after it
      have hearlier : (∀ p s q, es ++ [⟨u, op⟩] = p ++ ⟨t, .mergeRecord s⟩ :: q →
            (logOf t p).recording = true → ∃ e ∈ q, e.operation.isRoll = true) ↔
          (∀ s, op = .mergeRecord s → u = t → (logOf t es).recording ≠ true) ∧
          (∀ p s q, es = p ++ ⟨t, .mergeRecord s⟩ :: q → (logOf t p).recording = true →
            op.isRoll = true ∨ ∃ e ∈ q, e.operation.isRoll = true) := by
        constructor
        · intro h
          refine ⟨fun s hop hu hrec => ?_, fun p s q hes hrec => ?_⟩
          · subst hop hu
            obtain ⟨e, he, -⟩ := h es s [] rfl hrec
            exact absurd he (by simp)
          · obtain ⟨e, he, hroll⟩ := h p s (q ++ [⟨u, op⟩]) (by simp [hes]) hrec
            rcases List.mem_append.1 he with he | he
            · exact Or.inr ⟨e, he, hroll⟩
            · rw [List.mem_singleton.1 he] at hroll
              exact Or.inl hroll
        · rintro ⟨hlast, hbefore⟩ p s q hes hrec
          rcases Trace.snoc_eq_append_cons.1 hes with ⟨rfl, heq, -⟩ | ⟨q', rfl, hes'⟩
          · obtain ⟨hu, hop⟩ := Event.mk.inj heq
            exact absurd hrec (hlast s hop hu)
          · rcases hbefore p s q' hes' hrec with hroll | ⟨e, he, hroll⟩
            · exact ⟨⟨u, op⟩, by simp, hroll⟩
            · exact ⟨e, by simp [he], hroll⟩
      rw [hearlier]
      cases op with
      | canRecord b => simpa [SampleLog.step, Operation.isRoll] using ih
      | printAndRolling clock => simp [SampleLog.step, Operation.isRoll]
      | mergeRecord s =>
          by_cases h : (logOf t es).recording = true ∧ u = t
          · simp [SampleLog.step, h]
          · have hstep : (logOf t es).step t ⟨u, .mergeRecord s⟩ = logOf t es := if_neg h
            have hlast : ∀ s', Operation.mergeRecord s = .mergeRecord s' → u = t →
                (logOf t es).recording ≠ true := fun _ _ hu hrec => h ⟨hrec, hu⟩
            rw [hstep, ih]
            simp only [Operation.isRoll, Bool.false_eq_true, false_or]
            exact (and_iff_right hlast).symm

/-- **The store loses, duplicates and misgroups no sample.** The `k`-th roll prints for `t` the
    `k`-th piece of the accepted samples, grouped by method, and the last piece is pending. The
    records of a chain are of different methods and count their costs, so no average divides by
    zero, and each accepted sample is in one record of one chain. -/
theorem store_keeps_every_sample (es : List Event) (t : String) :
    let m := (TimeCostManager.initial.run es).1
    let printed := (TimeCostManager.initial.run es).2.map (printedFor t)
    let log := logOf t es
    log.rolled.flatten ++ log.current = accepted t false es ∧
    printed = log.rolled.map groupByMethod ∧
    m.pending t = groupByMethod log.current ∧
    (∀ chain ∈ printed ++ [m.pending t],
      (chain.map TimeCostRecord.method).Nodup ∧
        ∀ r ∈ chain, 1 ≤ r.count ∧ r.count = r.costs.length) ∧
    (∀ k, ((printed ++ [m.pending t]).flatten.filter (fun r => r.method = k)).flatMap
          TimeCostRecord.costs
        = ((accepted t false es).filter (fun s => s.method = k)).map Sample.cost) := by
  intro m printed log
  have hcut : log.rolled.flatten ++ log.current = accepted t false es :=
    SampleLog.flatten_run t es .initial
  have hchains : printed ++ [m.pending t] = (log.rolled ++ [log.current]).map groupByMethod := by
    rw [List.map_append, ← printed_run t es, List.map_singleton, ← pending_run t es]
  refine ⟨hcut, printed_run t es, pending_run t es, ?_, ?_⟩
  · intro chain hchain
    rw [hchains] at hchain
    obtain ⟨piece, -, rfl⟩ := List.mem_map.1 hchain
    exact ⟨nodup_groupByMethod piece, fun r hr => count_groupByMethod hr⟩
  · intro k
    have hpieces : ∀ pieces : List (List Sample),
        ((pieces.map groupByMethod).flatten.filter (fun r => r.method = k)).flatMap
            TimeCostRecord.costs
          = (pieces.flatten.filter (fun s => s.method = k)).map Sample.cost := by
      intro pieces
      induction pieces with
      | nil => rfl
      | cons piece rest ih =>
          simp only [List.map_cons, List.flatten_cons, List.filter_append, List.flatMap_append,
            List.map_append, costs_groupByMethod, ih]
    rw [hchains, hpieces, ← hcut, List.flatten_append, List.flatten_singleton]

end Jma
