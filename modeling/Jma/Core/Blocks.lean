import Jma.Core.Store

set_option autoImplicit false

/-! # The blocks that a run prints

A roll prints one block for every thread name under which something is pending, and a run prints
what its rolls print. So a statement about all printed blocks is one about the places of the run
where a roll stands, and about what was pending there. -/

namespace Jma

namespace TimeCostManager

/-! ## One roll -/

/-- The blocks of one thread name: one if something is pending for it, and none otherwise. -/
theorem filter_printAndRolling (m : TimeCostManager) (current : String) (clock : String → Int)
    (t : String) :
    (m.printAndRolling current clock).2.filter (fun b => b.threadName = t)
      = (m.block current t ⟨m.pending t⟩).toList := by
  have hname : ∀ e : (Σ _ : String, TimeCostChain),
      (m.block current e.1 e.2).filter (fun b => b.threadName = t)
        = (if e.1 = t then some (m.block current e.1 e.2) else none).bind id := by
    rintro ⟨threadName, chain⟩
    unfold block
    by_cases ht : threadName = t <;> by_cases hempty : chain.recordList.isEmpty = true <;>
      simp [ht, hempty]
  have hentries := AssocMap.filterMap_entries m.costMap t (fun key c => m.block current key c)
  calc (m.printAndRolling current clock).2.filter (fun b => b.threadName = t)
      = m.costMap.entries.filterMap
          (fun e => (if e.1 = t then some (m.block current e.1 e.2) else none).bind id) := by
        rw [printAndRolling, List.filter_filterMap]
        exact List.filterMap_congr (fun e _ => hname e)
    _ = (m.costMap.entries.filterMap
          (fun e => if e.1 = t then some (m.block current e.1 e.2) else none)).filterMap id := by
        rw [List.filterMap_filterMap]
    _ = (m.block current t ⟨m.pending t⟩).toList := by
        rw [hentries]
        unfold pending
        cases m.costMap.lookup t with
        | none => rfl
        | some chain => cases hb : m.block current t chain <;> simp [hb]

/-- A roll prints a block for every name under which something is pending, headed by the name of the
    rolling thread and the current `seq`. -/
theorem mem_printAndRolling {m : TimeCostManager} {current : String} {clock : String → Int}
    {b : Block} : b ∈ (m.printAndRolling current clock).2 ↔
      m.pending b.threadName ≠ [] ∧ b.headerName = current ∧ b.headerSeq = m.seq ∧
        b.recordList = m.pending b.threadName := by
  have hfilter := filter_printAndRolling m current clock b.threadName
  have hmem : b ∈ (m.printAndRolling current clock).2 ↔
      b ∈ (m.block current b.threadName ⟨m.pending b.threadName⟩).toList := by
    rw [← hfilter, List.mem_filter]
    simp
  rw [hmem]
  obtain ⟨threadName, headerName, headerSeq, recordList⟩ := b
  dsimp only
  generalize m.pending threadName = records
  unfold block
  cases records with
  | nil => simp
  | cons r rest =>
      rw [if_neg (by simp), Option.mem_toList, Option.some.injEq, Block.mk.injEq]
      constructor
      · rintro ⟨-, rfl, rfl, rfl⟩
        exact ⟨by simp, rfl, rfl, rfl⟩
      · rintro ⟨-, rfl, rfl, rfl⟩
        exact ⟨rfl, rfl, rfl, rfl⟩

/-! ## All rolls of a run -/

/-- What a roll by `current` prints when `before` has been executed. -/
def printedAfter (before : List Event) (current : String) (currentTimeMillis : String → Int) :
    List Block :=
  ((initial.run before).1.printAndRolling current currentTimeMillis).2

/-- What is pending is empty only if no sample is. -/
theorem pending_run_eq_nil_iff (t : String) (es : List Event) :
    (initial.run es).1.pending t = [] ↔ (logOf t es).current = [] := by
  rw [pending_run]
  constructor
  · intro h
    have hperm := samplesIn_groupByMethod_perm (logOf t es).current
    rw [h] at hperm
    exact List.map_eq_nil_iff.1 hperm.symm.eq_nil
  · intro h
    rw [h, groupByMethod_nil]

/-- The block of a thread shows its current piece, grouped by method. -/
theorem mem_printedAfter {before : List Event} {current : String} {clock : String → Int}
    {b : Block} : b ∈ printedAfter before current clock ↔
      (logOf b.threadName before).current ≠ [] ∧ b.headerName = current ∧
        b.headerSeq = (initial.run before).1.seq ∧
        b.recordList = groupByMethod (logOf b.threadName before).current := by
  rw [printedAfter, mem_printAndRolling, Ne, pending_run_eq_nil_iff, pending_run]

theorem run_snoc_roll (es : List Event) (u : String) (clock : String → Int) :
    (initial.run (es ++ [⟨u, .printAndRolling clock⟩])).2
      = (initial.run es).2 ++ [printedAfter es u clock] := by
  rw [run_append]
  rfl

theorem run_snoc_of_not_roll (es : List Event) (e : Event) (h : e.operation.isRoll = false) :
    (initial.run (es ++ [e])).2 = (initial.run es).2 := by
  obtain ⟨u, op⟩ := e
  rw [run_append]
  cases op with
  | canRecord b => exact List.append_nil _
  | mergeRecord s => exact List.append_nil _
  | printAndRolling clock => cases h

/-- A run prints what its rolls print. -/
theorem mem_run {es : List Event} {blocks : List Block} : blocks ∈ (initial.run es).2 ↔
    ∃ p u clock q, es = p ++ ⟨u, .printAndRolling clock⟩ :: q ∧
      blocks = printedAfter p u clock := by
  have hshape : (∃ p u clock q, es = p ++ ⟨u, .printAndRolling clock⟩ :: q ∧
        blocks = printedAfter p u clock) ↔
      ∃ p e q, es = p ++ e :: q ∧
        ∃ u clock, e = ⟨u, .printAndRolling clock⟩ ∧ blocks = printedAfter p u clock := by
    constructor
    · intro ⟨p, u, clock, q, hsplit, hprinted⟩
      exact ⟨p, _, q, hsplit, u, clock, rfl, hprinted⟩
    · rintro ⟨p, _, q, hsplit, u, clock, rfl, hprinted⟩
      exact ⟨p, u, clock, q, hsplit, hprinted⟩
  refine Iff.trans ?_ hshape.symm
  clear hshape
  induction es using List.reverseRecOn with
  | nil => simp [run]
  | append_singleton es e ih =>
      rw [Trace.exists_split_snoc, ← ih]
      obtain ⟨u, op⟩ := e
      cases op with
      | printAndRolling clock =>
          rw [run_snoc_roll, List.mem_append, List.mem_singleton]
          refine or_congr_right ⟨fun h => ⟨u, clock, rfl, h⟩, ?_⟩
          rintro ⟨u', clock', he, rfl⟩
          cases he
          rfl
      | canRecord b => simp [run_snoc_of_not_roll es ⟨u, .canRecord b⟩ rfl]
      | mergeRecord s => simp [run_snoc_of_not_roll es ⟨u, .mergeRecord s⟩ rfl]

/-- A statement about any two reports of a run is one about any two rolls in it. -/
theorem pairwise_run {R : List Block → List Block → Prop} {es : List Event} :
    (initial.run es).2.Pairwise R ↔
      ∀ p u clock q u' clock' r,
        es = p ++ ⟨u, .printAndRolling clock⟩ :: q ++ ⟨u', .printAndRolling clock'⟩ :: r →
          R (printedAfter p u clock)
            (printedAfter (p ++ ⟨u, .printAndRolling clock⟩ :: q) u' clock') := by
  -- the later one of the two rolls, and the reports before it
  have hshape : (∀ p u clock q u' clock' r,
        es = p ++ ⟨u, .printAndRolling clock⟩ :: q ++ ⟨u', .printAndRolling clock'⟩ :: r →
          R (printedAfter p u clock)
            (printedAfter (p ++ ⟨u, .printAndRolling clock⟩ :: q) u' clock')) ↔
      ∀ before e r, es = before ++ e :: r → ∀ u' clock', e = ⟨u', .printAndRolling clock'⟩ →
        ∀ blocks ∈ (initial.run before).2, R blocks (printedAfter before u' clock') := by
    constructor
    · intro h before e r hsplit u' clock' he blocks hmem
      obtain ⟨p, u, clock, q, rfl, rfl⟩ := mem_run.1 hmem
      exact h p u clock q u' clock' r (by rw [hsplit, he])
    · intro h p u clock q u' clock' r hsplit
      exact h _ _ r hsplit u' clock' rfl _ (mem_run.2 ⟨p, u, clock, q, rfl, rfl⟩)
  refine Iff.trans ?_ hshape.symm
  clear hshape
  induction es using List.reverseRecOn with
  | nil => simp [run]
  | append_singleton es e ih =>
      rw [Trace.forall_split_snoc, ← ih]
      obtain ⟨u, op⟩ := e
      cases op with
      | printAndRolling clock =>
          rw [run_snoc_roll, List.pairwise_append]
          refine and_congr_right (fun _ => ⟨fun h u' clock' he blocks hmem => ?_, fun h => ?_⟩)
          · cases he
            exact h.2 blocks hmem _ (List.mem_singleton_self _)
          · refine ⟨List.pairwise_singleton _ _, fun blocks hmem blocks' hmem' => ?_⟩
            rw [List.mem_singleton.1 hmem']
            exact h u clock rfl blocks hmem
      | canRecord b => simp [run_snoc_of_not_roll es ⟨u, .canRecord b⟩ rfl]
      | mergeRecord s => simp [run_snoc_of_not_roll es ⟨u, .mergeRecord s⟩ rfl]

/-- A printed record is one of a grouped piece. -/
theorem exists_piece_of_mem_run {es : List Event} {blocks : List Block} {b : Block}
    (hblocks : blocks ∈ (initial.run es).2) (hb : b ∈ blocks) :
    ∃ piece, b.recordList = groupByMethod piece := by
  obtain ⟨p, u, clock, q, -, rfl⟩ := mem_run.1 hblocks
  obtain ⟨-, -, -, hrecords⟩ := mem_printedAfter.1 hb
  exact ⟨_, hrecords⟩

end TimeCostManager

/-! ## What is pending -/

open TimeCostManager

/-- A sample of `t` is accepted in `before` and nothing rolls after it. -/
def Unrolled (t : String) (before : List Event) : Prop :=
  ∃ p s q, before = p ++ ⟨t, .mergeRecord s⟩ :: q ∧ (initial.run p).1.recording = true ∧
    ∀ e ∈ q, e.operation.isRoll = false

theorem recording_run (t : String) (es : List Event) :
    (initial.run es).1.recording = (logOf t es).recording :=
  ((Refines.initial t).run es).1.recording

theorem current_ne_nil_iff_unrolled {t : String} {es : List Event} :
    (logOf t es).current ≠ [] ↔ Unrolled t es := by
  rw [Ne, current_logOf_eq_nil_iff]
  simp only [Unrolled, recording_run t]
  push Not
  simp only [ne_eq, Bool.not_eq_true]

end Jma
