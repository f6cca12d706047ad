import Jma.Core.Blocks
import Jma.JavaLong
import Jma.Lib.StableSort
import Mathlib.Algebra.Order.BigOperators.Group.List
import Mathlib.Algebra.Order.Ring.Int
import Mathlib.Data.Prod.Lex

set_option autoImplicit false

/-! # The rows of a report

`printAndRolling` turns the records of a rolled chain into `StatisticInfo` rows: one loop over the
costs of a record for the total, the maximum and the minimum, one division for the average, then a
stable ascending sort and a reversal. -/

namespace Jma

structure StatisticInfo where
  record : TimeCostRecord
  totalCost : Int
  avgCost : Int
  maxCost : Int
  minCost : Int
  deriving DecidableEq, Repr

namespace StatisticInfo

/-- `new StatisticInfo()` with its record: the `long` fields start at 0. -/
def new (r : TimeCostRecord) : StatisticInfo := ⟨r, 0, 0, 0, 0⟩

/-- One turn of the loop over the costs. -/
def addCost (info : StatisticInfo) (cost : CostPair) : StatisticInfo :=
  let c := subLong cost.end cost.begin
  let info := { info with totalCost := addLong info.totalCost c }
  let info := if c > info.maxCost then { info with maxCost := c } else info
  if c < info.minCost then { info with minCost := c } else info

theorem addCost_eq (info : StatisticInfo) (cost : CostPair) :
    info.addCost cost = { info with
      totalCost := addLong info.totalCost (subLong cost.end cost.begin)
      maxCost := max info.maxCost (subLong cost.end cost.begin)
      minCost := min info.minCost (subLong cost.end cost.begin) } := by
  unfold addCost
  generalize subLong cost.end cost.begin = c
  rw [max_def_lt, min_comm, min_def_lt]
  by_cases hmax : info.maxCost < c <;> by_cases hmin : c < info.minCost <;> simp [hmax, hmin]

/-- The comparator of `sorted`. -/
def comparator (a b : StatisticInfo) : Ordering :=
  (compare a.totalCost b.totalCost).then ((compare a.avgCost b.avgCost).then
    ((compare a.maxCost b.maxCost).then (compare a.minCost b.minCost)))

/-- The four values that rows are ordered by, the first one weighing most. -/
def key (info : StatisticInfo) : Int ×ₗ Int ×ₗ Int ×ₗ Int :=
  toLex (info.totalCost, toLex (info.avgCost, toLex (info.maxCost, info.minCost)))

/-- The comparator is the lexicographic order of the keys. -/
theorem isLE_comparator {a b : StatisticInfo} : (comparator a b).isLE = true ↔ a.key ≤ b.key := by
  have hlast : (compare a.minCost b.minCost).isLE = true ↔ a.minCost ≤ b.minCost :=
    Ordering.ne_gt_iff_isLE.symm.trans compare_le_iff_le
  simp only [comparator, key, Ordering.isLE_then_iff_or, Prod.Lex.toLex_le_toLex,
    compare_lt_iff_lt, compare_eq_iff_eq, hlast]

/-- What a printed row shows of its record and the statistics. -/
def row (info : StatisticInfo) : MethodIdentifier × Int × Int × Int × Int × Nat :=
  (info.record.method, info.totalCost, info.avgCost, info.minCost, info.maxCost, info.record.count)

end StatisticInfo

open StatisticInfo

/-- The function mapped over the records. The count of a record is never zero
    (`count_groupByMethod`). -/
def statistic (r : TimeCostRecord) : StatisticInfo :=
  let info := r.costs.foldl addCost (.new r)
  { info with avgCost := divLong info.totalCost r.count }

/-- The rows of a chain in the order in which they are printed: `sorted(...)`, then
    `Collections.reverse`. -/
def infos (recordList : List TimeCostRecord) : List StatisticInfo :=
  ((recordList.map statistic).insertionSort (fun a b => (comparator a b).isLE = true)).reverse

/-! ## The order of the rows -/

instance : Std.Total (fun a b : StatisticInfo => (comparator a b).isLE = true) where
  total a b := by
    rw [isLE_comparator, isLE_comparator]
    exact le_total a.key b.key

instance : IsTrans StatisticInfo (fun a b => (comparator a b).isLE = true) where
  trans a b c hab hbc := by
    rw [isLE_comparator] at hab hbc ⊢
    exact hab.trans hbc

theorem infos_perm (recordList : List TimeCostRecord) :
    (infos recordList).Perm (recordList.map statistic) :=
  StableSort.reverse_insertionSort_perm _ _

theorem mem_infos {recordList : List TimeCostRecord} {info : StatisticInfo} :
    info ∈ infos recordList ↔ ∃ r ∈ recordList, statistic r = info :=
  (infos_perm recordList).mem_iff.trans List.mem_map

/-- **The order of a report.** What a thread's rolls print are its chains, in which the records
    stand in the order of their creation; and for every chain there is one row per record, the keys
    do not increase, and rows with the same key stand in the reverse order of their records. -/
theorem rows_in_order (es : List Event) (t : String) :
    (TimeCostManager.initial.run es).2.map (printedFor t) = (logOf t es).rolled.map groupByMethod ∧
    (∀ piece, (groupByMethod piece).map TimeCostRecord.method
      = (piece.map Sample.method).eraseDups) ∧
    ∀ recordList,
      (infos recordList).Perm (recordList.map statistic) ∧
      (infos recordList).Pairwise (fun a b => b.key ≤ a.key) ∧
      ∀ k, (infos recordList).filter (fun info => info.key = k)
        = ((recordList.map statistic).filter (fun info => info.key = k)).reverse := by
  refine ⟨printed_run t es, fun piece => ?_, fun recordList => ⟨infos_perm recordList, ?_, ?_⟩⟩
  · rw [map_method_groupByMethod, Grouping.map_fst_groups]
  · refine (StableSort.pairwise_reverse_insertionSort _ (recordList.map statistic)).imp ?_
    exact fun h => isLE_comparator.1 h
  · intro k
    refine StableSort.filter_reverse_insertionSort _ (fun a b ha hb => ?_) _
    rw [isLE_comparator, of_decide_eq_true ha, of_decide_eq_true hb]

/-! ## The values of a row -/

/-- The loop over the costs, as three loops over the durations. -/
theorem foldl_addCost (costs : List CostPair) (info : StatisticInfo) :
    costs.foldl addCost info = { info with
      totalCost := (costs.map (fun c => subLong c.end c.begin)).foldl addLong info.totalCost
      maxCost := (costs.map (fun c => subLong c.end c.begin)).foldl max info.maxCost
      minCost := (costs.map (fun c => subLong c.end c.begin)).foldl min info.minCost } := by
  induction costs generalizing info with
  | nil => rfl
  | cons cost rest ih => rw [List.foldl_cons, ih, addCost_eq]; rfl

theorem record_statistic (r : TimeCostRecord) : (statistic r).record = r := by
  rw [statistic, foldl_addCost]
  rfl

/-- The durations of the samples of a record. -/
def durations (r : TimeCostRecord) : List Int := r.costs.map (fun c => c.end - c.begin)

theorem length_durations (r : TimeCostRecord) : (durations r).length = r.costs.length :=
  List.length_map ..

/-- A row is the exact summary of the samples of its record. -/
structure ExactSummary (r : TimeCostRecord) (info : StatisticInfo) : Prop where
  total : info.totalCost = (durations r).sum
  max_mem : info.maxCost ∈ durations r
  le_max : ∀ d ∈ durations r, d ≤ info.maxCost
  min_mem : info.minCost ∈ durations r
  min_le : ∀ d ∈ durations r, info.minCost ≤ d
  /-- The division of integers rounds down. -/
  avg : info.avgCost = (durations r).sum / (durations r).length
  between : info.minCost ≤ info.avgCost ∧ info.avgCost ≤ info.maxCost
  constant : (∀ d ∈ durations r, ∀ d' ∈ durations r, d = d') →
    info.minCost = info.avgCost ∧ info.avgCost = info.maxCost

theorem foldl_addLong {l : List Int} {a : Int} (ha : 0 ≤ a) (hl : ∀ d ∈ l, 0 ≤ d)
    (hsum : a + l.sum < 2 ^ 63) : l.foldl addLong a = a + l.sum := by
  induction l generalizing a with
  | nil => simp
  | cons d rest ih =>
      have hd : 0 ≤ d := hl d (List.mem_cons_self ..)
      have hrest : ∀ d ∈ rest, 0 ≤ d := fun d' hd' => hl d' (List.mem_cons_of_mem _ hd')
      have hnonneg := List.sum_nonneg hrest
      rw [List.sum_cons] at hsum ⊢
      have hadd : addLong a d = a + d := bmod_of_small (by omega) (by omega)
      rw [List.foldl_cons, hadd, ih (by omega) hrest (by omega)]
      omega

/-- A sum that wraps is shown too small, never too large. -/
theorem foldl_addLong_le {l : List Int} {a : Int} (ha : -2 ^ 63 ≤ a) (hl : ∀ d ∈ l, 0 ≤ d) :
    l.foldl addLong a ≤ a + l.sum := by
  induction l generalizing a with
  | nil => simp
  | cons d rest ih =>
      have hd : 0 ≤ d := hl d (List.mem_cons_self ..)
      have hrest := ih (neg_le_addLong a d) (fun d' hd' => hl d' (List.mem_cons_of_mem _ hd'))
      have hadd : addLong a d ≤ a + d := addLong_le (by omega)
      rw [List.foldl_cons, List.sum_cons]
      omega

/-- The maximum starts from 0, which no duration is below. -/
theorem foldl_max {l : List Int} (hne : l ≠ []) (hl : ∀ d ∈ l, 0 ≤ d) :
    l.foldl max 0 ∈ l ∧ ∀ d ∈ l, d ≤ l.foldl max 0 := by
  have hmax : (0 :: l).max? = some (l.foldl max 0) := List.max?_cons'
  obtain ⟨hmem, hle⟩ := List.max?_eq_some_iff.1 hmax
  have hle' : ∀ d ∈ l, d ≤ l.foldl max 0 := fun d hd => hle d (List.mem_cons_of_mem _ hd)
  refine ⟨?_, hle'⟩
  rcases List.mem_cons.1 hmem with hzero | hmem
  · obtain ⟨d, hd⟩ := List.exists_mem_of_ne_nil l hne
    have hd0 : d = l.foldl max 0 := le_antisymm (hle' d hd) (hzero.le.trans (hl d hd))
    exact hd0 ▸ hd
  · exact hmem

/-- The minimum starts from 0, too, and stays there. -/
theorem foldl_min {l : List Int} (hl : ∀ d ∈ l, 0 ≤ d) : l.foldl min 0 = 0 := by
  have hmin : (0 :: l).min? = some (l.foldl min 0) := List.min?_cons'
  obtain ⟨hmem, hle⟩ := List.min?_eq_some_iff.1 hmin
  refine le_antisymm (hle 0 (List.mem_cons_self ..)) ?_
  rcases List.mem_cons.1 hmem with hzero | hmem
  · exact hzero.ge
  · exact hl _ hmem

/-- A subtraction of the loop does not wrap while the call takes less than `2 ^ 63` milliseconds. -/
theorem map_subLong_of_lt {r : TimeCostRecord}
    (h : ∀ c ∈ r.costs, c.begin ≤ c.end ∧ c.end - c.begin < 2 ^ 63) :
    r.costs.map (fun c => subLong c.end c.begin) = durations r := by
  refine List.map_congr_left (fun c hc => ?_)
  obtain ⟨hle, hlt⟩ := h c hc
  exact subLong_of_small (by omega) hlt

section

variable {r : TimeCostRecord} (hcosts : ∀ c ∈ r.costs, c.begin ≤ c.end)
  (hsum : (durations r).sum < 2 ^ 63)

include hcosts

theorem durations_nonneg : ∀ d ∈ durations r, 0 ≤ d := by
  intro d hd
  obtain ⟨c, hc, rfl⟩ := List.mem_map.1 hd
  have := hcosts c hc
  omega

include hsum

/-- No subtraction of the loop wraps. -/
theorem map_subLong_costs : r.costs.map (fun c => subLong c.end c.begin) = durations r := by
  refine map_subLong_of_lt (fun c hc => ⟨hcosts c hc, ?_⟩)
  have hd : c.end - c.begin ∈ durations r := List.mem_map.2 ⟨c, hc, rfl⟩
  have hle := List.single_le_sum (durations_nonneg hcosts) _ hd
  omega

theorem totalCost_statistic : (statistic r).totalCost = (durations r).sum := by
  rw [statistic, foldl_addCost, map_subLong_costs hcosts hsum]
  have := foldl_addLong (le_refl 0) (durations_nonneg hcosts) (by simpa using hsum)
  simpa [StatisticInfo.new] using this

theorem maxCost_statistic (hne : durations r ≠ []) : (statistic r).maxCost ∈ durations r ∧
    ∀ d ∈ durations r, d ≤ (statistic r).maxCost := by
  rw [statistic, foldl_addCost, map_subLong_costs hcosts hsum]
  exact foldl_max hne (durations_nonneg hcosts)

theorem minCost_statistic : (statistic r).minCost = 0 := by
  rw [statistic, foldl_addCost, map_subLong_costs hcosts hsum]
  exact foldl_min (durations_nonneg hcosts)

theorem avgCost_statistic (hcount : 1 ≤ r.count) :
    (statistic r).avgCost = (durations r).sum / r.count := by
  have htotal : (statistic r).avgCost = divLong (statistic r).totalCost r.count := rfl
  rw [htotal, totalCost_statistic hcosts hsum]
  exact divLong_of_small (List.sum_nonneg (durations_nonneg hcosts)) hsum (by omega)

end

/-- Whether the sum wraps or not, the total is at most the time that the calls took together. -/
theorem totalCost_statistic_le {r : TimeCostRecord}
    (h : ∀ c ∈ r.costs, c.begin ≤ c.end ∧ c.end - c.begin < 2 ^ 63) :
    (statistic r).totalCost ≤ (durations r).sum := by
  rw [statistic, foldl_addCost, map_subLong_of_lt h]
  have hsum := foldl_addLong_le (a := 0) (by omega) (durations_nonneg (fun c hc => (h c hc).1))
  simpa [StatisticInfo.new] using hsum

/-! ## When a row is exact -/

/-- **When a row is the exact summary of its samples.** The total, the maximum and the average of a
    printed record are right; the minimum is 0, so the row is right iff some sample took no time. -/
theorem exactSummary_iff (es : List Event) (blocks : List Block) (b : Block) (r : TimeCostRecord)
    (hblocks : blocks ∈ (TimeCostManager.initial.run es).2) (hb : b ∈ blocks)
    (hr : r ∈ b.recordList) (hcosts : ∀ c ∈ r.costs, c.begin ≤ c.end)
    (hsum : (r.costs.map (fun c => c.end - c.begin)).sum < 2 ^ 63) :
    ExactSummary r (statistic r) ↔ ∃ c ∈ r.costs, c.begin = c.end := by
  obtain ⟨piece, hpiece⟩ := TimeCostManager.exists_piece_of_mem_run hblocks hb
  obtain ⟨hpos, hcount⟩ := count_groupByMethod (hpiece ▸ hr)
  have hne : durations r ≠ [] := by
    rw [← List.length_pos_iff_ne_nil, length_durations, ← hcount]
    exact hpos
  have hnonneg := durations_nonneg hcosts
  have htotal := totalCost_statistic hcosts hsum
  have hmin := minCost_statistic hcosts hsum
  obtain ⟨hmaxmem, hlemax⟩ := maxCost_statistic hcosts hsum hne
  have havg := avgCost_statistic hcosts hsum hpos
  have hzero : 0 ∈ durations r ↔ ∃ c ∈ r.costs, c.begin = c.end := by
    simp only [durations, List.mem_map]
    refine exists_congr (fun c => and_congr_right (fun _ => ?_))
    omega
  rw [← hzero]
  constructor
  · intro h
    rw [← hmin]
    exact h.min_mem
  · intro h0
    have hmax : (durations r).sum ≤ r.count * (statistic r).maxCost := by
      have := List.sum_le_card_nsmul (durations r) _ hlemax
      rwa [length_durations, ← hcount, nsmul_eq_mul] at this
    have hbetween : (statistic r).minCost ≤ (statistic r).avgCost ∧
        (statistic r).avgCost ≤ (statistic r).maxCost := by
      rw [hmin, havg]
      refine ⟨Int.ediv_nonneg (List.sum_nonneg hnonneg) (by omega), ?_⟩
      exact Int.ediv_le_of_le_mul (by omega) (by rwa [mul_comm] at hmax)
    refine ⟨htotal, hmaxmem, hlemax, hmin ▸ h0, fun d hd => hmin ▸ hnonneg d hd, ?_, hbetween, ?_⟩
    · rw [havg, length_durations, hcount]
    · intro hall
      have hsame : (statistic r).minCost = (statistic r).maxCost :=
        hall _ (hmin ▸ h0) _ hmaxmem
      omega

/-! ### An entry call -/

section EntryCall

/-- A record with a single sample. -/
def callRecord (begin «end» : Int) : TimeCostRecord :=
  ⟨⟨"p.A", "run", "()V"⟩, [], 1, [⟨begin, «end»⟩]⟩

/-- An entry call without inner calls. -/
def entryCall (begin «end» : Int) : List Event :=
  [⟨"main", .canRecord true⟩, ⟨"main", .mergeRecord ⟨⟨"p.A", "run", "()V"⟩, [], ⟨begin, «end»⟩⟩⟩,
   ⟨"main", .printAndRolling (fun _ => «end»)⟩]

/-- The row of a single call that takes 5 ms shows a minimum of 0. -/
theorem five_millis_not_exact :
    [⟨"main", "main", 1, [callRecord 0 5]⟩] ∈ (TimeCostManager.initial.run (entryCall 0 5)).2 ∧
      (∀ c ∈ (callRecord 0 5).costs, c.begin ≤ c.end) ∧
      ((callRecord 0 5).costs.map (fun c => c.end - c.begin)).sum < 2 ^ 63 ∧
      ¬ExactSummary (callRecord 0 5) (statistic (callRecord 0 5)) :=
  ⟨by decide, by decide, by decide, fun h => absurd h.min_mem (by decide)⟩

/-- What `run` calls: `step`, which takes 6 ms, then less than one tick of the clock, then 2 ms. -/
def stepRecord : TimeCostRecord := ⟨⟨"p.A", "step", "()V"⟩, [], 3, [⟨4, 10⟩, ⟨12, 12⟩, ⟨15, 17⟩]⟩

/-- An entry call of 17 ms with the calls of `step` inside. -/
def stepCalls : List Event :=
  ⟨"main", .canRecord true⟩ ::
    stepRecord.costs.map (fun cost => ⟨"main", .mergeRecord ⟨stepRecord.method, [], cost⟩⟩) ++
    [⟨"main", .mergeRecord ⟨⟨"p.A", "run", "()V"⟩, [], ⟨3, 20⟩⟩⟩,
     ⟨"main", .printAndRolling (fun _ => 20)⟩]

/-- Of three calls one takes no time, so their row is exact. -/
theorem step_exact : ExactSummary stepRecord (statistic stepRecord) :=
  (exactSummary_iff stepCalls [⟨"main", "main", 1, [stepRecord, callRecord 3 20]⟩]
    ⟨"main", "main", 1, [stepRecord, callRecord 3 20]⟩ stepRecord (by decide) (by decide)
    (by decide) (by decide) (by decide)).2 ⟨⟨12, 12⟩, by decide, rfl⟩

end EntryCall

end Jma
