import Jma.Core.Statistics
import Jma.JavaFloat

set_option autoImplicit false

/-! # Which rows of a report stand out

`printAndRolling` sends a row as a warning when its method has a tenth or more of what all rows have
together, and as plain information otherwise. Both totals are converted to `float` first. As the
rows are sorted by their totals, the warnings come first; and as they share one whole, there are
few. -/

namespace Jma

/-- The loop that adds up `allCost`. -/
def allCost (infos : List StatisticInfo) : Int :=
  infos.foldl (fun allCost info => addLong allCost info.totalCost) 0

/-- `(float) totalCost / (float) allCost >= 0.1f`, the test that makes a row a warning. -/
def isWarn (totalCost allCost : Int) : Bool :=
  (divFloat (toFloat totalCost) (toFloat allCost)).ge tenth

/-! ## The test -/

theorem isWarn_zero_right {totalCost : Int} (h : 0 ≤ totalCost) :
    isWarn totalCost 0 = decide (0 < totalCost) := by
  have hzero : toFloat 0 = 0 := by simp [toFloat, roundFloat]
  rw [isWarn, hzero, divFloat, if_pos rfl]
  rcases h.eq_or_lt with rfl | hpos
  · rw [hzero, if_pos rfl]
    rfl
  · rw [if_neg (toFloat_pos hpos).ne', decide_eq_true hpos]
    simp [JavaFloat.ge, (toFloat_pos hpos).le]

theorem isWarn_of_pos {allCost : Int} (h : 0 < allCost) (totalCost : Int) :
    isWarn totalCost allCost = true ↔
      tenth ≤ roundFloat (toFloat totalCost / toFloat allCost) := by
  rw [isWarn, divFloat, if_neg (toFloat_pos h).ne']
  exact decide_eq_true_iff

/-- A row with more time than a warning is a warning. -/
theorem isWarn_mono {allCost a b : Int} (hall : 0 ≤ allCost) (ha : 0 ≤ a) (hab : a ≤ b)
    (h : isWarn a allCost = true) : isWarn b allCost = true := by
  rcases hall.eq_or_lt with rfl | hpos
  · rw [isWarn_zero_right ha, decide_eq_true_iff] at h
    rw [isWarn_zero_right (ha.trans hab), decide_eq_true_iff]
    exact h.trans_le hab
  · rw [isWarn_of_pos hpos] at h ⊢
    refine h.trans (roundFloat_mono (div_nonneg (toFloat_nonneg ha) (toFloat_pos hpos).le) ?_)
    exact div_le_div_of_nonneg_right (toFloat_mono ha hab) (toFloat_pos hpos).le

/-- A warning has a tenth of the whole, up to the rounding of the totals, the quotient and
    `0.1f`. -/
theorem le_of_isWarn {totalCost allCost : Int} (hall : 0 < allCost) (htotal : 0 ≤ totalCost)
    (h : isWarn totalCost allCost = true) :
    (2 ^ 22 - 1) * allCost ≤ 2 ^ 22 * (10 * totalCost) := by
  have ha : (0 : ℚ) < allCost := by exact_mod_cast hall
  have ht : (0 : ℚ) ≤ totalCost := by exact_mod_cast htotal
  have hquot : 0 ≤ toFloat totalCost / toFloat allCost :=
    div_nonneg (toFloat_nonneg htotal) (toFloat_pos hall).le
  rw [isWarn_of_pos hall] at h
  have hround : 1 / 10 ≤ toFloat totalCost / toFloat allCost * (1 + 1 / 2 ^ 24) :=
    lt_tenth.le.trans (h.trans (Rounding.round_le 24 hquot))
  rw [div_mul_eq_mul_div, le_div_iff₀ (toFloat_pos hall)] at hround
  have hup := toFloat_le htotal
  have hdown := le_toFloat hall.le
  have hle : ((2 : ℚ) ^ 22 - 1) * allCost ≤ 2 ^ 22 * (10 * totalCost) := by nlinarith
  exact_mod_cast hle

/-- A row with a tenth of the whole and a little more is a warning. -/
theorem isWarn_of_le {totalCost allCost : Int} (hall : 0 < allCost) (htotal : 0 ≤ totalCost)
    (h : (2 ^ 22 + 1) * allCost ≤ 2 ^ 22 * (10 * totalCost)) : isWarn totalCost allCost = true := by
  have ha : (0 : ℚ) < allCost := by exact_mod_cast hall
  have hup := toFloat_le hall.le
  have hdown := le_toFloat htotal
  have hle : ((2 : ℚ) ^ 22 + 1) * allCost ≤ 2 ^ 22 * (10 * totalCost) := by exact_mod_cast h
  rw [isWarn_of_pos hall]
  refine roundFloat_mono (by norm_num) ?_
  rw [le_div_iff₀ (toFloat_pos hall)]
  nlinarith

/-- **The threshold is a tenth** as long as the totals fit into a `float`. -/
theorem isWarn_iff_of_le {totalCost allCost : Int} (hall : 0 < allCost) (htotal : 0 ≤ totalCost)
    (hle : totalCost ≤ allCost) (hsmall : allCost ≤ 2 ^ 24) :
    isWarn totalCost allCost = true ↔ allCost ≤ 10 * totalCost := by
  have ha : (0 : ℚ) < allCost := by exact_mod_cast hall
  have hsmall' : (allCost : ℚ) ≤ 2 ^ 24 := by exact_mod_cast hsmall
  rw [isWarn_of_pos hall, toFloat_of_le hall.le hsmall, toFloat_of_le htotal (hle.trans hsmall)]
  have hquot : (0 : ℚ) ≤ totalCost / allCost := div_nonneg (by exact_mod_cast htotal) ha.le
  constructor
  · intro h
    have hround : 1 / 10 < (totalCost : ℚ) / allCost * (1 + 1 / 2 ^ 24) :=
      lt_tenth.trans_le (h.trans (Rounding.round_le 24 hquot))
    rw [div_mul_eq_mul_div, lt_div_iff₀ ha] at hround
    -- what rounding adds is less than one millisecond
    have hlt : (allCost : ℚ) < 10 * totalCost + 1 := by
      by_contra hge
      nlinarith
    have hlt' : allCost < 10 * totalCost + 1 := by exact_mod_cast hlt
    omega
  · intro h
    have h' : (allCost : ℚ) ≤ 10 * totalCost := by exact_mod_cast h
    refine roundFloat_mono (by norm_num) ?_
    rw [le_div_iff₀ ha]
    linarith

/-! ## The rows of a chain -/

/-- The time of all samples of a chain. -/
def chainTime (recordList : List TimeCostRecord) : Int :=
  (recordList.map (fun r => (durations r).sum)).sum

/-- Whether a row of a chain is sent as a warning. -/
def warned (recordList : List TimeCostRecord) (info : StatisticInfo) : Bool :=
  isWarn info.totalCost (allCost (infos recordList))

section

variable {recordList : List TimeCostRecord}
  (hcosts : ∀ r ∈ recordList, ∀ c ∈ r.costs, c.begin ≤ c.end)
  (hsum : chainTime recordList < 2 ^ 63)

include hcosts

theorem chainTime_parts_nonneg :
    ∀ x ∈ recordList.map (fun r => (durations r).sum), 0 ≤ x := by
  intro x hx
  obtain ⟨r, hr, rfl⟩ := List.mem_map.1 hx
  exact List.sum_nonneg (durations_nonneg (hcosts r hr))

theorem durations_sum_le_chainTime {r : TimeCostRecord} (hr : r ∈ recordList) :
    (durations r).sum ≤ chainTime recordList :=
  List.single_le_sum (chainTime_parts_nonneg hcosts) _ (List.mem_map.2 ⟨r, hr, rfl⟩)

include hsum

theorem totalCost_of_mem {r : TimeCostRecord} (hr : r ∈ recordList) :
    (statistic r).totalCost = (durations r).sum :=
  totalCost_statistic (hcosts r hr) ((durations_sum_le_chainTime hcosts hr).trans_lt hsum)

/-- The totals of the rows are the times of the records, in another order. -/
theorem totalCosts_perm : ((infos recordList).map StatisticInfo.totalCost).Perm
    (recordList.map (fun r => (durations r).sum)) := by
  refine ((infos_perm recordList).map _).trans (List.Perm.of_eq ?_)
  rw [List.map_map]
  exact List.map_congr_left (fun r hr => totalCost_of_mem hcosts hsum hr)

theorem totalCost_nonneg {info : StatisticInfo} (h : info ∈ infos recordList) :
    0 ≤ info.totalCost :=
  chainTime_parts_nonneg hcosts _
    ((totalCosts_perm hcosts hsum).subset (List.mem_map.2 ⟨info, h, rfl⟩))

/-- No addition of the loop wraps. -/
theorem allCost_infos : allCost (infos recordList) = chainTime recordList := by
  have hperm := totalCosts_perm hcosts hsum
  have hnonneg : ∀ d ∈ (infos recordList).map StatisticInfo.totalCost, 0 ≤ d :=
    fun d hd => chainTime_parts_nonneg hcosts d (hperm.subset hd)
  have hfold := foldl_addLong (le_refl 0) hnonneg (by rw [hperm.sum_eq, zero_add]; exact hsum)
  rw [zero_add, hperm.sum_eq] at hfold
  rw [allCost, chainTime, ← hfold, List.foldl_map]

end

/-- Rows further down have no more time. -/
theorem pairwise_totalCost (recordList : List TimeCostRecord) :
    (infos recordList).Pairwise (fun a b => b.totalCost ≤ a.totalCost) := by
  refine (StableSort.pairwise_reverse_insertionSort _ (recordList.map statistic)).imp ?_
  intro a b h
  rcases Prod.Lex.toLex_le_toLex.1 (StatisticInfo.isLE_comparator.1 h) with hlt | ⟨heq, -⟩
  · exact hlt.le
  · exact heq.le

/-! ## The warnings of a chain -/

/-- Eleven parts cannot have a tenth of the whole each, even with the rounding. -/
theorem length_le_ten {parts : List Int} {whole : Int} (hpos : 0 < whole)
    (h : ∀ x ∈ parts, (2 ^ 22 - 1) * whole ≤ 2 ^ 22 * (10 * x)) (hsum : parts.sum ≤ whole) :
    parts.length ≤ 10 := by
  have hall : parts.length * ((2 ^ 22 - 1) * whole) ≤ 2 ^ 22 * (10 * parts.sum) := by
    clear hsum
    induction parts with
    | nil => simp
    | cons x rest ih =>
        have hx := h x (List.mem_cons_self ..)
        have hrest := ih (fun y hy => h y (List.mem_cons_of_mem _ hy))
        rw [List.length_cons, List.sum_cons, Nat.cast_add, Nat.cast_one, add_mul, one_mul]
        linarith
  by_contra hlen
  have heleven : (11 : Int) ≤ parts.length := by omega
  nlinarith

section

variable {recordList : List TimeCostRecord}
  (hcosts : ∀ r ∈ recordList, ∀ c ∈ r.costs, c.begin ≤ c.end)
  (hsum : chainTime recordList < 2 ^ 63)

include hcosts hsum

theorem warned_eq {info : StatisticInfo} :
    warned recordList info = isWarn info.totalCost (chainTime recordList) := by
  rw [warned, allCost_infos hcosts hsum]

theorem pairwise_warned : (infos recordList).Pairwise
    (fun a b => warned recordList b = true → warned recordList a = true) := by
  refine (pairwise_totalCost recordList).imp_of_mem (fun _ hb hab h => ?_)
  rw [warned_eq hcosts hsum] at h ⊢
  exact isWarn_mono (List.sum_nonneg (chainTime_parts_nonneg hcosts))
    (totalCost_nonneg hcosts hsum hb) hab h

theorem sum_filter_le (p : StatisticInfo → Bool) :
    (((infos recordList).filter p).map StatisticInfo.totalCost).sum ≤ chainTime recordList := by
  rw [chainTime, ← (totalCosts_perm hcosts hsum).sum_eq]
  refine (List.filter_sublist.map _).sum_le_sum (fun x hx => ?_)
  obtain ⟨info, hinfo, rfl⟩ := List.mem_map.1 hx
  exact totalCost_nonneg hcosts hsum hinfo

/-- Without time there is no warning. -/
theorem warned_eq_false (hzero : chainTime recordList = 0) :
    ∀ info ∈ infos recordList, warned recordList info = false := by
  intro info hinfo
  have hle := List.single_le_sum (chainTime_parts_nonneg hcosts) info.totalCost
    ((totalCosts_perm hcosts hsum).subset (List.mem_map.2 ⟨info, hinfo, rfl⟩))
  rw [← chainTime, hzero] at hle
  rw [warned_eq hcosts hsum, hzero, isWarn_zero_right (totalCost_nonneg hcosts hsum hinfo)]
  exact decide_eq_false hle.not_gt

theorem length_warned_le : ((infos recordList).filter (warned recordList)).length ≤ 10 := by
  rcases (List.sum_nonneg (chainTime_parts_nonneg hcosts)).eq_or_lt with hzero | hpos
  · have hnone := warned_eq_false hcosts hsum hzero.symm
    rw [List.filter_eq_nil_iff.2 (fun info hinfo => by simp [hnone info hinfo])]
    exact Nat.zero_le _
  · rw [← List.length_map StatisticInfo.totalCost]
    refine length_le_ten hpos (fun x hx => ?_) (sum_filter_le hcosts hsum _)
    obtain ⟨info, hinfo, rfl⟩ := List.mem_map.1 hx
    obtain ⟨hinfo, hwarn⟩ := List.mem_filter.1 hinfo
    rw [warned_eq hcosts hsum] at hwarn
    exact le_of_isWarn hpos (totalCost_nonneg hcosts hsum hinfo) hwarn

/-- The first of at most nine rows is a warning, if any time was spent. -/
theorem warned_head (hpos : 0 < chainTime recordList) (hlen : recordList.length ≤ 9) :
    ∃ info, (infos recordList).head? = some info ∧ warned recordList info = true := by
  have hlength : (infos recordList).length = recordList.length := by
    rw [(infos_perm recordList).length_eq, List.length_map]
  have hwhole : ((infos recordList).map StatisticInfo.totalCost).sum = chainTime recordList :=
    (totalCosts_perm hcosts hsum).sum_eq
  have hsorted := pairwise_totalCost recordList
  cases hinfos : infos recordList with
  | nil =>
      rw [hinfos, List.map_nil, List.sum_nil] at hwhole
      omega
  | cons info rest =>
      refine ⟨info, rfl, ?_⟩
      have htotal : 0 ≤ info.totalCost := totalCost_nonneg hcosts hsum (by simp [hinfos])
      rw [hinfos] at hlength hwhole hsorted
      have hmax := List.sum_le_card_nsmul ((info :: rest).map StatisticInfo.totalCost)
        info.totalCost (fun x hx => by
          obtain ⟨i, hi, rfl⟩ := List.mem_map.1 hx
          rcases List.mem_cons.1 hi with rfl | hi
          · exact le_refl _
          · exact (List.pairwise_cons.1 hsorted).1 i hi)
      rw [hwhole, List.length_map, nsmul_eq_mul, hlength] at hmax
      have hnine : chainTime recordList ≤ 9 * info.totalCost :=
        hmax.trans (mul_le_mul_of_nonneg_right (by exact_mod_cast hlen) htotal)
      rw [warned_eq hcosts hsum]
      exact isWarn_of_le hpos htotal (by omega)

end

/-- **What stands out in a report.** If no call of a chain ends before it begins, and all together
    take less than `2 ^ 63` milliseconds, the warnings among its rows are the first ones, there are
    at most ten of them, and of up to nine rows the first is one, unless no time was spent at
    all. -/
theorem warned_rows_first (recordList : List TimeCostRecord)
    (hcosts : ∀ r ∈ recordList, ∀ c ∈ r.costs, c.begin ≤ c.end)
    (hsum : chainTime recordList < 2 ^ 63) :
    (infos recordList).filter (warned recordList)
        = (infos recordList).takeWhile (warned recordList) ∧
      ((infos recordList).filter (warned recordList)).length ≤ 10 ∧
      (0 < chainTime recordList → recordList.length ≤ 9 →
        ∃ info, (infos recordList).head? = some info ∧ warned recordList info = true) :=
  ⟨StableSort.filter_eq_takeWhile (pairwise_warned hcosts hsum), length_warned_le hcosts hsum,
    warned_head hcosts hsum⟩

/-- An entry call of 100 ms with three short calls inside. -/
def shortCalls : List TimeCostRecord :=
  [⟨⟨"p.A", "step", "()V"⟩, [], 2, [⟨10, 13⟩, ⟨20, 22⟩]⟩,
   ⟨⟨"p.A", "idle", "()V"⟩, [], 1, [⟨30, 30⟩]⟩, ⟨⟨"p.A", "run", "()V"⟩, [], 1, [⟨0, 100⟩]⟩]

theorem shortCalls_rows_first :
    ((infos shortCalls).filter (warned shortCalls)).length ≤ 10 ∧
      ∃ info, (infos shortCalls).head? = some info ∧ warned shortCalls info = true := by
  obtain ⟨-, hten, hfirst⟩ := warned_rows_first shortCalls (by decide) (by decide)
  exact ⟨hten, hfirst (by decide) (by decide)⟩

/-- **Which rows are warnings.** The row of a record is one exactly when the record has a tenth of
    the time of the chain, as long as that is no more than `2 ^ 24` milliseconds. Beyond, the
    conversion to `float` moves the threshold by less than one part in `2 ^ 22`. -/
theorem warned_iff_tenth (recordList : List TimeCostRecord)
    (hcosts : ∀ r ∈ recordList, ∀ c ∈ r.costs, c.begin ≤ c.end)
    (hsum : chainTime recordList < 2 ^ 63) (hpos : 0 < chainTime recordList)
    (r : TimeCostRecord) (hr : r ∈ recordList) :
    (chainTime recordList ≤ 2 ^ 24 →
      (warned recordList (statistic r) = true ↔
        chainTime recordList ≤ 10 * (durations r).sum)) ∧
    (warned recordList (statistic r) = true →
      (2 ^ 22 - 1) * chainTime recordList ≤ 2 ^ 22 * (10 * (durations r).sum)) ∧
    ((2 ^ 22 + 1) * chainTime recordList ≤ 2 ^ 22 * (10 * (durations r).sum) →
      warned recordList (statistic r) = true) := by
  have htotal := totalCost_of_mem hcosts hsum hr
  have hnonneg : 0 ≤ (durations r).sum := List.sum_nonneg (durations_nonneg (hcosts r hr))
  rw [warned_eq hcosts hsum, htotal]
  exact ⟨isWarn_iff_of_le hpos hnonneg (durations_sum_le_chainTime hcosts hr),
    le_of_isWarn hpos hnonneg, isWarn_of_le hpos hnonneg⟩

/-- The five milliseconds of `step` are less than a tenth of 105. -/
theorem shortCalls_step_not_warned :
    ¬warned shortCalls (statistic ⟨⟨"p.A", "step", "()V"⟩, [], 2, [⟨10, 13⟩, ⟨20, 22⟩]⟩)
        = true := by
  obtain ⟨hiff, -⟩ := warned_iff_tenth shortCalls (by decide) (by decide) (by decide)
    ⟨⟨"p.A", "step", "()V"⟩, [], 2, [⟨10, 13⟩, ⟨20, 22⟩]⟩ (by decide)
  rw [hiff (by decide)]
  decide

/-- Five milliseconds beyond `2 ^ 24` a row with less than a tenth is a warning. -/
example : isWarn 1677722 (2 ^ 24 + 5) = true ∧ 10 * 1677722 < (2 : Int) ^ 24 + 5 := by
  decide +kernel

end Jma
