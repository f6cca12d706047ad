import Jma.Advice.ElapsedTime
import Jma.Report.Shares

set_option autoImplicit false

/-! # The entry's share of its report

The total that a row is compared with adds up the elapsed times of all calls, so a stretch of time
counts once for every recorded call that is open then. The whole is the time of the entry call
multiplied by the depth of the nesting, at most. If calls nest deep, a row with a good part of the
entry call's time, even the entry itself, is less than a tenth of the whole. -/

namespace Jma

namespace Calls

/-- How many recorded calls are open at the same time, at most. -/
def nesting : Calls → Nat
  | nil => 0
  | call inv nested next => max ((if inv.normal then 1 else 0) + nested.nesting) next.nesting

/-- The same calls, all of one method. -/
def rename (k : MethodIdentifier) : Calls → Calls
  | nil => nil
  | call inv nested next => call { inv with method := k } (nested.rename k) (next.rename k)

@[simp] theorem readings_rename (k : MethodIdentifier) (calls : Calls) :
    (calls.rename k).readings = calls.readings := by
  induction calls with
  | nil => rfl
  | call inv nested next ihn ihx => simp only [rename, readings, ihn, ihx]

theorem depth_rename (k : MethodIdentifier) (calls : Calls) :
    (calls.rename k).depth k = calls.nesting := by
  induction calls with
  | nil => rfl
  | call inv nested next ihn ihx => simp only [rename, depth, nesting, ihn, ihx, and_true]

theorem costs_rename (cfg : GlobalConfig) (k : MethodIdentifier) (calls : Calls) :
    ((calls.rename k).samples cfg).map Sample.cost = (calls.samples cfg).map Sample.cost := by
  induction calls with
  | nil => rfl
  | call inv nested next ihn ihx =>
      simp only [rename, samples, List.map_append, ihn, ihx]
      cases inv.normal <;> rfl

theorem method_rename (cfg : GlobalConfig) (k : MethodIdentifier) (calls : Calls) :
    ∀ s ∈ (calls.rename k).samples cfg, s.method = k := by
  induction calls with
  | nil => simp [rename, samples]
  | call inv nested next ihn ihx =>
      intro s hs
      simp only [rename, samples, List.mem_append] at hs
      rcases hs with (hs | hs) | hs
      · exact ihn s hs
      · split at hs
        · rw [List.mem_singleton.1 hs]
          rfl
        · simp at hs
      · exact ihx s hs

/-- All recorded calls together take no longer than the time around them, times the depth of the
    nesting: who is called plays no part. -/
theorem sum_costs_le (cfg : GlobalConfig) {a b : Int} {calls : Calls} (h : Clocked a b calls)
    (hab : a ≤ b) : ((calls.samples cfg).map (fun s => s.cost.end - s.cost.begin)).sum
      ≤ calls.nesting * (b - a) := by
  let k : MethodIdentifier := ⟨"", "", ""⟩
  have hclocked : Clocked a b (calls.rename k) := by
    obtain ⟨hsorted, hlower, hupper⟩ := h
    rw [← readings_rename k calls] at hsorted hlower hupper
    exact ⟨hsorted, hlower, hupper⟩
  have hle := elapsedIn_le cfg k hclocked hab
  rw [depth_rename] at hle
  have hall : ((calls.rename k).samples cfg).filter (fun s => s.method = k)
      = (calls.rename k).samples cfg :=
    List.filter_eq_self.2 (fun s hs => decide_eq_true (method_rename cfg k calls s hs))
  have hcosts := congrArg (List.map (fun c : CostPair => c.end - c.begin))
    (costs_rename cfg k calls)
  rw [List.map_map, List.map_map] at hcosts
  rw [elapsedIn, hall] at hle
  exact (congrArg List.sum hcosts).symm.le.trans hle

end Calls

/-- A report adds up the times of the samples it is made of. -/
theorem chainTime_groupByMethod (piece : List Sample) : chainTime (groupByMethod piece)
    = (piece.map (fun s => s.cost.end - s.cost.begin)).sum := by
  have hshown : ∀ records : List TimeCostRecord,
      chainTime records = ((samplesIn records).map (fun x => x.2.end - x.2.begin)).sum := by
    intro records
    rw [chainTime, samplesIn, List.map_flatMap, List.flatMap, List.sum_flatten, List.map_map]
    refine congrArg List.sum (List.map_congr_left (fun r _ => ?_))
    rw [Function.comp_apply, durations, List.map_map]
    rfl
  rw [hshown, ((samplesIn_groupByMethod_perm piece).map _).sum_eq, List.map_map]
  rfl

theorem costs_le_of_clocked {cfg : GlobalConfig} {a b : Int} {calls : Calls}
    (h : Clocked a b calls) :
    ∀ r ∈ groupByMethod (calls.samples cfg), ∀ c ∈ r.costs, c.begin ≤ c.end := by
  intro r hr c hc
  rw [costs_of_mem_groupByMethod hr] at hc
  obtain ⟨s, hs, rfl⟩ := List.mem_map.1 hc
  exact (h.sample s (List.mem_filter.1 hs).1).2.1

/-- **The entry's share.** One thread calls the entry from a fresh store, with any calls inside,
    under a clock that does not go back, and `depth` recorded calls are open at the same time at
    most. The whole that the rows of the report share is at least the time of the entry call and at
    most `depth` times it. So a row with less than a tenth of the entry call's time is never a
    warning, one with `depth` tenths of it always is, up to the rounding, and the entry's own row is
    one as long as calls nest at most nine deep. -/
theorem entry_share (cfg : GlobalConfig) (t : String) {calls nested : Calls}
    {before : List Operation} {inv : Invocation} {depth : Nat}
    (h : calls.OutermostEnter cfg before inv nested) (hfirst : .canRecord true ∉ before)
    (hsingle : nested.hasEnter cfg = false) (hnormal : inv.normal = true)
    (hclock : (Calls.call inv nested .nil).readings.Pairwise (· ≤ ·)) (hpos : inv.start < inv.end)
    (hdepth : (Calls.call inv nested .nil).nesting ≤ depth)
    (hlong : depth * (inv.end - inv.start) < 2 ^ 63) :
    inv.end - inv.start ≤ chainTime (report cfg t before inv nested) ∧
    chainTime (report cfg t before inv nested) ≤ depth * (inv.end - inv.start) ∧
    ∀ r ∈ report cfg t before inv nested,
      (warned (report cfg t before inv nested) (statistic r) = true →
        (2 ^ 22 - 1) * (inv.end - inv.start) ≤ 2 ^ 22 * (10 * (durations r).sum)) ∧
      ((2 ^ 22 + 1) * (depth * (inv.end - inv.start)) ≤ 2 ^ 22 * (10 * (durations r).sum) →
        warned (report cfg t before inv nested) (statistic r) = true) ∧
      (r.method = inv.method → depth ≤ 9 →
        warned (report cfg t before inv nested) (statistic r) = true) := by
  obtain ⟨hle, hclocked⟩ := clocked_of_sorted hnormal hclock
  rw [report_of_single h hfirst hsingle hnormal]
  set samples := (Calls.call inv nested .nil).samples cfg with hsamples
  have hcosts : ∀ r ∈ groupByMethod samples, ∀ c ∈ r.costs, c.begin ≤ c.end :=
    costs_le_of_clocked hclocked
  have hwhole : chainTime (groupByMethod samples) ≤ depth * (inv.end - inv.start) := by
    rw [chainTime_groupByMethod]
    exact (Calls.sum_costs_le cfg hclocked hle).trans
      (mul_le_mul_of_nonneg_right (by exact_mod_cast hdepth) (by omega))
  have hentry : ∀ r ∈ groupByMethod samples, r.method = inv.method →
      (durations r).sum = inv.end - inv.start := by
    intro r hr hmethod
    simp [durations, costs_of_entry h.isEnter hsingle hnormal hr hmethod]
  obtain ⟨own, hown, hownMethod⟩ : ∃ r ∈ groupByMethod samples, r.method = inv.method :=
    exists_record_of_mem (s := inv.sample cfg) (by simp [hsamples, Calls.samples, hnormal])
  have hpart : inv.end - inv.start ≤ chainTime (groupByMethod samples) :=
    hentry own hown hownMethod ▸ durations_sum_le_chainTime hcosts hown
  have hsum := hwhole.trans_lt hlong
  refine ⟨hpart, hwhole, fun r hr => ?_⟩
  have hnonneg : 0 ≤ (durations r).sum := List.sum_nonneg (durations_nonneg (hcosts r hr))
  have hlarge : (2 ^ 22 + 1) * (depth * (inv.end - inv.start)) ≤ 2 ^ 22 * (10 * (durations r).sum) →
      warned (groupByMethod samples) (statistic r) = true := by
    intro hshare
    rw [warned_eq hcosts hsum, totalCost_of_mem hcosts hsum hr]
    exact isWarn_of_le (by omega) hnonneg
      ((mul_le_mul_of_nonneg_left hwhole (by norm_num)).trans hshare)
  refine ⟨fun hwarn => ?_, hlarge, fun hmethod hnine => hlarge ?_⟩
  · rw [warned_eq hcosts hsum, totalCost_of_mem hcosts hsum hr] at hwarn
    have htenth := le_of_isWarn (by omega) hnonneg hwarn
    omega
  · rw [hentry r hr hmethod]
    have htimes : (depth : Int) * (inv.end - inv.start) ≤ 9 * (inv.end - inv.start) :=
      mul_le_mul_of_nonneg_right (by exact_mod_cast hnine) (by omega)
    omega

/-- The entry of 10 ms stands out although `step` is charged 20. -/
theorem stepTwice_entry_warned :
    ∃ r ∈ report enterRun "main" [] (callOf "run" 0 10) stepTwice, r.method.methodName = "run" ∧
      warned (report enterRun "main" [] (callOf "run" 0 10) stepTwice) (statistic r) = true := by
  obtain ⟨-, -, hrows⟩ := @entry_share enterRun "main" _ _ _ _ 3 stepTwice_outermost (by simp)
    (by decide) rfl (by decide) (by decide) (by decide) (by decide)
  obtain ⟨r, hr, hmethod⟩ : ∃ r ∈ report enterRun "main" [] (callOf "run" 0 10) stepTwice,
      r.method = (callOf "run" 0 10).method := by
    decide
  exact ⟨r, hr, congrArg MethodIdentifier.methodName hmethod,
    (hrows r hr).2.2 hmethod (by decide)⟩

/-- `n` calls of `p.A#step` of 10 ms each, every one inside the one before. -/
def steps : Nat → Calls
  | 0 => .nil
  | n + 1 => .call (callOf "step" 0 10) (steps n) .nil

/-- With ten of them inside, the entry has one eleventh of the whole. -/
example : ((infos (report enterRun "main" [] (callOf "run" 0 10) (steps 10))).map (fun info =>
    (info.record.method.methodName, warned (report enterRun "main" [] (callOf "run" 0 10)
      (steps 10)) info))) = [("step", true), ("run", false)] := by
  decide +kernel

end Jma
