import Jma.Advice.EntryReport
import Jma.Core.Statistics

set_option autoImplicit false

/-! # Charged time and elapsed time

A row charges its method with the elapsed time of every one of its calls. The calls of a thread are
well nested, so under a clock that does not go back the calls of a method that are not inside each
other take no longer together than the entry call around them. A call inside another one of the same
method is charged a second time: `total_le_depth_mul_elapsed` bounds the total by the elapsed time
times the depth of that nesting. -/

namespace Jma

namespace Calls

/-- The clock readings that the samples are made of, in the order in which they are taken. -/
def readings : Calls → List Int
  | nil => []
  | call inv nested next =>
      inv.start :: (nested.readings ++ ((if inv.normal then [inv.end] else []) ++ next.readings))

/-- How many recorded calls of `k` are open at the same time, at most. A call that throws is not
    recorded. -/
def depth (k : MethodIdentifier) : Calls → Nat
  | nil => 0
  | call inv nested next =>
      max ((if inv.normal ∧ inv.method = k then 1 else 0) + nested.depth k) (next.depth k)

end Calls

/-- The time that the samples of `k` took together. -/
def elapsedIn (k : MethodIdentifier) (samples : List Sample) : Int :=
  ((samples.filter (fun s => s.method = k)).map (fun s => s.cost.end - s.cost.begin)).sum

theorem elapsedIn_append (k : MethodIdentifier) (samples samples' : List Sample) :
    elapsedIn k (samples ++ samples') = elapsedIn k samples + elapsedIn k samples' := by
  simp [elapsedIn]

theorem elapsedIn_singleton (k : MethodIdentifier) (s : Sample) :
    elapsedIn k [s] = if s.method = k then s.cost.end - s.cost.begin else 0 := by
  by_cases h : s.method = k <;> simp [elapsedIn, h]

/-! ## The samples of a tree of calls -/

/-- The readings of `calls` do not decrease and lie between `a` and `b`. -/
structure Clocked (a b : Int) (calls : Calls) : Prop where
  sorted : calls.readings.Pairwise (· ≤ ·)
  lower : ∀ x ∈ calls.readings, a ≤ x
  upper : ∀ x ∈ calls.readings, x ≤ b

/-- The latest reading in and before `nested` separates it from what comes after. -/
theorem Clocked.exists_split {a b : Int} {inv : Invocation} {nested next : Calls}
    (h : Clocked a b (.call inv nested next)) :
    ∃ m, a ≤ inv.start ∧ inv.start ≤ m ∧ m ≤ b ∧ Clocked inv.start m nested ∧
      (inv.normal = false → Clocked m b next) ∧
      (inv.normal = true → m ≤ inv.end ∧ inv.end ≤ b ∧ Clocked inv.end b next) := by
  obtain ⟨hsorted, hlower, hupper⟩ := h
  simp only [Calls.readings, List.pairwise_cons, List.pairwise_append, List.mem_append,
    List.mem_cons] at hsorted hlower hupper
  obtain ⟨hstart, hnested, ⟨-, hnext, hend⟩, hafter⟩ := hsorted
  have hmax : (inv.start :: nested.readings).max? = some (nested.readings.foldl max inv.start) :=
    List.max?_cons'
  obtain ⟨hmem, hle⟩ := List.max?_eq_some_iff.1 hmax
  set m := nested.readings.foldl max inv.start
  have hm : ∀ x, (x ∈ if inv.normal = true then [inv.end] else []) ∨ x ∈ next.readings → m ≤ x := by
    intro x hx
    rcases List.mem_cons.1 hmem with heq | hmem
    · rw [heq]
      exact hstart x (Or.inr hx)
    · exact hafter m hmem x hx
  refine ⟨m, hlower _ (Or.inl rfl), hle _ (List.mem_cons_self ..), ?_, ⟨hnested, ?_, ?_⟩, ?_, ?_⟩
  · rcases List.mem_cons.1 hmem with heq | hmem
    · exact heq ▸ hupper _ (Or.inl rfl)
    · exact hupper _ (Or.inr (Or.inl hmem))
  · exact fun x hx => hstart x (Or.inl hx)
  · exact fun x hx => hle x (List.mem_cons_of_mem _ hx)
  · exact fun _ => ⟨hnext, fun x hx => hm x (Or.inr hx), fun x hx =>
      hupper x (Or.inr (Or.inr (Or.inr hx)))⟩
  · intro hnormal
    have hendmem : inv.end ∈ if inv.normal = true then [inv.end] else [] := by simp [hnormal]
    exact ⟨hm _ (Or.inl hendmem), hupper _ (Or.inr (Or.inr (Or.inl hendmem))), hnext,
      fun x hx => hend _ hendmem x hx, fun x hx => hupper x (Or.inr (Or.inr (Or.inr hx)))⟩

/-- A sample lies within the readings. -/
theorem Clocked.sample {cfg : GlobalConfig} {a b : Int} {calls : Calls} (h : Clocked a b calls) :
    ∀ s ∈ calls.samples cfg, a ≤ s.cost.begin ∧ s.cost.begin ≤ s.cost.end ∧ s.cost.end ≤ b := by
  induction calls generalizing a b with
  | nil => simp [Calls.samples]
  | call inv nested next ihn ihx =>
      obtain ⟨m, has, hsm, hmb, hnested, hthrown, hnormal⟩ := h.exists_split
      intro s hs
      simp only [Calls.samples, List.mem_append] at hs
      rcases hs with (hs | hs) | hs
      · have := ihn hnested s hs
        omega
      · split at hs
        · next hends =>
            obtain ⟨hme, heb, -⟩ := hnormal hends
            rw [List.mem_singleton.1 hs]
            show a ≤ inv.start ∧ inv.start ≤ inv.end ∧ inv.end ≤ b
            omega
        · simp at hs
      · by_cases hends : inv.normal = true
        · obtain ⟨hme, heb, hnext⟩ := hnormal hends
          have := ihx hnext s hs
          omega
        · have := ihx (hthrown (by simpa using hends)) s hs
          omega

/-- Two neighbouring stretches of time, charged at most `D` times each. -/
theorem add_le_depth_mul {d₁ d₂ D : Nat} {a s m b e₁ e₂ : Int} (h₁ : e₁ ≤ d₁ * (m - s))
    (h₂ : e₂ ≤ d₂ * (b - m)) (hd₁ : d₁ ≤ D) (hd₂ : d₂ ≤ D) (has : a ≤ s) (hsm : s ≤ m)
    (hmb : m ≤ b) : e₁ + e₂ ≤ D * (b - a) := by
  have h₁' : (d₁ : Int) * (m - s) ≤ D * (m - s) :=
    mul_le_mul_of_nonneg_right (by omega) (by omega)
  have h₂' : (d₂ : Int) * (b - m) ≤ D * (b - m) :=
    mul_le_mul_of_nonneg_right (by omega) (by omega)
  calc e₁ + e₂ ≤ D * (m - s) + D * (b - m) := by omega
    _ = D * (b - s) := by rw [← mul_add]; congr 1; omega
    _ ≤ D * (b - a) := mul_le_mul_of_nonneg_left (by omega) (by omega)

/-- **Charged time and depth.** The calls of a method take no longer together than the time around
    them, times the number of them that are open at once. -/
theorem elapsedIn_le (cfg : GlobalConfig) (k : MethodIdentifier) {a b : Int} {calls : Calls}
    (h : Clocked a b calls) (hab : a ≤ b) :
    elapsedIn k (calls.samples cfg) ≤ calls.depth k * (b - a) := by
  induction calls generalizing a b with
  | nil => simp [Calls.samples, elapsedIn, Calls.depth]
  | call inv nested next ihn ihx =>
      obtain ⟨m, has, hsm, hmb, hnested, hthrown, hnormal⟩ := h.exists_split
      have hinner := ihn hnested hsm
      rw [Calls.samples, elapsedIn_append, elapsedIn_append]
      by_cases hends : inv.normal = true
      · obtain ⟨hme, heb, hnext⟩ := hnormal hends
        have hlater := ihx hnext heb
        have hinner' : elapsedIn k (nested.samples cfg)
            ≤ nested.depth k * (inv.end - inv.start) :=
          hinner.trans (mul_le_mul_of_nonneg_left (by omega) (by omega))
        have hown : elapsedIn k (nested.samples cfg) + elapsedIn k [inv.sample cfg]
            ≤ ((if inv.normal ∧ inv.method = k then 1 else 0) + nested.depth k : Nat)
              * (inv.end - inv.start) := by
          rw [elapsedIn_singleton]
          show _ + (if inv.method = k then inv.end - inv.start else 0) ≤ _
          by_cases hk : inv.method = k
          · rw [if_pos hk, if_pos ⟨hends, hk⟩, Nat.cast_add, Nat.cast_one, add_mul, one_mul]
            omega
          · rw [if_neg hk, if_neg (fun h => hk h.2), Nat.zero_add]
            omega
        rw [if_pos hends]
        exact add_le_depth_mul hown hlater (le_max_left ..) (le_max_right ..) has (by omega) heb
      · have hlater := ihx (hthrown (by simpa using hends)) hmb
        have hown : elapsedIn k (nested.samples cfg) + elapsedIn k []
            ≤ ((if inv.normal ∧ inv.method = k then 1 else 0) + nested.depth k : Nat)
              * (m - inv.start) := by
          rw [if_neg (fun h => hends h.1), Nat.zero_add]
          simpa [elapsedIn] using hinner
        rw [if_neg hends]
        exact add_le_depth_mul hown hlater (le_max_left ..) (le_max_right ..) has hsm hmb

/-! ## The report of a single entry call -/

namespace Calls

theorem hasRoll_of_not_hasEnter {cfg : GlobalConfig} {calls : Calls}
    (h : calls.hasEnter cfg = false) : calls.hasRoll cfg = false := by
  induction calls with
  | nil => rfl
  | call inv nested next ihn ihx =>
      simp only [hasEnter, Bool.or_eq_false_iff] at h
      obtain ⟨⟨hinv, hnested⟩, hnext⟩ := h
      simp only [hasRoll, hinv, ihn hnested, ihx hnext, Bool.false_and, Bool.or_false]

/-- Without an entry call no sample is one of the entry. -/
theorem not_isEnter_of_mem_samples {cfg : GlobalConfig} {calls : Calls}
    (h : calls.hasEnter cfg = false) :
    ∀ s ∈ calls.samples cfg, cfg.isEnter s.method.className s.method.methodName = false := by
  induction calls with
  | nil => simp [samples]
  | call inv nested next ihn ihx =>
      simp only [hasEnter, Bool.or_eq_false_iff] at h
      obtain ⟨⟨hinv, hnested⟩, hnext⟩ := h
      intro s hs
      simp only [samples, List.mem_append] at hs
      rcases hs with (hs | hs) | hs
      · exact ihn hnested s hs
      · split at hs
        · rw [List.mem_singleton.1 hs]
          exact hinv
        · simp at hs
      · exact ihx hnext s hs

end Calls

/-- The first report covers the entry call and what ended normally inside it. -/
theorem report_of_single {cfg : GlobalConfig} {t : String} {calls nested : Calls}
    {before : List Operation} {inv : Invocation} (h : calls.OutermostEnter cfg before inv nested)
    (hfirst : .canRecord true ∉ before) (hsingle : nested.hasEnter cfg = false)
    (hnormal : inv.normal = true) :
    report cfg t before inv nested
      = groupByMethod ((Calls.call inv nested .nil).samples cfg) := by
  have hfresh : NothingPending before := fun p s q hsplit hcan =>
    absurd (hsplit ▸ List.mem_append_left _ hcan) hfirst
  have hnil := (current_eq_nil_iff_nothingPending t h.before_ne).2 hfresh
  obtain ⟨-, hkeep, -⟩ := run_calls cfg t nested
    { logOf t (eventsOf t before) with recording := true } rfl
  rw [report_eq cfg t h.isEnter hnormal, hkeep (Calls.hasRoll_of_not_hasEnter hsingle)]
  show groupByMethod ((logOf t (eventsOf t before)).current ++ nested.samples cfg
    ++ [inv.sample cfg]) = _
  rw [hnil, Calls.samples, if_pos hnormal]
  simp [Calls.samples]

/-- A row shows what its method's samples took together, or less if the sum wraps. -/
theorem total_le_elapsedIn {cfg : GlobalConfig} {a b : Int} {calls : Calls}
    (h : Clocked a b calls) (hlong : b - a < 2 ^ 63) {r : TimeCostRecord}
    (hr : r ∈ groupByMethod (calls.samples cfg)) :
    (statistic r).totalCost ≤ elapsedIn r.method (calls.samples cfg) := by
  have hcosts := costs_of_mem_groupByMethod hr
  have hshort : ∀ c ∈ r.costs, c.begin ≤ c.end ∧ c.end - c.begin < 2 ^ 63 := by
    intro c hc
    rw [hcosts] at hc
    obtain ⟨s, hs, rfl⟩ := List.mem_map.1 hc
    have := h.sample s (List.mem_filter.1 hs).1
    omega
  have hsum : (durations r).sum = elapsedIn r.method (calls.samples cfg) := by
    rw [durations, hcosts, List.map_map, elapsedIn]
    rfl
  exact hsum ▸ totalCost_statistic_le hshort

section

variable {cfg : GlobalConfig} {inv : Invocation} {nested : Calls}

theorem readings_of_normal (hnormal : inv.normal = true) :
    (Calls.call inv nested .nil).readings = inv.start :: (nested.readings ++ [inv.end]) := by
  simp [Calls.readings, hnormal]

/-- The readings of a call that ends normally run from its start to its end. -/
theorem clocked_of_sorted (hnormal : inv.normal = true)
    (hclock : (Calls.call inv nested .nil).readings.Pairwise (· ≤ ·)) :
    inv.start ≤ inv.end ∧ Clocked inv.start inv.end (.call inv nested .nil) := by
  have hsorted := hclock
  rw [readings_of_normal hnormal, List.pairwise_cons, List.pairwise_append] at hsorted
  obtain ⟨hstart, -, -, hend⟩ := hsorted
  have hle : inv.start ≤ inv.end := hstart _ (by simp)
  refine ⟨hle, hclock, ?_, ?_⟩
  · rw [readings_of_normal hnormal]
    intro x hx
    rcases List.mem_cons.1 hx with rfl | hx
    · exact le_refl _
    · exact hstart x hx
  · rw [readings_of_normal hnormal]
    intro x hx
    rcases List.mem_cons.1 hx with rfl | hx
    · exact hle
    · rcases List.mem_append.1 hx with hx | hx
      · exact hend x hx _ (List.mem_singleton_self _)
      · exact (List.mem_singleton.1 hx).le

/-- Only the entry call itself is charged to the entry method. -/
theorem costs_of_entry (henter : inv.isEnter cfg = true) (hsingle : nested.hasEnter cfg = false)
    (hnormal : inv.normal = true) {r : TimeCostRecord}
    (hr : r ∈ groupByMethod ((Calls.call inv nested .nil).samples cfg))
    (hmethod : r.method = inv.method) : r.costs = [⟨inv.start, inv.end⟩] := by
  have hnone : (nested.samples cfg).filter (fun s => s.method = inv.method) = [] := by
    rw [List.filter_eq_nil_iff]
    intro s hs hsame
    have hnot := Calls.not_isEnter_of_mem_samples hsingle s hs
    rw [of_decide_eq_true hsame] at hnot
    exact absurd (henter.symm.trans hnot) (by simp)
  have hown : (inv.sample cfg).method = inv.method := rfl
  rw [costs_of_mem_groupByMethod hr, hmethod, Calls.samples, if_pos hnormal, List.filter_append,
    List.filter_append, hnone]
  simp [Calls.samples, hown]
  rfl

end

/-- **Charged time is elapsed time, once for every nesting.** One thread calls the entry from a
    fresh store, with any calls inside, under a clock that does not go back. In the report at its
    end the entry's row shows the elapsed time of the entry call, and every row at most that time
    multiplied by the number of the method's recorded calls that are open at once: no more than the
    elapsed time, unless calls of the method are nested in each other. -/
theorem total_le_depth_mul_elapsed (cfg : GlobalConfig) (t : String) {calls nested : Calls}
    {before : List Operation} {inv : Invocation} (h : calls.OutermostEnter cfg before inv nested)
    (hfirst : .canRecord true ∉ before) (hsingle : nested.hasEnter cfg = false)
    (hnormal : inv.normal = true)
    (hclock : (Calls.call inv nested .nil).readings.Pairwise (· ≤ ·))
    (hlong : inv.end - inv.start < 2 ^ 63) :
    (∃ entry ∈ infos (report cfg t before inv nested), entry.record.method = inv.method) ∧
    ∀ entry ∈ infos (report cfg t before inv nested), entry.record.method = inv.method →
      entry.totalCost = inv.end - inv.start ∧
      ∀ row ∈ infos (report cfg t before inv nested),
        row.totalCost
          ≤ (Calls.call inv nested .nil).depth row.record.method * entry.totalCost ∧
        ((Calls.call inv nested .nil).depth row.record.method ≤ 1 →
          row.totalCost ≤ entry.totalCost) := by
  obtain ⟨hle, hclocked⟩ := clocked_of_sorted hnormal hclock
  rw [report_of_single h hfirst hsingle hnormal]
  refine ⟨?_, fun entry hentry hmethod => ?_⟩
  · have hown : inv.sample cfg ∈ (Calls.call inv nested .nil).samples cfg := by
      simp [Calls.samples, hnormal]
    obtain ⟨r, hr, hmethod⟩ := exists_record_of_mem hown
    exact ⟨statistic r, mem_infos.2 ⟨r, hr, rfl⟩, (record_statistic r).symm ▸ hmethod⟩
  · obtain ⟨r, hr, rfl⟩ := mem_infos.1 hentry
    rw [record_statistic] at hmethod
    have hcosts := costs_of_entry h.isEnter hsingle hnormal hr hmethod
    have hsum : (durations r).sum = inv.end - inv.start := by simp [durations, hcosts]
    have htotal : (statistic r).totalCost = inv.end - inv.start := by
      rw [totalCost_statistic (by simpa [hcosts] using hle) (by omega), hsum]
    refine ⟨htotal, fun row hrow => ?_⟩
    obtain ⟨r', hr', rfl⟩ := mem_infos.1 hrow
    have hbound : (statistic r').totalCost
        ≤ (Calls.call inv nested .nil).depth r'.method * (inv.end - inv.start) :=
      (total_le_elapsedIn hclocked hlong hr').trans (elapsedIn_le cfg r'.method hclocked hle)
    rw [record_statistic, htotal]
    refine ⟨hbound, fun hdepth => hbound.trans ?_⟩
    calc ((Calls.call inv nested .nil).depth r'.method : Int) * (inv.end - inv.start)
        ≤ 1 * (inv.end - inv.start) := mul_le_mul_of_nonneg_right (by omega) (by omega)
      _ = inv.end - inv.start := one_mul _

/-! ### A recursive method -/

section Recursion

/-- `p.A#step` calls itself once, and neither call takes a tick outside the inner one. -/
def stepTwice : Calls :=
  .call (callOf "step" 0 10) (.call (callOf "step" 0 10) .nil .nil) .nil

/-- The entry call of 10 ms around it. -/
theorem stepTwice_outermost : (Calls.call (callOf "run" 0 10) stepTwice .nil).OutermostEnter
    enterRun [] (callOf "run" 0 10) stepTwice :=
  .here (by decide)

/-- `step` is charged 20 ms of an entry call that takes 10. -/
theorem recursion_charged_twice :
    (Calls.call (callOf "run" 0 10) stepTwice .nil).OutermostEnter enterRun []
        (callOf "run" 0 10) stepTwice ∧
      stepTwice.hasEnter enterRun = false ∧
      (Calls.call (callOf "run" 0 10) stepTwice .nil).readings.Pairwise (· ≤ ·) ∧
      ∃ entry ∈ infos (report enterRun "main" [] (callOf "run" 0 10) stepTwice),
        entry.record.method.methodName = "run" ∧ entry.totalCost = 10 ∧
        ∃ row ∈ infos (report enterRun "main" [] (callOf "run" 0 10) stepTwice),
          row.record.method.methodName = "step" ∧ row.totalCost = 20 :=
  ⟨stepTwice_outermost, by decide, by decide, by decide⟩

/-- Two calls of `step` are open at once, and twice the elapsed time is what they are charged. -/
theorem recursion_at_most_twice :
    (∃ entry ∈ infos (report enterRun "main" [] (callOf "run" 0 10) stepTwice),
      entry.record.method = (callOf "run" 0 10).method) ∧
    ∀ entry ∈ infos (report enterRun "main" [] (callOf "run" 0 10) stepTwice),
      entry.record.method = (callOf "run" 0 10).method →
      entry.totalCost = 10 - 0 ∧
      ∀ row ∈ infos (report enterRun "main" [] (callOf "run" 0 10) stepTwice),
        row.totalCost ≤ (Calls.call (callOf "run" 0 10) stepTwice .nil).depth row.record.method
          * entry.totalCost ∧
        ((Calls.call (callOf "run" 0 10) stepTwice .nil).depth row.record.method ≤ 1 →
          row.totalCost ≤ entry.totalCost) :=
  total_le_depth_mul_elapsed enterRun "main" stepTwice_outermost (by simp) (by decide) rfl
    (by decide) (by decide)

end Recursion

end Jma
