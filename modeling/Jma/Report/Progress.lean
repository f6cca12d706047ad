import Jma.Report.Console
import Mathlib.Algebra.Order.BigOperators.Group.Finset
import Mathlib.Algebra.Order.Monoid.Prod

set_option autoImplicit false

/-! # Reporting comes to an end

A roll sends its lines to another process while it holds the monitor, and every other thread that
wants to merge or to roll waits for it. Still no thread waits for ever: the boot or the network lets
go of every post, a thread in the monitor can always take its next step, and every step uses up
something of the programs. -/

namespace Jma

open HttpTransUtil TimeCostManager

namespace ReportPc

/-- How far the thread is from the end of the operation, in places. -/
def toGo : ReportPc → Nat
  | .ready => 3
  | .merging _ => 2
  | .flagging => 1
  | .storing _ => 1
  | .rolling .. => 1

/-- The chains that a roll has still to print, and the lines of the open block. -/
def chains : ReportPc → Nat
  | .rolling entries _ _ _ => entries.length
  | _ => 0

def lines : ReportPc → Nat
  | .rolling _ _ lines _ => lines.length
  | _ => 0

end ReportPc

namespace Worker

/-- The steps that the message in flight takes at most. -/
def flight (w : Worker) : Nat :=
  match w.inFlight with
  | some (_, false) => 2
  | some (_, true) => 1
  | none => 0

/-- What a thread has still to do, in the order of importance. -/
def weight (w : Worker) : ℕ ×ₗ ℕ ×ₗ ℕ ×ₗ ℕ :=
  toLex (w.todo.length, toLex (w.pc.toGo, toLex (w.pc.chains, 3 * w.pc.lines + w.flight)))

/-- The thread has nothing left to do. -/
def idle : Worker := ⟨[], .ready, none⟩

end Worker

namespace Reporting

variable {name : Nat → String} {programs : Nat → List Act} {s s' : Reporting} {t : Nat}

/-! ## Every step uses something up -/

theorem weight_lt_of_todo {v w : Worker} (h : v.todo.length < w.todo.length) :
    v.weight < w.weight :=
  Prod.Lex.toLex_lt_toLex.2 (Or.inl h)

theorem weight_lt_of_toGo {v w : Worker} (htodo : v.todo = w.todo) (h : v.pc.toGo < w.pc.toGo) :
    v.weight < w.weight := by
  refine Prod.Lex.toLex_lt_toLex.2 (Or.inr ⟨congrArg List.length htodo, ?_⟩)
  exact Prod.Lex.toLex_lt_toLex.2 (Or.inl h)

theorem weight_lt_of_chains {v w : Worker} (htodo : v.todo = w.todo)
    (htoGo : v.pc.toGo = w.pc.toGo) (h : v.pc.chains < w.pc.chains) : v.weight < w.weight := by
  refine Prod.Lex.toLex_lt_toLex.2 (Or.inr ⟨congrArg List.length htodo, ?_⟩)
  refine Prod.Lex.toLex_lt_toLex.2 (Or.inr ⟨htoGo, ?_⟩)
  exact Prod.Lex.toLex_lt_toLex.2 (Or.inl h)

theorem weight_lt_of_lines {v w : Worker} (htodo : v.todo = w.todo)
    (htoGo : v.pc.toGo = w.pc.toGo) (hchains : v.pc.chains = w.pc.chains)
    (h : 3 * v.pc.lines + v.flight < 3 * w.pc.lines + w.flight) : v.weight < w.weight := by
  refine Prod.Lex.toLex_lt_toLex.2 (Or.inr ⟨congrArg List.length htodo, ?_⟩)
  refine Prod.Lex.toLex_lt_toLex.2 (Or.inr ⟨htoGo, ?_⟩)
  exact Prod.Lex.toLex_lt_toLex.2 (Or.inr ⟨hchains, h⟩)

/-- Where the program of a thread goes on, it had something to do. -/
theorem tail_length_lt {todo : List Act} {act : Act} (h : ∃ rest, todo = act :: rest) :
    todo.tail.length < todo.length := by
  obtain ⟨rest, rfl⟩ := h
  exact Nat.lt_succ_self _

theorem Advances.weight_lt {w : Worker} (h : Advances name s t w s') (hfits : w.Fits) :
    ∃ w', s'.workers = Function.update s.workers t w' ∧ w'.weight < w.weight := by
  cases h with
  | notice body => exact ⟨_, rfl, weight_lt_of_todo (Nat.lt_succ_self _)⟩
  | count => exact ⟨_, rfl, weight_lt_of_toGo rfl (Nat.lt_add_of_pos_right Nat.two_pos)⟩
  | close => exact ⟨_, rfl, weight_lt_of_todo (Nat.lt_succ_self _)⟩
  | enter hfree => exact ⟨_, rfl, weight_lt_of_toGo rfl (Nat.lt_succ_self 2)⟩
  | roll hfree => exact ⟨_, rfl, weight_lt_of_toGo rfl (Nat.lt_add_of_pos_right Nat.two_pos)⟩
  | flag => exact ⟨_, rfl, weight_lt_of_todo (tail_length_lt hfits.2)⟩
  | refuse hoff => exact ⟨_, rfl, weight_lt_of_todo (tail_length_lt hfits.2)⟩
  | pass hon => exact ⟨_, rfl, weight_lt_of_toGo rfl (Nat.lt_succ_self 1)⟩
  | store => exact ⟨_, rfl, weight_lt_of_todo (tail_length_lt hfits.2)⟩
  | send =>
      refine ⟨_, rfl, weight_lt_of_lines rfl rfl rfl ?_⟩
      simp only [ReportPc.lines, Worker.flight, List.length_cons]
      omega
  | next => exact ⟨_, rfl, weight_lt_of_chains rfl rfl (Nat.lt_succ_self _)⟩
  | leave => exact ⟨_, rfl, weight_lt_of_todo (tail_length_lt hfits.1)⟩

/-- One thread moves, and has less to do. -/
theorem exists_weight_lt (hthreads : Threads programs s) {a : ReportAction}
    (hstep : step name s a = some s') :
    ∃ t w, s.workers t ≠ .idle ∧ s'.workers = Function.update s.workers t w ∧
      w.weight < (s.workers t).weight := by
  have hbusy : ∀ {todo pc} {message : TransferMessage × Bool},
      Worker.mk todo pc (some message) ≠ .idle := fun h => by cases h
  rcases step_cases hstep with ⟨t, todo, pc, hw, hadv⟩ | ⟨t, todo, pc, line, hw, rfl⟩ |
    ⟨t, todo, pc, line, hw, rfl⟩ | ⟨t, todo, pc, line, -, hw, rfl⟩
  · obtain ⟨w, hworkers, hlt⟩ := hadv.weight_lt (hw ▸ hthreads.fits t)
    refine ⟨t, w, fun hidle => ?_, hworkers, hw ▸ hlt⟩
    cases hw.symm.trans hidle
    cases hadv
  · exact ⟨t, _, hw ▸ hbusy, rfl, hw ▸ weight_lt_of_lines rfl rfl rfl (Nat.lt_succ_self _)⟩
  · exact ⟨t, _, hw ▸ hbusy, rfl, hw ▸ weight_lt_of_lines rfl rfl rfl (Nat.lt_succ_self _)⟩
  · refine ⟨t, _, hw ▸ hbusy, rfl, hw ▸ weight_lt_of_lines rfl rfl rfl ?_⟩
    exact Nat.lt_add_of_pos_right Nat.two_pos

/-! ## The threads at work -/

variable {working : Finset Nat}

/-- The threads outside `working` have nothing to do. -/
structure AtWork (programs : Nat → List Act) (working : Finset Nat) (s : Reporting) : Prop where
  threads : Threads programs s
  others : ∀ t, t ∉ working → s.workers t = .idle

/-- What all threads together have still to do. -/
def load (working : Finset Nat) (s : Reporting) : ℕ ×ₗ ℕ ×ₗ ℕ ×ₗ ℕ :=
  ∑ t ∈ working, (s.workers t).weight

theorem AtWork.initial (hprograms : ∀ t, t ∉ working → programs t = []) :
    AtWork programs working (initial programs) :=
  ⟨.initial programs, fun t ht => congrArg (Worker.mk · .ready none) (hprograms t ht)⟩

theorem AtWork.step (h : AtWork programs working s) {a : ReportAction}
    (hstep : step name s a = some s') :
    AtWork programs working s' ∧ s'.load working < s.load working := by
  obtain ⟨t, w, hbusy, hworkers, hlt⟩ := exists_weight_lt h.threads hstep
  have ht : t ∈ working := not_imp_comm.1 (h.others t) hbusy
  refine ⟨⟨h.threads.step hstep, fun u hu => ?_⟩, ?_⟩
  · rw [hworkers, Function.update_of_ne (ne_of_mem_of_not_mem ht hu).symm]
    exact h.others u hu
  · refine Finset.sum_lt_sum (fun u _ => ?_) ⟨t, ht, ?_⟩
    · by_cases hu : u = t
      · subst hu
        rw [hworkers, Function.update_self]
        exact hlt.le
      · rw [hworkers, Function.update_of_ne hu]
    · rw [hworkers, Function.update_self]
      exact hlt

/-! ## No thread waits for ever -/

/-- A thread that does not wait for an answer can move, unless it is at the monitor and somebody
    holds it. -/
theorem exists_advance {w : Worker} (h : w.pc = .ready → w.todo ≠ [] ∧ s.monitor = none) :
    ∃ s', s.advance name t w = some s' := by
  rw [← Option.isSome_iff_exists]
  obtain ⟨todo, pc, inFlight⟩ := w
  cases pc with
  | ready =>
      obtain ⟨htodo, hfree⟩ := h rfl
      match todo with
      | .notice _ :: _ => rfl
      | .operation (.canRecord true) :: _ => rfl
      | .operation (.canRecord false) :: _ => rfl
      | .operation (.mergeRecord _) :: _ => simp [advance, hfree]
      | .operation (.printAndRolling _) :: _ => simp [advance, hfree]
  | flagging => rfl
  | merging x => cases hrec : s.manager.recording <;> simp [advance, hrec]
  | storing x => rfl
  | rolling entries clock lines blocks => cases lines <;> cases entries <;> rfl

/-- As long as a thread has something to do, some thread can do something, and no post need fail. -/
theorem exists_step (h : Threads programs s) (hbusy : ∃ t, s.workers t ≠ .idle) :
    ∃ a s', (∀ t, a ≠ .fail t) ∧ step name s a = some s' := by
  by_cases hwait : ∃ t message, (s.workers t).inFlight = some message
  · obtain ⟨t, ⟨line, handled⟩, hmessage⟩ := hwait
    cases handled with
    | false => exact ⟨.handle t, _, by simp, by rw [step, hmessage]⟩
    | true => exact ⟨.answer t, _, by simp, by rw [step, hmessage]⟩
  · have hquiet : ∀ t, (s.workers t).inFlight = none := fun t =>
      Option.eq_none_iff_forall_ne_some.2 (fun message hmessage => hwait ⟨t, message, hmessage⟩)
    have hmove : ∀ {t}, ((s.workers t).pc = .ready → (s.workers t).todo ≠ [] ∧ s.monitor = none) →
        ∃ a s', (∀ t, a ≠ .fail t) ∧ step name s a = some s' := by
      intro t ht
      obtain ⟨s', hs'⟩ : ∃ s', s.advance name t (s.workers t) = some s' := exists_advance ht
      exact ⟨.advance t, s', by simp, by rw [step, hquiet t]; exact hs'⟩
    cases hmon : s.monitor with
    | some u =>
        -- the holder of the monitor is inside `mergeRecord` or `printAndRolling`
        have hholds := (h.holds u).2 hmon
        exact hmove (t := u) (fun hready => by rw [hready] at hholds; cases hholds)
    | none =>
        obtain ⟨t, ht⟩ := hbusy
        refine hmove (t := t) (fun hready => ⟨fun htodo => ht ?_, hmon⟩)
        have hmessage := hquiet t
        rcases hw : s.workers t with ⟨todo, pc, inFlight⟩
        rw [hw] at hready htodo hmessage
        cases hready
        cases htodo
        cases hmessage
        rfl

/-- **Reporting comes to an end.** Finitely many threads report. No run goes on for ever; where no
    step is possible, every thread has come to the end of its program; and from wherever the threads
    are, even after posts that failed, they can come to the end without another failure. Every
    operation of every program has taken effect then, and the manager is what they make of it. -/
theorem reporting_ends (hprograms : ∀ t, t ∉ working → programs t = []) :
    (¬∃ run : Nat → Reporting, run 0 = initial programs ∧
      ∀ n, ∃ a, step name (run n) a = some (run (n + 1))) ∧
    ∀ s, Trace.Runs (step name) (fun _ _ => True) (initial programs) s →
      ((∀ a, step name s a = none) → ∀ t, s.workers t = .idle) ∧
      ∃ s', Trace.Runs (step name) (fun _ a => ∀ t, a ≠ .fail t) s s' ∧
        (∀ t, s'.workers t = .idle) ∧
        (∀ t, (own t s'.history).map Prod.snd = operationsIn (programs t)) ∧
        s'.manager = (TimeCostManager.initial.run (eventsIn name s'.history)).1 := by
  have hinitial := AtWork.initial hprograms
  have hfinished : ∀ {s}, Threads programs s →
      ((∀ t, s.workers t = .idle) ∨ ∃ a s', (∀ t, a ≠ .fail t) ∧ step name s a = some s') := by
    intro s hs
    by_cases hidle : ∀ t, s.workers t = .idle
    · exact Or.inl hidle
    · exact Or.inr (exists_step hs (not_forall.1 hidle))
  have hkeep : ∀ {s s' : Reporting} {a : ReportAction}, AtWork programs working s →
      step name s a = some s' → AtWork programs working s' ∧ s'.load working < s.load working :=
    fun h hstep => h.step hstep
  have hmove : ∀ {s : Reporting}, AtWork programs working s → ¬(∀ t, s.workers t = .idle) →
      ∃ a s', (∀ t, a ≠ ReportAction.fail t) ∧ step name s a = some s' :=
    fun h hbusy => (hfinished h.threads).resolve_left hbusy
  refine ⟨?_, fun s hrun => ⟨fun hstuck => ?_, ?_⟩⟩
  · rintro ⟨run, hzero, hrun⟩
    exact Trace.not_infinite (load working) @hkeep (hzero ▸ hinitial) hrun
  · rcases hfinished (invariants hrun).1 with hidle | ⟨a, s', -, hstep⟩
    · exact hidle
    · rw [hstuck a] at hstep
      cases hstep
  · have hwork : AtWork programs working s :=
      hrun.invariant (fun h _ hstep => (AtWork.step h hstep).1) hinitial
    obtain ⟨s', hrun', -, hidle⟩ := Trace.exists_finished (load working) @hkeep @hmove hwork
    obtain ⟨hthreads, hagrees, hcounted⟩ :=
      invariants (hrun.trans (hrun'.mono fun _ _ _ => trivial))
    have hready : ∀ t, (s'.workers t).pc = .ready := fun t => by rw [hidle t]; rfl
    refine ⟨s', hrun', hidle, fun t => ?_, manager_of_ready hagrees hcounted
      (hthreads.monitor_of_ready hready) hready⟩
    rw [hthreads.order t, hidle t]
    exact (List.append_nil _).symm

/-- The two threads of `rollers` can always come to the end. -/
theorem countDuringRoll_ends :
    ∃ s, Trace.Runs (step threadName) (fun _ a => ∀ t, a ≠ .fail t) afterCountDuringRoll s ∧
      ∀ t, s.workers t = .idle := by
  have hothers : ∀ t, t ∉ ({0, 1} : Finset Nat) → rollerActs t = [] := by
    rintro (_ | _ | t) ht
    · exact absurd (by decide) ht
    · exact absurd (by decide) ht
    · rfl
  obtain ⟨s, hrun, hidle, -⟩ :=
    ((reporting_ends hothers).2 _ (countDuringRoll_runs.mono (fun _ _ _ => trivial))).2
  exact ⟨s, hrun, hidle⟩

end Reporting

end Jma
