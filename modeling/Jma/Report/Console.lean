import Jma.Report.Linearization

set_option autoImplicit false

/-! # The reports on the console of the boot

A roll holds the monitor while it sends its lines, and `send` waits for the answer. So the lines of
different rolls never mix, however the threads take turns: `reports_never_mix`. A line whose post
fails is missing, and only that. The counter does move during a roll, so the blocks of one roll may
carry different numbers, but the numbers never go back: `headers_ascend`. -/

namespace Jma

open HttpTransUtil TimeCostManager

/-- The blocks that the roll of the thread has printed. -/
def ReportPc.printed : ReportPc → List Block
  | .rolling _ _ _ blocks => blocks
  | _ => []

/-- The lines of the open block that the boot has not handled. -/
def Worker.toCome (w : Worker) : List TransferMessage :=
  match w.pc with
  | .rolling _ _ lines _ =>
      match w.inFlight with
      | some (line, false) => line :: lines
      | _ => lines
  | _ => []

namespace Reporting

/-- The lines of the reports that the boot has handled. -/
def reportLines (s : Reporting) : List TransferMessage :=
  s.console.filter (fun line => !line.isNotice)

/-- The blocks of the rolls, with those that the thread in the monitor has printed. -/
def blocks (s : Reporting) : List Block :=
  s.rolls.flatten ++ s.held.elim [] (fun x => x.2.pc.printed)

/-- What is still to be handled of these blocks. -/
def toCome (s : Reporting) : List TransferMessage := s.held.elim [] (fun x => x.2.toCome)

variable {name : Nat → String} {programs : Nat → List Act} {s s' : Reporting} {t : Nat}

theorem blocks_of_monitor {w : Worker} (h : s.monitor = some t) (hw : s.workers t = w) :
    s.blocks = s.rolls.flatten ++ w.pc.printed := by
  rw [blocks, held, h, Option.map_some, Option.elim_some, hw]

theorem blocks_setWorker {w : Worker} (h : s.monitor = some t) :
    (s.setWorker t w).blocks = s.rolls.flatten ++ w.pc.printed :=
  blocks_of_monitor h (Function.update_self ..)

theorem blocks_of_free (h : s.monitor = none) : s.blocks = s.rolls.flatten := by
  rw [blocks, held, h, Option.map_none, Option.elim_none, List.append_nil]

theorem toCome_of_monitor {w : Worker} (h : s.monitor = some t) (hw : s.workers t = w) :
    s.toCome = w.toCome := by
  rw [toCome, held, h, Option.map_some, Option.elim_some, hw]

theorem toCome_setWorker {w : Worker} (h : s.monitor = some t) :
    (s.setWorker t w).toCome = w.toCome :=
  toCome_of_monitor h (Function.update_self ..)

theorem toCome_of_free (h : s.monitor = none) : s.toCome = [] := by
  rw [toCome, held, h, Option.map_none, Option.elim_none]

/-! ## The lines -/

/-- What a step does for the reports: the blocks it prints, under the number that `seq` has, and the
    lines that the boot handles. -/
structure Sends (s s' : Reporting) (printed : List Block) (handled : List TransferMessage) :
    Prop where
  blocks_eq : s'.blocks = s.blocks ++ printed
  reportLines_eq : s'.reportLines = s.reportLines ++ handled
  toCome_eq : handled ++ s'.toCome = s.toCome ++ printed.flatMap Block.messages
  numbers : ∀ b ∈ printed, b.headerSeq = s.manager.seq
  begun : s.begun ≤ s'.begun

theorem Sends.nothing (hblocks : s'.blocks = s.blocks) (hconsole : s'.reportLines = s.reportLines)
    (htoCome : s'.toCome = s.toCome) (hbegun : s.begun ≤ s'.begun) : Sends s s' [] [] where
  blocks_eq := by rw [hblocks, List.append_nil]
  reportLines_eq := by rw [hconsole, List.append_nil]
  toCome_eq := by rw [htoCome, List.flatMap_nil, List.append_nil, List.nil_append]
  numbers := fun _ hb => absurd hb List.not_mem_nil
  begun := hbegun

/-- A thread outside the monitor moves. -/
theorem Sends.of_held (hheld : s'.held = s.held) (hrolls : s'.rolls = s.rolls)
    (hconsole : s'.reportLines = s.reportLines) (hbegun : s.begun ≤ s'.begun) : Sends s s' [] [] :=
  .nothing (by rw [blocks, blocks, hheld, hrolls]) hconsole (by rw [toCome, toCome, hheld]) hbegun

/-- The thread in the monitor moves, where it is not rolling. -/
theorem Sends.of_free (hblocks : s.blocks = s.rolls.flatten)
    (hblocks' : s'.blocks = s.rolls.flatten) (htoCome : s.toCome = []) (htoCome' : s'.toCome = [])
    (hconsole : s'.reportLines = s.reportLines) (hbegun : s.begun ≤ s'.begun) : Sends s s' [] [] :=
  .nothing (hblocks'.trans hblocks.symm) hconsole (htoCome'.trans htoCome.symm) hbegun

theorem Sends.of_advances (hthreads : Threads programs s) {w : Worker} (hw : s.workers t = w)
    (hstep : Advances name s t w s') : ∃ printed handled, Sends s s' printed handled := by
  have hout : w.pc.holds = false → s.monitor ≠ some t := by
    intro hpc hmon
    rw [← hthreads.holds t, hw, hpc] at hmon
    cases hmon
  have hin : w.pc.holds = true → s.monitor = some t := by
    intro hpc
    exact (hthreads.holds t).1 (by rw [hw, hpc])
  cases hstep with
  | notice body => exact ⟨_, _, .of_held (held_of_ne rfl rfl (hout rfl)) rfl rfl le_rfl⟩
  | count => exact ⟨_, _, .of_held (held_of_ne rfl rfl (hout rfl)) rfl rfl (Nat.le_succ _)⟩
  | close => exact ⟨_, _, .of_held (held_of_ne rfl rfl (hout rfl)) rfl rfl le_rfl⟩
  | flag => exact ⟨_, _, .of_held (held_of_ne rfl rfl (hout rfl)) rfl rfl le_rfl⟩
  | enter hmon =>
      exact ⟨_, _, .of_free (blocks_of_free hmon)
        ((blocks_setWorker rfl).trans (List.append_nil _)) (toCome_of_free hmon)
        (toCome_setWorker rfl) rfl le_rfl⟩
  | roll hmon =>
      exact ⟨_, _, .of_free (blocks_of_free hmon)
        ((blocks_setWorker rfl).trans (List.append_nil _)) (toCome_of_free hmon)
        (toCome_setWorker rfl) rfl le_rfl⟩
  | refuse hoff =>
      exact ⟨_, _, .of_free ((blocks_of_monitor (hin rfl) hw).trans (List.append_nil _))
        (blocks_of_free rfl) (toCome_of_monitor (hin rfl) hw) (toCome_of_free rfl) rfl le_rfl⟩
  | store =>
      exact ⟨_, _, .of_free ((blocks_of_monitor (hin rfl) hw).trans (List.append_nil _))
        (blocks_of_free rfl) (toCome_of_monitor (hin rfl) hw) (toCome_of_free rfl) rfl le_rfl⟩
  | pass hon =>
      have hmon := hin rfl
      refine ⟨_, _, .of_free ((blocks_of_monitor hmon hw).trans (List.append_nil _))
        ((blocks_setWorker ?_).trans (List.append_nil _)) (toCome_of_monitor hmon hw)
        (toCome_setWorker ?_) rfl le_rfl⟩
      · exact hmon
      · exact hmon
  | send =>
      have hmon := hin rfl
      exact ⟨_, _, .nothing ((blocks_setWorker hmon).trans (blocks_of_monitor hmon hw).symm) rfl
        ((toCome_setWorker hmon).trans (toCome_of_monitor hmon hw).symm) le_rfl⟩
  | @next todo e entries clock blocks =>
      have hmon := hin rfl
      refine ⟨(s.manager.block (name t) e.1 e.2).toList, [], ?_, ?_, ?_, ?_, le_rfl⟩
      · rw [blocks_of_monitor hmon hw, blocks_setWorker]
        · exact (List.append_assoc ..).symm
        · exact hmon
      · exact (List.append_nil _).symm
      · rw [toCome_of_monitor hmon hw, toCome_setWorker]
        · rfl
        · exact hmon
      · intro b hb
        unfold block at hb
        split at hb
        · cases hb
        · rw [List.mem_singleton.1 hb]
  | @leave todo clock blocks =>
      have hmon := hin rfl
      refine ⟨_, _, .nothing ?_ rfl
        ((toCome_of_free rfl).trans (toCome_of_monitor hmon hw).symm) le_rfl⟩
      rw [blocks_of_free rfl, blocks_of_monitor hmon hw]
      simp [setWorker, ReportPc.printed]

/-- The thread that waits for the answer to a report line is rolling, and it is in the monitor. -/
theorem Threads.rolling_of_line (h : Threads programs s) {todo : List Act} {pc : ReportPc}
    {line : TransferMessage} {handled : Bool}
    (hw : s.workers t = ⟨todo, pc, some (line, handled)⟩) :
    (line.isNotice = true ∧ s.monitor ≠ some t) ∨
      (line.isNotice = false ∧ s.monitor = some t ∧
        ∃ entries clock lines printed, pc = .rolling entries clock lines printed) := by
  have hfits := h.fits t
  have hholds := h.holds t
  rw [hw] at hfits hholds
  cases pc with
  | ready =>
      exact Or.inl ⟨hfits line handled rfl, fun hmon => Bool.false_ne_true (hholds.2 hmon)⟩
  | flagging => cases hfits.1
  | merging x => cases hfits.1
  | storing x => cases hfits.1
  | rolling entries clock lines printed =>
      exact Or.inr ⟨hfits.2.2 line handled rfl, hholds.1 rfl, _, _, _, _, rfl⟩

theorem Sends.of_handle (hthreads : Threads programs s) {todo : List Act} {pc : ReportPc}
    {line : TransferMessage} (hw : s.workers t = ⟨todo, pc, some (line, false)⟩) :
    ∃ printed handled, Sends s
      ({ s with console := s.console ++ [line] }.setWorker t ⟨todo, pc, some (line, true)⟩)
      printed handled := by
  have hconsole : ∀ w, ({ s with console := s.console ++ [line] }.setWorker t w).reportLines
      = s.reportLines ++ [line].filter (fun l => !l.isNotice) := fun _ => List.filter_append ..
  rcases hthreads.rolling_of_line hw with
    ⟨hnotice, hmon⟩ | ⟨hline, hmon, entries, clock, lines, printed, rfl⟩
  · refine ⟨_, _, .of_held (held_of_ne rfl rfl hmon) rfl ?_ le_rfl⟩
    rw [hconsole, List.filter_cons_of_neg (by simp [hnotice]), List.filter_nil, List.append_nil]
  · refine ⟨[], [line], ?_, ?_, ?_, fun _ hb => absurd hb List.not_mem_nil, le_rfl⟩
    · rw [blocks_of_monitor hmon hw, List.append_nil]
      refine blocks_setWorker ?_
      exact hmon
    · rw [hconsole, List.filter_cons_of_pos (by simp [hline]), List.filter_nil]
    · rw [toCome_of_monitor hmon hw, toCome_setWorker]
      · exact (List.append_nil _).symm
      · exact hmon

/-- A thread goes on without the message it waited for, which the boot has handled or not. -/
theorem toCome_answer (hthreads : Threads programs s) {todo : List Act} {pc : ReportPc}
    {line : TransferMessage} {handled : Bool}
    (hw : s.workers t = ⟨todo, pc, some (line, handled)⟩) :
    (s.setWorker t ⟨todo, pc, none⟩).blocks = s.blocks ∧
      (handled = true → (s.setWorker t ⟨todo, pc, none⟩).toCome = s.toCome) ∧
      (s.setWorker t ⟨todo, pc, none⟩).toCome.Sublist s.toCome := by
  rcases hthreads.rolling_of_line hw with
    ⟨-, hmon⟩ | ⟨-, hmon, entries, clock, lines, printed, rfl⟩
  · have hheld : (s.setWorker t ⟨todo, pc, none⟩).held = s.held := held_of_ne rfl rfl hmon
    have htoCome : (s.setWorker t ⟨todo, pc, none⟩).toCome = s.toCome := by
      rw [toCome, toCome, hheld]
    refine ⟨?_, fun _ => htoCome, htoCome ▸ List.Sublist.refl _⟩
    rw [blocks, blocks, hheld]
    rfl
  · rw [blocks_of_monitor hmon hw, blocks_setWorker hmon, toCome_of_monitor hmon hw,
      toCome_setWorker hmon]
    refine ⟨rfl, ?_, ?_⟩
    · rintro rfl
      rfl
    · cases handled with
      | false => exact List.sublist_cons_self ..
      | true => exact List.Sublist.refl _

/-- What a step does for the reports. Only a post that fails loses a line. -/
theorem Sends.of_step (hthreads : Threads programs s) {a : ReportAction}
    (hstep : step name s a = some s') :
    (∃ printed handled, Sends s s' printed handled) ∨
      ((∃ t, a = .fail t) ∧ s'.blocks = s.blocks ∧ s'.reportLines = s.reportLines ∧
        s'.toCome.Sublist s.toCome ∧ s'.begun = s.begun) := by
  rcases step_cases hstep with ⟨t, todo, pc, hw, hadv⟩ | ⟨t, todo, pc, line, hw, rfl⟩ |
    ⟨t, todo, pc, line, hw, rfl⟩ | ⟨t, todo, pc, line, rfl, hw, rfl⟩
  · exact Or.inl (Sends.of_advances hthreads hw hadv)
  · exact Or.inl (Sends.of_handle hthreads hw)
  · obtain ⟨hblocks, htoCome, -⟩ := toCome_answer hthreads hw
    exact Or.inl ⟨_, _, .nothing hblocks rfl (htoCome rfl) le_rfl⟩
  · obtain ⟨hblocks, -, htoCome⟩ := toCome_answer hthreads hw
    exact Or.inr ⟨⟨t, rfl⟩, hblocks, rfl, htoCome, rfl⟩

/-! ## Every run -/

/-- The lines on the console, with those to come, are lines of the blocks in their order. -/
theorem reportLines_sublist
    (hrun : Trace.Runs (step name) (fun _ _ => True) (initial programs) s) :
    (s.reportLines ++ s.toCome).Sublist (s.blocks.flatMap Block.messages) := by
  refine (hrun.invariant (P := fun s => Threads programs s ∧
    (s.reportLines ++ s.toCome).Sublist (s.blocks.flatMap Block.messages)) ?_
      ⟨.initial programs, List.Sublist.refl _⟩).2
  rintro s s' a ⟨hthreads, hlines⟩ - hstep
  refine ⟨hthreads.step hstep, ?_⟩
  rcases Sends.of_step hthreads hstep with
    ⟨printed, handled, h⟩ | ⟨-, hblocks, hreport, htoCome, -⟩
  · rw [h.blocks_eq, h.reportLines_eq, List.append_assoc, h.toCome_eq, ← List.append_assoc,
      List.flatMap_append]
    exact hlines.append_right _
  · rw [hblocks, hreport]
    exact (htoCome.append_left _).trans hlines

/-- While no post fails, none is missing. -/
theorem reportLines_eq
    (hrun : Trace.Runs (step name) (fun _ a => ∀ t, a ≠ .fail t) (initial programs) s) :
    s.reportLines ++ s.toCome = s.blocks.flatMap Block.messages := by
  refine (hrun.invariant (P := fun s => Threads programs s ∧
    s.reportLines ++ s.toCome = s.blocks.flatMap Block.messages) ?_
      ⟨.initial programs, rfl⟩).2
  rintro s s' a ⟨hthreads, hlines⟩ hfail hstep
  refine ⟨hthreads.step hstep, ?_⟩
  rcases Sends.of_step hthreads hstep with ⟨printed, handled, h⟩ | ⟨⟨t, ht⟩, -⟩
  · rw [h.blocks_eq, h.reportLines_eq, List.append_assoc, h.toCome_eq, ← List.append_assoc,
      List.flatMap_append, hlines]
  · exact absurd ht (hfail t)

/-- **The lines of different rolls never mix.** Whatever steps the threads take and in which order,
    the report lines on the console are lines of the blocks, roll after roll in the order in which
    the rolls enter the monitor. While no post fails, none is missing: they are a beginning of the
    texts of the blocks, and all of them when no thread is in the monitor. -/
theorem reports_never_mix
    (hrun : Trace.Runs (step name) (fun _ _ => True) (initial programs) s) :
    s.reportLines.Sublist (s.blocks.flatMap Block.messages) ∧
      (Trace.Runs (step name) (fun _ a => ∀ t, a ≠ .fail t) (initial programs) s →
        s.reportLines <+: s.blocks.flatMap Block.messages ∧
          (s.monitor = none → s.reportLines = s.rolls.flatten.flatMap Block.messages)) := by
  refine ⟨(List.sublist_append_left _ _).trans (reportLines_sublist hrun), fun hlossless => ?_⟩
  have hlines := reportLines_eq hlossless
  refine ⟨⟨_, hlines⟩, fun hmon => ?_⟩
  rwa [toCome_of_free hmon, blocks_of_free hmon, List.append_nil] at hlines

/-- The numbers of the blocks are counts of entry calls, in the order of the blocks. -/
theorem exists_numbers (hrun : Trace.Runs (step name) (fun _ _ => True) (initial programs) s) :
    ∃ numbers : List Nat, s.blocks.map Block.headerSeq = numbers.map (BitVec.ofNat 32) ∧
      numbers.Pairwise (· ≤ ·) ∧ ∀ n ∈ numbers, n ≤ s.begun := by
  refine (hrun.invariant (P := fun s => (Threads programs s ∧ Counted name s) ∧
    ∃ numbers : List Nat, s.blocks.map Block.headerSeq = numbers.map (BitVec.ofNat 32) ∧
      numbers.Pairwise (· ≤ ·) ∧ ∀ n ∈ numbers, n ≤ s.begun) ?_
      ⟨⟨.initial programs, .initial name programs⟩, [], rfl, List.Pairwise.nil, by simp⟩).2
  rintro s s' a ⟨⟨hthreads, hcounted⟩, numbers, hseq, hsorted, hle⟩ - hstep
  refine ⟨⟨hthreads.step hstep, hcounted.step hstep⟩, ?_⟩
  rcases Sends.of_step hthreads hstep with ⟨printed, handled, h⟩ | ⟨-, hblocks, -, -, hbegun⟩
  · refine ⟨numbers ++ printed.map (fun _ => s.begun), ?_, ?_, ?_⟩
    · rw [h.blocks_eq, List.map_append, hseq, List.map_append, List.map_map]
      refine congrArg (numbers.map (BitVec.ofNat 32) ++ ·) (List.map_congr_left (fun b hb => ?_))
      rw [h.numbers b hb, hcounted.seq]
      rfl
    · rw [List.pairwise_append]
      refine ⟨hsorted, List.pairwise_map.2 (List.pairwise_of_forall (fun _ _ => le_rfl)), ?_⟩
      intro n hn n' hn'
      obtain ⟨-, -, rfl⟩ := List.mem_map.1 hn'
      exact hle n hn
    · intro n hn
      rcases List.mem_append.1 hn with hn | hn
      · exact (hle n hn).trans h.begun
      · obtain ⟨-, -, rfl⟩ := List.mem_map.1 hn
        exact h.begun
  · exact ⟨numbers, by rw [hblocks, hseq], hsorted, by rw [hbegun]; exact hle⟩

/-- **The numbers in the headers never go back**, in the order in which the blocks are printed, as
    long as fewer than `2 ^ 31` entry calls have begun; none is greater than the number of those
    that have. -/
theorem headers_ascend (hrun : Trace.Runs (step name) (fun _ _ => True) (initial programs) s)
    (hbegun : s.begun < 2 ^ 31) :
    s.blocks.Pairwise (fun b b' => b.headerSeq.toInt ≤ b'.headerSeq.toInt) ∧
      ∀ b ∈ s.blocks, 0 ≤ b.headerSeq.toInt ∧ b.headerSeq.toInt ≤ s.begun := by
  obtain ⟨numbers, hseq, hsorted, hle⟩ := exists_numbers hrun
  have hnumber : ∀ n ∈ numbers, (BitVec.ofNat 32 n).toInt = n := by
    intro n hn
    have hlt : n < 2 ^ 31 := (hle n hn).trans_lt hbegun
    rw [BitVec.toInt_ofNat', Int.bmod_eq_of_le] <;> omega
  have hints : s.blocks.map (fun b => b.headerSeq.toInt) = numbers.map (Int.ofNat) := by
    have h := congrArg (List.map BitVec.toInt) hseq
    rw [List.map_map, List.map_map] at h
    exact h.trans (List.map_congr_left hnumber)
  refine ⟨?_, fun b hb => ?_⟩
  · have hpairwise : (s.blocks.map (fun b => b.headerSeq.toInt)).Pairwise (· ≤ ·) := by
      rw [hints, List.pairwise_map]
      exact hsorted.imp (fun h => Int.ofNat_le.2 h)
    exact List.pairwise_map.1 hpairwise
  · have hmem : b.headerSeq.toInt ∈ s.blocks.map (fun b => b.headerSeq.toInt) :=
      List.mem_map.2 ⟨b, hb, rfl⟩
    rw [hints] at hmem
    obtain ⟨n, hn, heq⟩ := List.mem_map.1 hmem
    rw [← heq]
    exact ⟨Int.natCast_nonneg n, Int.ofNat_le.2 (hle n hn)⟩

/-! ## From the calls to the console -/

/-- What the printed records of a thread are does not depend on the numbers. -/
theorem printedFor_eq (T : String) (printed : List Block) :
    printedFor T printed
      = ((printed.map Block.unnumbered).filter (fun v => v.1 = T)).flatMap (fun v => v.2.2) := by
  rw [printedFor, List.filter_map, List.flatMap_map]
  rfl

theorem samplesIn_flatten_perm (pieces : List (List Sample)) :
    (samplesIn (pieces.map groupByMethod).flatten).Perm (pieces.flatten.map Sample.shown) := by
  induction pieces with
  | nil => exact List.Perm.refl _
  | cons piece rest ih =>
      rw [List.map_cons, List.flatten_cons, samplesIn, List.flatMap_append, List.flatten_cons,
        List.map_append]
      exact (samplesIn_groupByMethod_perm piece).append ih

/-- Outside the operations the finished rolls have printed the finished pieces of the log. -/
theorem printed_of_ready (hrun : Trace.Runs (step name) (fun _ _ => True) (initial programs) s)
    (hready : ∀ t, (s.workers t).pc = .ready) (T : String) :
    s.rolls.map (printedFor T)
      = (logOf T (eventsIn name s.history)).rolled.map groupByMethod := by
  obtain ⟨hthreads, hagrees, -⟩ := invariants hrun
  have hrolls := congrArg (List.map (fun views =>
    (views.filter (fun v => v.1 = T)).flatMap (fun v => v.2.2)))
    (hagrees.rolls_of_free (hthreads.monitor_of_ready hready))
  simp only [List.map_map, Function.comp_def, ← printedFor_eq] at hrolls
  rw [← printed_run]
  exact hrolls

/-- And its last piece is pending. -/
theorem pending_of_ready (hrun : Trace.Runs (step name) (fun _ _ => True) (initial programs) s)
    (hready : ∀ t, (s.workers t).pc = .ready) (T : String) :
    s.manager.pending T = groupByMethod (logOf T (eventsIn name s.history)).current := by
  obtain ⟨hthreads, hagrees, hcounted⟩ := invariants hrun
  rw [manager_of_ready hagrees hcounted (hthreads.monitor_of_ready hready) hready, atomic,
    pending_run]

/-- Printed or pending, each accepted sample is there once. -/
theorem listed_of_ready (hrun : Trace.Runs (step name) (fun _ _ => True) (initial programs) s)
    (hready : ∀ t, (s.workers t).pc = .ready) (T : String) :
    (samplesIn (s.rolls.flatMap (printedFor T) ++ s.manager.pending T)).Perm
      ((accepted T false (eventsIn name s.history)).map Sample.shown) := by
  have hcut := SampleLog.flatten_run T (eventsIn name s.history) .initial
  have hpieces : s.rolls.flatMap (printedFor T) ++ s.manager.pending T
      = (((logOf T (eventsIn name s.history)).rolled
          ++ [(logOf T (eventsIn name s.history)).current]).map groupByMethod).flatten := by
    rw [pending_of_ready hrun hready, List.flatMap_def, printed_of_ready hrun hready,
      List.map_append, List.flatten_append, List.map_singleton, List.flatten_singleton]
  rw [hpieces]
  refine (samplesIn_flatten_perm _).trans (List.Perm.of_eq (congrArg _ ?_))
  rw [List.flatten_append, List.flatten_singleton]
  exact hcut

/-- While no post fails, the report lines are the texts of the printed blocks. -/
theorem reportLines_of_ready
    (hrun : Trace.Runs (step name) (fun _ a => ∀ t, a ≠ .fail t) (initial programs) s)
    (hready : ∀ t, (s.workers t).pc = .ready) :
    s.reportLines = s.rolls.flatten.flatMap Block.messages := by
  have hmon := (invariants (hrun.mono (fun _ _ _ => trivial))).1.monitor_of_ready hready
  have hlines := reportLines_eq hrun
  rwa [toCome_of_free hmon, blocks_of_free hmon, List.append_nil] at hlines

/-- **From the calls to the console.** Threads run instrumented calls, with their notices, step by
    step and in any order, and no post fails. When no thread is in the middle of an operation, the
    operations of the calls have interleaved; the report lines on the console are the texts of the
    blocks that the rolls have printed; and for every thread name these blocks list, with what is
    still pending, each sample that was accepted, once. -/
theorem console_of_calls (cfg : GlobalConfig) (calls : Nat → Calls)
    (hprograms : ∀ t, operationsIn (programs t) = (calls t).operations cfg)
    (hrun : Trace.Runs (step name) (fun _ a => ∀ t, a ≠ .fail t) (initial programs) s)
    (hready : ∀ t, (s.workers t).pc = .ready) :
    Interleaves cfg calls s.history ∧
      s.reportLines = s.rolls.flatten.flatMap Block.messages ∧
      ∀ T, s.rolls.map (printedFor T)
          = (logOf T (eventsIn name s.history)).rolled.map groupByMethod ∧
        (samplesIn (s.rolls.flatMap (printedFor T) ++ s.manager.pending T)).Perm
          ((accepted T false (eventsIn name s.history)).map Sample.shown) := by
  have hany : Trace.Runs (step name) (fun _ _ => True) (initial programs) s :=
    hrun.mono (fun _ _ _ => trivial)
  refine ⟨fun t => ?_, reportLines_of_ready hrun hready, fun T =>
    ⟨printed_of_ready hany hready T, listed_of_ready hany hready T⟩⟩
  rw [← hprograms t]
  have hthreads := (invariants hany).1
  exact hthreads.history_prefix t

/-- Steps without a failing post are a run without one. -/
theorem runs_of_lossless {steps : List ReportAction}
    (h : Trace.execute (step name) (initial programs) steps = some s)
    (hlossless : ∀ t, ReportAction.fail t ∉ steps) :
    Trace.Runs (step name) (fun _ a => ∀ t, a ≠ .fail t) (initial programs) s :=
  (Trace.runs_mem_of_execute h).mono (fun _ _ ha t hfail => hlossless t (Eq.subst hfail ha))

section CountDuringRoll

/-- Thread 0 makes an entry call, and thread 1 another call before it begins an entry call, which
    does not end. -/
def rollers : Nat → Calls
  | 0 => .call (callOf "run" 0 5) .nil .nil
  | 1 => .call (callOf "step" 1 2) .nil
      (.call { callOf "run" 3 4 with normal := false } .nil .nil)
  | _ => .nil

def rollerActs (t : Nat) : List Act := (rollers t).acts enterRun (fun _ => "on") (fun _ => "off")

/-- Thread 0 opens the flag and both store a sample. In the roll of thread 0, thread 1 counts its
    entry call between the two blocks. -/
def countDuringRoll : List ReportAction :=
  List.flatten [[.advance 0, .advance 0], post 0, [.advance 0, .advance 0, .advance 0],
    [.advance 1, .advance 1, .advance 1], post 0, [.advance 0, .advance 0],
    post 0, post 0, post 0, post 0, [.advance 1, .advance 0],
    post 0, post 0, post 0, post 0, [.advance 0, .advance 1], post 1]

theorem countDuringRoll_possible :
    (Trace.execute (step threadName) (initial rollerActs) countDuringRoll).isSome = true := by
  decide +kernel

def afterCountDuringRoll : Reporting :=
  (Trace.execute (step threadName) (initial rollerActs) countDuringRoll).get
    countDuringRoll_possible

theorem countDuringRoll_runs : Trace.Runs (step threadName) (fun _ a => ∀ t, a ≠ .fail t)
    (initial rollerActs) afterCountDuringRoll :=
  runs_of_lossless (Option.some_get countDuringRoll_possible).symm
    (fun t => by simp [countDuringRoll, post])

example : afterCountDuringRoll.rolls.map (List.map Block.headerSeq) = [[1, 2]] ∧
    (afterCountDuringRoll.blocks.map Block.threadName).Perm ["main", "worker"] := by
  decide +kernel

/-- The two blocks of one roll carry the numbers 1 and 2, in this order. -/
theorem countDuringRoll_ascends :
    afterCountDuringRoll.begun = 2 ∧ afterCountDuringRoll.blocks.Pairwise
      (fun b b' => b.headerSeq.toInt ≤ b'.headerSeq.toInt) :=
  ⟨by decide +kernel, (headers_ascend (countDuringRoll_runs.mono (fun _ _ _ => trivial))
    (by decide +kernel)).1⟩

/-- The lines of both blocks are on the console, one block after the other. -/
theorem countDuringRoll_lines : afterCountDuringRoll.reportLines
    = afterCountDuringRoll.rolls.flatten.flatMap Block.messages :=
  ((reports_never_mix (countDuringRoll_runs.mono (fun _ _ _ => trivial))).2 countDuringRoll_runs).2
    (by decide +kernel)

/-- The sample of thread 1 is printed by the roll of thread 0. -/
theorem countDuringRoll_console :
    Interleaves enterRun rollers afterCountDuringRoll.history ∧
      (samplesIn (afterCountDuringRoll.rolls.flatMap (printedFor "worker")
        ++ afterCountDuringRoll.manager.pending "worker")).Perm
          [(⟨"p.A", "step", "()V"⟩, ⟨1, 2⟩)] := by
  obtain ⟨hinterleaves, -, hsamples⟩ := console_of_calls enterRun rollers
    (fun t => operationsIn_acts enterRun _ _ (rollers t)) countDuringRoll_runs
    (by rintro (_ | _ | t) <;> rfl)
  refine ⟨hinterleaves, (hsamples "worker").2.trans (List.Perm.of_eq ?_)⟩
  decide +kernel

end CountDuringRoll

end Reporting

end Jma
