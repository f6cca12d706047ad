import Jma.Advice.Headers
import Jma.Report.Monitor

set_option autoImplicit false

/-! # The steps behind the atomic operations

The manager's operations take many steps, and threads take theirs in between. An operation takes
effect at one of its steps: `canRecord` where it writes the flag, `mergeRecord` where it tests it
and `printAndRolling` where it enters the monitor. In the order of these steps, the operations may
be taken to be atomic: `monitor_linearizes`. -/

namespace Jma

open HttpTransUtil TimeCostManager

/-- A message that is not a line of a report. -/
def TransferMessage.isNotice (line : TransferMessage) : Bool := line.level == some "success"

/-- A block apart from its number. -/
def Block.unnumbered (b : Block) : String × String × List TimeCostRecord :=
  (b.threadName, b.headerName, b.recordList)

/-- The manager apart from its counter. -/
def TimeCostManager.unnumbered (m : TimeCostManager) :
    (AList fun _ : String => AList fun _ : Int => TimeCostChain) ×
      (AList fun _ : String => TimeCostChain) × Bool :=
  (m.backup, m.costMap, m.recording)

theorem eq_of_unnumbered {m m' : TimeCostManager} (h : m.unnumbered = m'.unnumbered)
    (hseq : m.seq = m'.seq) : m = m' := by
  obtain ⟨backup, costMap, recording, seq⟩ := m
  obtain ⟨backup', costMap', recording', seq'⟩ := m'
  cases h
  cases hseq
  rfl

theorem unnumbered_block (m : TimeCostManager) (current threadName : String)
    (chain : TimeCostChain) : (m.block current threadName chain).map Block.unnumbered
      = if chain.recordList.isEmpty then none
        else some (threadName, current, chain.recordList) := by
  unfold block
  split <;> rfl

namespace ReportPc

/-- The manager as the thread `key` will leave it, when it comes out of the monitor. -/
def settle (key : String) (m : TimeCostManager) : ReportPc → TimeCostManager
  | .storing x => m.store key x.toRecord
  | .rolling entries clock _ _ => entries.foldl (fun m e => Reporting.rollEntry m clock e) m
  | _ => m

/-- The roll that the thread `key` is in, with the blocks to come. -/
def unfinished (key : String) : ReportPc → List (List (String × String × List TimeCostRecord))
  | .rolling entries _ _ blocks =>
      [blocks.map Block.unnumbered ++ entries.filterMap (fun e =>
        if e.2.recordList.isEmpty then none else some (e.1, key, e.2.recordList))]
  | _ => []

/-- Whether the thread is in the monitor. -/
def holds : ReportPc → Bool
  | .merging _ => true
  | .storing _ => true
  | .rolling .. => true
  | _ => false

/-- Whether the thread has counted an entry call and not yet written the flag. -/
def isFlagging : ReportPc → Bool
  | .flagging => true
  | _ => false

end ReportPc

namespace Worker

/-- The operations that have not taken effect. -/
def pending (w : Worker) : List Operation :=
  match w.pc with
  | .storing _ => (operationsIn w.todo).tail
  | .rolling .. => (operationsIn w.todo).tail
  | _ => operationsIn w.todo

/-- What a thread does fits the place where it is, and so does the message it waits for. -/
def Fits (w : Worker) : Prop :=
  match w.pc with
  | .ready => ∀ line handled, w.inFlight = some (line, handled) → line.isNotice = true
  | .flagging => w.inFlight = none ∧ ∃ rest, w.todo = .operation (.canRecord true) :: rest
  | .merging x => w.inFlight = none ∧ ∃ rest, w.todo = .operation (.mergeRecord x) :: rest
  | .storing x => w.inFlight = none ∧ ∃ rest, w.todo = .operation (.mergeRecord x) :: rest
  | .rolling _ clock lines _ =>
      (∃ rest, w.todo = .operation (.printAndRolling clock) :: rest) ∧
        (∀ line ∈ lines, line.isNotice = false) ∧
        ∀ line handled, w.inFlight = some (line, handled) → line.isNotice = false

end Worker

namespace Reporting

/-! ## The threads -/

structure Threads (programs : Nat → List Act) (s : Reporting) : Prop where
  fits : ∀ t, (s.workers t).Fits
  holds : ∀ t, (s.workers t).pc.holds = true ↔ s.monitor = some t
  /-- The operations of a thread take effect in the order of its program. -/
  order : ∀ t, operationsIn (programs t)
    = (own t s.history).map Prod.snd ++ (s.workers t).pending

variable {name : Nat → String} {programs : Nat → List Act} {s s' : Reporting} {t : Nat}

theorem Threads.initial (programs : Nat → List Act) : Threads programs (initial programs) where
  fits := by
    intro t line handled h
    cases h
  holds := by
    intro t
    exact iff_of_false Bool.false_ne_true (fun h => by cases h)
  order := fun _ => rfl

/-- One thread moves; it may take or leave the monitor and let an operation take effect. -/
theorem Threads.setWorker (h : Threads programs s) {w : Worker}
    (hworkers : s'.workers = Function.update s.workers t w) (hfits : w.Fits)
    (hself : w.pc.holds = true ↔ s'.monitor = some t)
    (hother : ∀ u, u ≠ t → (s'.monitor = some u ↔ s.monitor = some u)) (effect : List Operation)
    (hhistory : s'.history = s.history ++ effect.map (Prod.mk t))
    (horder : (s.workers t).pending = effect ++ w.pending) : Threads programs s' where
  fits := by
    rw [hworkers]
    exact (Function.forall_update_iff s.workers (fun _ => Worker.Fits)).2
      ⟨hfits, fun u _ => h.fits u⟩
  holds := by
    intro u
    by_cases hu : u = t
    · subst hu
      rw [hworkers, Function.update_self]
      exact hself
    · rw [hworkers, Function.update_of_ne hu, hother u hu]
      exact h.holds u
  order := by
    intro u
    rw [h.order u, hworkers, hhistory, own_append]
    by_cases hu : u = t
    · subst hu
      have hown : own u (effect.map (Prod.mk u)) = effect.map (Prod.mk u) := by
        rw [own, List.filter_eq_self]
        rintro _ hx
        obtain ⟨o, -, rfl⟩ := List.mem_map.1 hx
        exact decide_eq_true rfl
      rw [Function.update_self, hown, List.map_append, List.map_map, List.append_assoc, horder]
      simp
    · have hown : own u (effect.map (Prod.mk t)) = [] := by
        rw [own, List.filter_eq_nil_iff]
        rintro _ hx
        obtain ⟨o, -, rfl⟩ := List.mem_map.1 hx
        simpa using Ne.symm hu
      rw [Function.update_of_ne hu, hown, List.append_nil]

theorem not_isNotice_messages (b : Block) : ∀ line ∈ b.messages, line.isNotice = false := by
  intro line hline
  simp only [Block.messages, List.mem_cons, List.mem_append, List.mem_map, List.mem_nil_iff,
    or_false] at hline
  rcases hline with rfl | rfl | ⟨row, -, rfl⟩ | rfl
  · rfl
  · rfl
  · unfold rowMessage
    split <;> rfl
  · rfl

theorem Threads.advances (h : Threads programs s) {w : Worker} (hw : s.workers t = w)
    (hstep : Advances name s t w s') : Threads programs s' := by
  have hfits := h.fits t
  have hholds := h.holds t
  rw [hw] at hfits hholds
  have hkeep : ∀ u, u ≠ t → (s.monitor = some u ↔ s.monitor = some u) := fun _ _ => Iff.rfl
  have htake : s.monitor = none → ∀ u, u ≠ t → (some t = some u ↔ s.monitor = some u) := by
    intro hfree u hu
    rw [hfree]
    simp [Ne.symm hu]
  have hleave : s.monitor = some t →
      ∀ u, u ≠ t → ((none : Option Nat) = some u ↔ s.monitor = some u) := by
    intro hheld u hu
    rw [hheld]
    simp [Ne.symm hu]
  have hfree : ReportPc.ready.holds = true ↔ (none : Option Nat) = some t :=
    iff_of_false Bool.false_ne_true (fun h => by cases h)
  cases hstep with
  | notice body =>
      refine h.setWorker rfl ?_ hholds hkeep [] (List.append_nil _).symm (by rw [hw]; rfl)
      rintro line handled heq
      cases heq
      rfl
  | count =>
      exact h.setWorker rfl ⟨rfl, _, rfl⟩ hholds hkeep [] (List.append_nil _).symm (by rw [hw]; rfl)
  | close =>
      exact h.setWorker rfl (fun _ _ heq => by cases heq) hholds hkeep [.canRecord false] rfl
        (by rw [hw]; rfl)
  | enter hfree =>
      exact h.setWorker rfl ⟨rfl, _, rfl⟩ (iff_of_true rfl rfl) (htake hfree) []
        (List.append_nil _).symm (by rw [hw]; rfl)
  | roll hfree =>
      exact h.setWorker rfl
        ⟨⟨_, rfl⟩, fun _ hl => absurd hl List.not_mem_nil, fun _ _ heq => by cases heq⟩
        (iff_of_true rfl rfl) (htake hfree) [.printAndRolling _] rfl (by rw [hw]; rfl)
  | flag =>
      obtain ⟨-, rest, hrest⟩ := hfits
      cases hrest
      exact h.setWorker rfl (fun _ _ heq => by cases heq) hholds hkeep [.canRecord true] rfl
        (by rw [hw]; rfl)
  | refuse hoff =>
      obtain ⟨-, rest, hrest⟩ := hfits
      cases hrest
      exact h.setWorker rfl (fun _ _ heq => by cases heq) hfree (hleave (hholds.1 rfl))
        [.mergeRecord _] rfl (by rw [hw]; rfl)
  | pass hon =>
      obtain ⟨-, rest, hrest⟩ := hfits
      cases hrest
      exact h.setWorker rfl ⟨rfl, _, rfl⟩ hholds hkeep [.mergeRecord _] rfl (by rw [hw]; rfl)
  | store =>
      obtain ⟨-, rest, hrest⟩ := hfits
      cases hrest
      exact h.setWorker rfl (fun _ _ heq => by cases heq) hfree (hleave (hholds.1 rfl)) []
        (List.append_nil _).symm (by rw [hw]; rfl)
  | send =>
      obtain ⟨htodo, hlines, -⟩ := hfits
      refine h.setWorker rfl ⟨htodo, fun l hl => hlines l (List.mem_cons_of_mem _ hl), ?_⟩ hholds
        hkeep [] (List.append_nil _).symm (by rw [hw]; rfl)
      rintro line handled heq
      cases heq
      exact hlines _ (List.mem_cons_self ..)
  | next =>
      obtain ⟨htodo, -, -⟩ := hfits
      refine h.setWorker rfl ⟨htodo, fun l hl => ?_, fun _ _ heq => by cases heq⟩ hholds hkeep []
        (List.append_nil _).symm (by rw [hw]; rfl)
      obtain ⟨b, -, hb⟩ := List.mem_flatMap.1 hl
      exact not_isNotice_messages b l hb
  | leave =>
      obtain ⟨⟨rest, hrest⟩, -, -⟩ := hfits
      cases hrest
      exact h.setWorker rfl (fun _ _ heq => by cases heq) hfree (hleave (hholds.1 rfl)) []
        (List.append_nil _).symm (by rw [hw]; rfl)

/-- The message that a thread waits for changes, or the thread waits no longer. -/
theorem Threads.message (h : Threads programs s) {todo : List Act} {pc : ReportPc}
    {line : TransferMessage} {handled : Bool} (hw : s.workers t = ⟨todo, pc, some (line, handled)⟩)
    {console : List TransferMessage} {inFlight : Option (TransferMessage × Bool)}
    (hmessage : inFlight = none ∨ inFlight = some (line, true)) :
    Threads programs ({ s with console := console }.setWorker t ⟨todo, pc, inFlight⟩) := by
  have hfits := h.fits t
  have hholds := h.holds t
  rw [hw] at hfits hholds
  have hsame : ∀ l b, inFlight = some (l, b) → l = line := by
    rintro l b rfl
    rcases hmessage with heq | heq
    · cases heq
    · cases heq
      rfl
  refine h.setWorker rfl ?_ hholds (fun _ _ => Iff.rfl) [] (List.append_nil _).symm
    (by rw [hw]; rfl)
  cases pc with
  | ready => exact fun l b heq => hsame l b heq ▸ hfits line handled rfl
  | flagging => cases hfits.1
  | merging x => cases hfits.1
  | storing x => cases hfits.1
  | rolling entries clock lines blocks =>
      exact ⟨hfits.1, hfits.2.1, fun l b heq => hsame l b heq ▸ hfits.2.2 line handled rfl⟩

theorem Threads.step (h : Threads programs s) {a : ReportAction}
    (hstep : step name s a = some s') : Threads programs s' := by
  rcases step_cases hstep with ⟨t, todo, pc, hw, hadv⟩ | ⟨t, todo, pc, line, hw, rfl⟩ |
    ⟨t, todo, pc, line, hw, rfl⟩ | ⟨t, todo, pc, line, -, hw, rfl⟩
  · exact h.advances hw hadv
  · exact h.message hw (Or.inr rfl)
  · exact h.message hw (Or.inl rfl)
  · exact h.message hw (Or.inl rfl)

/-! ## What a roll has still to do -/

/-- What the steps of a roll over some entries come to. -/
theorem foldl_rollEntry (entries : List (Σ _ : String, TimeCostChain)) (m : TimeCostManager)
    (clock : String → Int) :
    entries.foldl (fun m e => rollEntry m clock e) m
      = { m with
          backup := entries.foldl (fun backup e => archive backup e.1 (clock e.1) e.2) m.backup
          costMap := AssocMap.mapVals
            (fun key chain => if key ∈ entries.map Sigma.fst then .empty else chain)
            m.costMap } := by
  induction entries generalizing m with
  | nil =>
      have hkeep : AssocMap.mapVals (fun key chain =>
          if key ∈ ([] : List (Σ _ : String, TimeCostChain)).map Sigma.fst then .empty else chain)
            m.costMap = m.costMap := AssocMap.mapVals_eq_self (fun _ _ _ => if_neg List.not_mem_nil)
      rw [hkeep]
      rfl
  | cons e rest ih =>
      have hmap : AssocMap.mapVals (fun key chain =>
          if key ∈ (e :: rest).map Sigma.fst then .empty else chain) m.costMap
            = AssocMap.mapVals (fun key chain => if key ∈ rest.map Sigma.fst then .empty
                else if key = e.1 then .empty else chain) m.costMap := by
        refine AssocMap.mapVals_congr (fun key chain _ => ?_)
        by_cases hkey : key = e.1
        · simp [hkey]
        · refine if_congr ?_ rfl (if_neg hkey).symm
          rw [List.map_cons, List.mem_cons, or_iff_right hkey]
      rw [List.foldl_cons, ih, hmap, rollEntry, AssocMap.mapVals_mapVals]
      rfl

/-- The steps of a roll do what `printAndRolling` does. -/
theorem foldl_rollEntry_entries (m : TimeCostManager) (current : String) (clock : String → Int) :
    m.costMap.entries.foldl (fun m e => rollEntry m clock e) m
      = (m.printAndRolling current clock).1 := by
  have hempty : AssocMap.mapVals (fun key chain =>
      if key ∈ m.costMap.entries.map Sigma.fst then .empty else chain) m.costMap
        = AssocMap.mapVals (fun _ _ => .empty) m.costMap :=
    AssocMap.mapVals_congr (fun key chain hlookup => if_pos
      (List.mem_map_of_mem (f := Sigma.fst) (AList.mem_lookup_iff.1 hlookup)))
  rw [foldl_rollEntry, hempty]
  rfl

/-! ## The order of the effects -/

/-- The thread in the monitor, and where it is. -/
def held (s : Reporting) : Option (Nat × Worker) := s.monitor.map (fun t => (t, s.workers t))

/-- The manager once the thread in the monitor has come out of it. -/
def settled (name : Nat → String) (s : Reporting) : TimeCostManager :=
  s.held.elim s.manager (fun x => x.2.pc.settle (name x.1) s.manager)

/-- The roll of the thread in the monitor, if it is rolling. -/
def unfinished (name : Nat → String) (s : Reporting) :
    List (List (String × String × List TimeCostRecord)) :=
  s.held.elim [] (fun x => x.2.pc.unfinished (name x.1))

/-- The atomic operations in the order of their effects. -/
def atomic (name : Nat → String) (s : Reporting) : TimeCostManager × List (List Block) :=
  TimeCostManager.initial.run (eventsIn name s.history)

/-- Apart from the counter and the numbers that come from it, the operations may be taken to be
    atomic. -/
structure Agrees (name : Nat → String) (s : Reporting) : Prop where
  manager : (s.settled name).unnumbered = (s.atomic name).1.unnumbered
  rolls : s.rolls.map (List.map Block.unnumbered) ++ s.unfinished name
    = (s.atomic name).2.map (List.map Block.unnumbered)

theorem settle_with (pc : ReportPc) (key : String) (m : TimeCostManager) (n : BitVec 32)
    (b : Bool) : pc.settle key { m with seq := n, recording := b }
      = { pc.settle key m with seq := n, recording := b } := by
  cases pc with
  | rolling entries clock lines blocks => simp only [ReportPc.settle, foldl_rollEntry]
  | ready => rfl
  | flagging => rfl
  | merging x => rfl
  | storing x => rfl

theorem recording_settle (pc : ReportPc) (key : String) (m : TimeCostManager) :
    (pc.settle key m).recording = m.recording := by
  have h := congrArg TimeCostManager.recording (settle_with pc key m m.seq m.recording)
  exact h

theorem recording_settled (name : Nat → String) (s : Reporting) :
    (s.settled name).recording = s.manager.recording := by
  unfold settled
  cases s.held with
  | none => rfl
  | some x => exact recording_settle ..

/-- The thread that moves is not the one in the monitor. -/
theorem held_of_ne {w : Worker} (hmonitor : s'.monitor = s.monitor)
    (hworkers : s'.workers = Function.update s.workers t w) (h : s.monitor ≠ some t) :
    s'.held = s.held := by
  rw [held, held, hmonitor, hworkers]
  cases hm : s.monitor with
  | none => rfl
  | some u =>
      have hu : u ≠ t := fun heq => h (heq ▸ hm)
      rw [Option.map_some, Option.map_some, Function.update_of_ne hu]

theorem settled_of_held {n : BitVec 32} {b : Bool} (hheld : s'.held = s.held)
    (hmanager : s'.manager = { s.manager with seq := n, recording := b }) :
    s'.settled name = { s.settled name with seq := n, recording := b } := by
  rw [settled, settled, hheld, hmanager]
  cases s.held with
  | none => rfl
  | some x => exact settle_with ..

/-- What an operation does does not depend on the counter. -/
theorem exec_unnumbered {m m' : TimeCostManager} (h : m.unnumbered = m'.unnumbered) (e : Event) :
    (m.exec e).1.unnumbered = (m'.exec e).1.unnumbered ∧
      (m.exec e).2.map (List.map Block.unnumbered)
        = (m'.exec e).2.map (List.map Block.unnumbered) := by
  obtain ⟨backup, costMap, recording, seq⟩ := m
  obtain ⟨backup', costMap', recording', seq'⟩ := m'
  cases h
  obtain ⟨key, o⟩ := e
  cases o with
  | canRecord b => exact ⟨rfl, rfl⟩
  | mergeRecord x =>
      refine ⟨?_, rfl⟩
      cases recording <;> rfl
  | printAndRolling clock =>
      refine ⟨rfl, congrArg (fun blocks => [blocks]) ?_⟩
      simp only [printAndRolling, List.map_filterMap, unnumbered_block]

theorem Agrees.initial (name : Nat → String) (programs : Nat → List Act) :
    Agrees name (initial programs) := ⟨rfl, rfl⟩

/-- A step in which no operation takes effect. -/
theorem Agrees.silent (h : Agrees name s) (hhistory : s'.history = s.history)
    (hmanager : (s'.settled name).unnumbered = (s.settled name).unnumbered)
    (hrolls : s'.rolls.map (List.map Block.unnumbered) ++ s'.unfinished name
      = s.rolls.map (List.map Block.unnumbered) ++ s.unfinished name) : Agrees name s' where
  manager := by
    rw [hmanager, h.manager, atomic, atomic, hhistory]
  rolls := by
    rw [hrolls, h.rolls, atomic, atomic, hhistory]

/-- A step in which an operation takes effect. -/
theorem Agrees.commit (h : Agrees name s) {o : Operation}
    (hhistory : s'.history = s.history ++ [(t, o)])
    (hmanager : (s'.settled name).unnumbered
      = ((s.settled name).exec ⟨name t, o⟩).1.unnumbered)
    (hrolls : s'.rolls.map (List.map Block.unnumbered) ++ s'.unfinished name
      = s.rolls.map (List.map Block.unnumbered) ++ s.unfinished name
        ++ ((s.settled name).exec ⟨name t, o⟩).2.map (List.map Block.unnumbered)) :
    Agrees name s' := by
  have hatomic : s'.atomic name = (((s.atomic name).1.exec ⟨name t, o⟩).1,
      (s.atomic name).2 ++ ((s.atomic name).1.exec ⟨name t, o⟩).2) := by
    rw [atomic, hhistory, eventsIn_append, run_append]
    exact Prod.ext rfl (congrArg ((s.atomic name).2 ++ ·) (List.append_nil _))
  obtain ⟨hsame, hblocks⟩ := exec_unnumbered h.manager ⟨name t, o⟩
  refine ⟨?_, ?_⟩
  · rw [hmanager, hsame, hatomic]
  · rw [hrolls, h.rolls, hblocks, hatomic, List.map_append]

/-- A thread outside the monitor moves, and no operation takes effect. -/
theorem Agrees.of_held (h : Agrees name s) (hheld : s'.held = s.held) {n : BitVec 32}
    (hmanager : s'.manager = { s.manager with seq := n }) (hhistory : s'.history = s.history)
    (hrolls : s'.rolls = s.rolls) : Agrees name s' := by
  refine h.silent hhistory ?_ (by rw [hrolls, unfinished, unfinished, hheld])
  rw [settled_of_held hheld hmanager, ← recording_settled name s]
  rfl

/-- A thread outside the monitor writes the flag. -/
theorem Agrees.write (h : Agrees name s) (hheld : s'.held = s.held) {b : Bool}
    (hmanager : s'.manager = { s.manager with recording := b })
    (hhistory : s'.history = s.history ++ [(t, .canRecord b)]) (hrolls : s'.rolls = s.rolls) :
    Agrees name s' := by
  refine h.commit hhistory ?_ ?_
  · rw [settled_of_held hheld hmanager]
    rfl
  · rw [hrolls, unfinished, unfinished, hheld]
    exact (List.append_nil _).symm

theorem settled_of_free (h : s.monitor = none) : s.settled name = s.manager := by
  rw [settled, held, h, Option.map_none, Option.elim_none]

theorem settled_of_monitor {w : Worker} (h : s.monitor = some t) (hw : s.workers t = w) :
    s.settled name = w.pc.settle (name t) s.manager := by
  rw [settled, held, h, Option.map_some, Option.elim_some, hw]

theorem settled_setWorker {w : Worker} (h : s.monitor = some t) :
    (s.setWorker t w).settled name = w.pc.settle (name t) s.manager :=
  settled_of_monitor h (Function.update_self ..)

theorem unfinished_of_free (h : s.monitor = none) : s.unfinished name = [] := by
  rw [unfinished, held, h, Option.map_none, Option.elim_none]

theorem unfinished_of_monitor {w : Worker} (h : s.monitor = some t) (hw : s.workers t = w) :
    s.unfinished name = w.pc.unfinished (name t) := by
  rw [unfinished, held, h, Option.map_some, Option.elim_some, hw]

theorem unfinished_setWorker {w : Worker} (h : s.monitor = some t) :
    (s.setWorker t w).unfinished name = w.pc.unfinished (name t) :=
  unfinished_of_monitor h (Function.update_self ..)

/-- A block that is printed is a block to come. -/
theorem unfinished_next (m : TimeCostManager) (key : String) (e : Σ _ : String, TimeCostChain)
    (entries : List (Σ _ : String, TimeCostChain)) (clock : String → Int)
    (lines lines' : List TransferMessage) (blocks : List Block) :
    (ReportPc.rolling entries clock lines (blocks ++ (m.block key e.1 e.2).toList)).unfinished key
      = (ReportPc.rolling (e :: entries) clock lines' blocks).unfinished key := by
  rw [ReportPc.unfinished, ReportPc.unfinished, List.map_append, List.append_assoc,
    List.filterMap_cons, ← unnumbered_block m key e.1 e.2]
  cases m.block key e.1 e.2 <;> rfl

/-- The message that a thread waits for plays no part. -/
theorem Agrees.message (h : Agrees name s) {todo : List Act} {pc : ReportPc}
    {inFlight : Option (TransferMessage × Bool)} (hw : s.workers t = ⟨todo, pc, inFlight⟩)
    (console : List TransferMessage) (inFlight' : Option (TransferMessage × Bool)) :
    Agrees name ({ s with console := console }.setWorker t ⟨todo, pc, inFlight'⟩) := by
  by_cases hmon : s.monitor = some t
  · refine h.silent rfl ?_ ?_
    · rw [settled_of_monitor hmon hw, settled_setWorker]
      exact hmon
    · rw [unfinished_of_monitor hmon hw, unfinished_setWorker]
      · rfl
      · exact hmon
  · exact h.of_held (held_of_ne rfl rfl hmon) rfl rfl rfl

theorem Agrees.advances (h : Agrees name s) (hthreads : Threads programs s) {w : Worker}
    (hw : s.workers t = w) (hstep : Advances name s t w s') : Agrees name s' := by
  have hout : w.pc.holds = false → s.monitor ≠ some t := by
    intro hpc hmon
    rw [← hthreads.holds t, hw, hpc] at hmon
    cases hmon
  have hin : w.pc.holds = true → s.monitor = some t := by
    intro hpc
    exact (hthreads.holds t).1 (by rw [hw, hpc])
  cases hstep with
  | notice body => exact h.of_held (held_of_ne rfl rfl (hout rfl)) rfl rfl rfl
  | count => exact h.of_held (held_of_ne rfl rfl (hout rfl)) rfl rfl rfl
  | close => exact h.write (held_of_ne rfl rfl (hout rfl)) rfl rfl rfl
  | flag => exact h.write (held_of_ne rfl rfl (hout rfl)) rfl rfl rfl
  | enter hmon =>
      refine h.silent rfl ?_ ?_
      · rw [settled_of_free hmon, settled_setWorker rfl]
        rfl
      · rw [unfinished_of_free hmon, unfinished_setWorker rfl]
        rfl
  | @roll rest clock hmon =>
      refine h.commit rfl ?_ ?_
      · rw [settled_of_free hmon, settled_setWorker rfl]
        exact congrArg TimeCostManager.unnumbered (foldl_rollEntry_entries s.manager (name t) clock)
      · rw [settled_of_free hmon, unfinished_of_free hmon, unfinished_setWorker rfl,
          List.append_nil]
        refine congrArg (fun blocks => s.rolls.map (List.map Block.unnumbered) ++ [blocks]) ?_
        simp only [printAndRolling, List.map_filterMap, unnumbered_block]
        rfl
  | @refuse todo x hoff =>
      have hrefused : s.manager.mergeRecord (name t) x.toRecord = s.manager := by
        rw [mergeRecord, hoff]
        rfl
      refine h.commit rfl ?_ ?_
      · rw [settled_of_monitor (hin rfl) hw, settled_of_free rfl]
        exact congrArg TimeCostManager.unnumbered hrefused.symm
      · rw [unfinished_of_monitor (hin rfl) hw, unfinished_of_free rfl]
        exact (List.append_nil _).symm
  | @pass todo x hon =>
      have haccepted : s.manager.mergeRecord (name t) x.toRecord
          = s.manager.store (name t) x.toRecord := by
        rw [mergeRecord, hon]
        rfl
      refine h.commit rfl ?_ ?_
      · rw [settled_of_monitor (hin rfl) hw, settled_setWorker]
        · exact congrArg TimeCostManager.unnumbered haccepted.symm
        · exact hin rfl
      · rw [unfinished_of_monitor (hin rfl) hw, unfinished_setWorker]
        · exact (List.append_nil _).symm
        · exact hin rfl
  | store =>
      refine h.silent rfl ?_ ?_
      · rw [settled_of_monitor (hin rfl) hw, settled_of_free rfl]
        rfl
      · rw [unfinished_of_monitor (hin rfl) hw, unfinished_of_free rfl]
        rfl
  | send =>
      refine h.silent rfl ?_ ?_
      · rw [settled_of_monitor (hin rfl) hw, settled_setWorker (hin rfl)]
        rfl
      · rw [unfinished_of_monitor (hin rfl) hw, unfinished_setWorker (hin rfl)]
        rfl
  | next =>
      refine h.silent rfl ?_ ?_
      · rw [settled_of_monitor (hin rfl) hw, settled_setWorker]
        · rfl
        · exact hin rfl
      · rw [unfinished_of_monitor (hin rfl) hw, unfinished_setWorker]
        · exact congrArg (s.rolls.map (List.map Block.unnumbered) ++ ·) (unfinished_next ..)
        · exact hin rfl
  | @leave todo clock blocks =>
      refine h.silent rfl ?_ ?_
      · rw [settled_of_monitor (hin rfl) hw, settled_of_free rfl]
        rfl
      · rw [unfinished_of_monitor (hin rfl) hw, unfinished_of_free rfl, List.append_nil]
        simp [setWorker, ReportPc.unfinished]

theorem Agrees.step (h : Agrees name s) (hthreads : Threads programs s) {a : ReportAction}
    (hstep : step name s a = some s') : Agrees name s' := by
  rcases step_cases hstep with ⟨t, todo, pc, hw, hadv⟩ | ⟨t, todo, pc, line, hw, rfl⟩ |
    ⟨t, todo, pc, line, hw, rfl⟩ | ⟨t, todo, pc, line, -, hw, rfl⟩
  · exact h.advances hthreads hw hadv
  · exact h.message hw _ _
  · exact h.message hw _ _
  · exact h.message hw _ _

/-! ## The counter -/

/-- The entry calls that `seq` has counted are those whose `canRecord(true)` has taken effect and
    those of the threads that are about to write the flag. -/
structure Counted (name : Nat → String) (s : Reporting) : Prop where
  seq : s.manager.seq = BitVec.ofNat 32 s.begun
  begun : ∃ flagging : Finset Nat, (∀ t, t ∈ flagging ↔ (s.workers t).pc.isFlagging = true) ∧
    s.begun = opened (eventsIn name s.history) + flagging.card

theorem Counted.initial (name : Nat → String) (programs : Nat → List Act) :
    Counted name (initial programs) :=
  ⟨rfl, ∅, fun _ => iff_of_false (Finset.notMem_empty _) Bool.false_ne_true, rfl⟩

theorem opened_commit (name : Nat → String) (history : List ThreadStep) (x : ThreadStep) :
    opened (eventsIn name (history ++ [x]))
      = opened (eventsIn name history) + if x.2.opens then 1 else 0 := by
  rw [eventsIn_append, opened, List.countP_append]
  exact congrArg (opened (eventsIn name history) + ·) (List.countP_singleton ..)

/-- A step that counts no entry call and writes no flag for one. -/
theorem Counted.keep (h : Counted name s) {w : Worker} (hseq : s'.manager.seq = s.manager.seq)
    (hbegun : s'.begun = s.begun) (hworkers : s'.workers = Function.update s.workers t w)
    (hpc : w.pc.isFlagging = (s.workers t).pc.isFlagging) (effect : List Operation)
    (hhistory : s'.history = s.history ++ effect.map (Prod.mk t))
    (heffect : ∀ o ∈ effect, o.opens = false) : Counted name s' := by
  obtain ⟨flagging, hmem, hcount⟩ := h.begun
  refine ⟨by rw [hseq, hbegun, h.seq], flagging, fun u => ?_, ?_⟩
  · rw [hmem, hworkers]
    by_cases hu : u = t
    · subst hu
      rw [Function.update_self, hpc]
    · rw [Function.update_of_ne hu]
  · have hnone : opened (eventsIn name (effect.map (Prod.mk t))) = 0 := by
      simpa [opened, eventsIn] using heffect
    rw [hbegun, hcount, hhistory, eventsIn_append, opened, opened, List.countP_append, ← opened,
      ← opened, hnone, Nat.add_zero]

theorem Counted.advances (h : Counted name s) {w : Worker} (hw : s.workers t = w)
    (hstep : Advances name s t w s') : Counted name s' := by
  have hnil : ∀ o ∈ ([] : List Operation), o.opens = false := fun _ ho => absurd ho List.not_mem_nil
  have hone : ∀ {o : Operation}, o.opens = false → ∀ o' ∈ [o], o'.opens = false :=
    fun ho o' ho' => List.mem_singleton.1 ho' ▸ ho
  cases hstep with
  | count =>
      obtain ⟨flagging, hmem, hcount⟩ := h.begun
      have hnew : t ∉ flagging := by
        rw [hmem, hw]
        exact Bool.false_ne_true
      refine ⟨?_, insert t flagging, fun u => ?_, ?_⟩
      · show s.manager.seq + 1 = BitVec.ofNat 32 (s.begun + 1)
        rw [h.seq, BitVec.ofNat_add]
        rfl
      · rw [Finset.mem_insert, hmem]
        by_cases hu : u = t
        · subst hu
          exact iff_of_true (Or.inl rfl) (by simp [setWorker, ReportPc.isFlagging])
        · rw [or_iff_right hu]
          simp [setWorker, Function.update_of_ne hu]
      · rw [Finset.card_insert_of_notMem hnew, ← Nat.add_assoc]
        exact congrArg (· + 1) hcount
  | flag =>
      obtain ⟨flagging, hmem, hcount⟩ := h.begun
      have hold : t ∈ flagging := by
        rw [hmem, hw]
        rfl
      refine ⟨h.seq, flagging.erase t, fun u => ?_, ?_⟩
      · rw [Finset.mem_erase, hmem]
        by_cases hu : u = t
        · subst hu
          exact iff_of_false (fun hmem => hmem.1 rfl) (by simp [setWorker, ReportPc.isFlagging])
        · rw [and_iff_right hu]
          simp [setWorker, commit, Function.update_of_ne hu]
      · have hcard := Finset.card_erase_add_one hold
        have hopened := opened_commit name s.history (t, .canRecord true)
        simp only [Operation.opens, if_true] at hopened
        show s.begun = opened (eventsIn name (s.history ++ [(t, .canRecord true)]))
          + (flagging.erase t).card
        omega
  | notice body => exact h.keep rfl rfl rfl (by rw [hw]) [] (List.append_nil _).symm hnil
  | close =>
      refine h.keep ?_ rfl rfl (by rw [hw]) [.canRecord false] rfl (hone rfl)
      rfl
  | enter hmon => exact h.keep rfl rfl rfl (by rw [hw]; rfl) [] (List.append_nil _).symm hnil
  | roll hmon =>
      exact h.keep rfl rfl rfl (by rw [hw]; rfl) [.printAndRolling _] rfl (hone rfl)
  | refuse hoff => exact h.keep rfl rfl rfl (by rw [hw]; rfl) [.mergeRecord _] rfl (hone rfl)
  | pass hon => exact h.keep rfl rfl rfl (by rw [hw]; rfl) [.mergeRecord _] rfl (hone rfl)
  | store => exact h.keep rfl rfl rfl (by rw [hw]; rfl) [] (List.append_nil _).symm hnil
  | send => exact h.keep rfl rfl rfl (by rw [hw]; rfl) [] (List.append_nil _).symm hnil
  | next => exact h.keep rfl rfl rfl (by rw [hw]; rfl) [] (List.append_nil _).symm hnil
  | leave => exact h.keep rfl rfl rfl (by rw [hw]; rfl) [] (List.append_nil _).symm hnil

theorem Counted.step (h : Counted name s) {a : ReportAction}
    (hstep : step name s a = some s') : Counted name s' := by
  rcases step_cases hstep with ⟨t, todo, pc, hw, hadv⟩ | ⟨t, todo, pc, line, hw, rfl⟩ |
    ⟨t, todo, pc, line, hw, rfl⟩ | ⟨t, todo, pc, line, -, hw, rfl⟩
  · exact h.advances hw hadv
  · exact h.keep rfl rfl rfl (by rw [hw]) [] (List.append_nil _).symm (by simp)
  · exact h.keep rfl rfl rfl (by rw [hw]) [] (List.append_nil _).symm (by simp)
  · exact h.keep rfl rfl rfl (by rw [hw]) [] (List.append_nil _).symm (by simp)

/-! ## The runs -/

theorem invariants (hrun : Trace.Runs (step name) (fun _ _ => True) (initial programs) s) :
    Threads programs s ∧ Agrees name s ∧ Counted name s :=
  hrun.invariant (P := fun s => Threads programs s ∧ Agrees name s ∧ Counted name s)
    (fun ⟨hthreads, hagrees, hcounted⟩ _ hstep =>
      ⟨hthreads.step hstep, hagrees.step hthreads hstep, hcounted.step hstep⟩)
    ⟨.initial programs, .initial name programs, .initial name programs⟩

theorem Threads.monitor_of_ready (h : Threads programs s)
    (hready : ∀ t, (s.workers t).pc = .ready) : s.monitor = none := by
  cases hmon : s.monitor with
  | none => rfl
  | some t =>
      have hholds := (h.holds t).2 hmon
      rw [hready t] at hholds
      cases hholds

theorem Threads.history_prefix (h : Threads programs s) (t : Nat) :
    (own t s.history).map Prod.snd <+: operationsIn (programs t) :=
  ⟨_, (h.order t).symm⟩

theorem manager_of_ready (hagrees : Agrees name s) (hcounted : Counted name s)
    (hmon : s.monitor = none) (hready : ∀ t, (s.workers t).pc = .ready) :
    s.manager = (s.atomic name).1 := by
  have hmanager := hagrees.manager
  rw [settled_of_free hmon] at hmanager
  obtain ⟨flagging, hmem, hcount⟩ := hcounted.begun
  have hempty : flagging = ∅ := by
    refine Finset.eq_empty_of_forall_notMem (fun t => ?_)
    rw [hmem, hready t]
    exact Bool.false_ne_true
  rw [hempty, Finset.card_empty, Nat.add_zero] at hcount
  have hseq := hcounted.seq
  rw [hcount, ← seq_run] at hseq
  exact eq_of_unnumbered hmanager hseq

theorem Agrees.rolls_of_free (h : Agrees name s) (hmon : s.monitor = none) :
    s.rolls.map (List.map Block.unnumbered)
      = (s.atomic name).2.map (List.map Block.unnumbered) := by
  have hrolls := h.rolls
  rwa [unfinished_of_free hmon, List.append_nil] at hrolls

/-- **The operations may be taken to be atomic.** Whatever steps the threads take and in which
    order, the operations that have taken effect are in the order of every thread's program. When no
    thread is in the middle of one, the manager is what these operations make of it one after the
    other, and the rolls have printed what they print then, up to the numbers in the headers. -/
theorem monitor_linearizes
    (hrun : Trace.Runs (step name) (fun _ _ => True) (initial programs) s) :
    (∀ t, (own t s.history).map Prod.snd <+: operationsIn (programs t)) ∧
      ((∀ t, (s.workers t).pc = .ready) →
        (∀ t, operationsIn (programs t)
          = (own t s.history).map Prod.snd ++ operationsIn (s.workers t).todo) ∧
        s.manager = (TimeCostManager.initial.run (eventsIn name s.history)).1 ∧
        s.rolls.map (List.map Block.unnumbered)
          = (TimeCostManager.initial.run (eventsIn name s.history)).2.map
              (List.map Block.unnumbered)) := by
  obtain ⟨hthreads, hagrees, hcounted⟩ := invariants hrun
  refine ⟨hthreads.history_prefix, fun hready => ?_⟩
  have hmon := hthreads.monitor_of_ready hready
  refine ⟨fun t => ?_, manager_of_ready hagrees hcounted hmon hready, hagrees.rolls_of_free hmon⟩
  rw [hthreads.order t, Worker.pending, hready t]

section TwoWorkers

/-- Thread 0 makes an entry call and rolls; thread 1 only begins one. -/
def twoWorkers : Nat → List Act
  | 0 =>
      [.operation (.canRecord true), .operation (.mergeRecord ((callOf "run" 0 5).sample enterRun)),
        .operation (.printAndRolling (fun _ => 5))]
  | 1 => [.operation (.canRecord true)]
  | _ => []

/-- A post that the boot handles. -/
def post (t : Nat) : List ReportAction := [.advance t, .handle t, .answer t]

/-- Both count before either writes the flag. -/
def bothCount : List ReportAction :=
  List.flatten [[.advance 0, .advance 1, .advance 0, .advance 1],
    [.advance 0, .advance 0, .advance 0, .advance 0, .advance 0],
    post 0, post 0, post 0, post 0, [.advance 0]]

theorem bothCount_possible :
    (Trace.execute (step threadName) (initial twoWorkers) bothCount).isSome = true := by
  decide

theorem bothCount_linearizes :
    ∃ s, Trace.Runs (step threadName) (fun _ _ => True) (initial twoWorkers) s ∧
      s.manager = (TimeCostManager.initial.run (eventsIn threadName s.history)).1 := by
  have hrun := Trace.runs_of_execute (Option.some_get bothCount_possible).symm
  refine ⟨_, hrun, ((monitor_linearizes hrun).2 ?_).2.1⟩
  rintro (_ | _ | t) <;> rfl

end TwoWorkers

end Reporting

end Jma
