import Jma.Advice.Threads
import Jma.Core.Blocks
import Mathlib.Algebra.Group.Nat.Defs

set_option autoImplicit false

/-! # What the header of a block says

The header carries the name of the thread that rolls and the current `seq`, while the block lists
the samples of the thread that took them. `seq` counts the entry calls that have begun, in all
threads. So a header names the wrong thread when a roll prints what another thread left pending, and
two headers are the same when a thread rolls twice and nobody begins an entry call in between. -/

namespace Jma

open TimeCostManager

/-- Every block is headed by the name of the thread whose samples it lists, and the blocks of two
    rolls never carry the same header. -/
structure HeadersIdentify (printed : List (List Block)) : Prop where
  names : ∀ blocks ∈ printed, ∀ b ∈ blocks, b.headerName = b.threadName
  distinct : printed.Pairwise (fun blocks blocks' => ∀ b ∈ blocks, ∀ b' ∈ blocks',
    (b.headerName, b.headerSeq) ≠ (b'.headerName, b'.headerSeq))

/-- `canRecord(true)`, the beginning of an entry call. -/
def Operation.opens : Operation → Bool
  | .canRecord b => b
  | _ => false

/-- How many entry calls have begun. -/
def opened (es : List Event) : Nat := es.countP (fun e => e.operation.opens)

/-- Every accepted sample is rolled by a thread of the name under which it is stored. -/
def RolledByOwn (es : List Event) : Prop :=
  ∀ p u clock q, es = p ++ ⟨u, .printAndRolling clock⟩ :: q → ∀ t, Unrolled t p → u = t

/-- Between two rolls that print something, by threads of one name, entry calls begin, and not a
    multiple of `2 ^ 32` of them. -/
def EntersBetween (es : List Event) : Prop :=
  ∀ p u clock q clock' r,
    es = p ++ ⟨u, .printAndRolling clock⟩ :: q ++ ⟨u, .printAndRolling clock'⟩ :: r →
      (∃ t, Unrolled t p) → (∃ t, Unrolled t (p ++ ⟨u, .printAndRolling clock⟩ :: q)) →
        ¬2 ^ 32 ∣ opened q

/-! ## The counter -/

theorem seq_run (es : List Event) : (initial.run es).1.seq = BitVec.ofNat 32 (opened es) := by
  induction es using List.reverseRecOn with
  | nil => rfl
  | append_singleton es e ih =>
      rw [run_append, opened, List.countP_append, ← opened]
      obtain ⟨u, op⟩ := e
      cases op with
      | canRecord b =>
          cases b with
          | true =>
              show (initial.run es).1.seq + 1 = _
              rw [ih, BitVec.ofNat_add]
              rfl
          | false => exact ih
      | mergeRecord s =>
          show ((initial.run es).1.mergeRecord u s.toRecord).seq = _
          unfold mergeRecord
          split <;> exact ih
      | printAndRolling clock => exact ih

theorem ofNat_eq_ofNat_add_iff (a n : Nat) :
    BitVec.ofNat 32 a = BitVec.ofNat 32 (a + n) ↔ 2 ^ 32 ∣ n := by
  rw [← BitVec.toNat_inj, BitVec.toNat_ofNat, BitVec.toNat_ofNat, Nat.dvd_iff_mod_eq_zero]
  omega

/-! ## The blocks of a roll -/

/-- A roll prints a block for `t` iff a sample of `t` is unrolled. -/
theorem exists_block_iff (u : String) (clock : String → Int) {before : List Event} {t : String} :
    (∃ b ∈ printedAfter before u clock, b.threadName = t) ↔ Unrolled t before := by
  rw [← current_ne_nil_iff_unrolled]
  constructor
  · rintro ⟨b, hb, rfl⟩
    exact (mem_printedAfter.1 hb).1
  · intro h
    exact ⟨⟨t, u, (initial.run before).1.seq, groupByMethod (logOf t before).current⟩,
      mem_printedAfter.2 ⟨h, rfl, rfl, rfl⟩, rfl⟩

/-- Two rolls print blocks of different headers iff their threads or the counter differ. -/
theorem headers_ne_iff {p p' : List Event} {u u' : String} {clock clock' : String → Int} :
    (∀ b ∈ printedAfter p u clock, ∀ b' ∈ printedAfter p' u' clock',
      (b.headerName, b.headerSeq) ≠ (b'.headerName, b'.headerSeq)) ↔
    ((∃ t, Unrolled t p) → (∃ t, Unrolled t p') →
      u = u' → (initial.run p).1.seq ≠ (initial.run p').1.seq) := by
  constructor
  · rintro h ⟨t, ht⟩ ⟨t', ht'⟩ rfl hseq
    obtain ⟨b, hb, -⟩ := (exists_block_iff u clock).2 ht
    obtain ⟨b', hb', -⟩ := (exists_block_iff u clock').2 ht'
    obtain ⟨-, hname, hnum, -⟩ := mem_printedAfter.1 hb
    obtain ⟨-, hname', hnum', -⟩ := mem_printedAfter.1 hb'
    exact h b hb b' hb' (by rw [hname, hname', hnum, hnum', hseq])
  · intro h b hb b' hb' heq
    have hunrolled := (exists_block_iff _ _).1 ⟨b, hb, rfl⟩
    have hunrolled' := (exists_block_iff _ _).1 ⟨b', hb', rfl⟩
    obtain ⟨-, hname, hnum, -⟩ := mem_printedAfter.1 hb
    obtain ⟨-, hname', hnum', -⟩ := mem_printedAfter.1 hb'
    rw [hname, hname', hnum, hnum', Prod.mk.injEq] at heq
    exact h ⟨_, hunrolled⟩ ⟨_, hunrolled'⟩ heq.1 heq.2

theorem names_iff (es : List Event) :
    (∀ blocks ∈ (initial.run es).2, ∀ b ∈ blocks, b.headerName = b.threadName) ↔
      RolledByOwn es := by
  constructor
  · intro h p u clock q hsplit t ht
    obtain ⟨b, hb, rfl⟩ := (exists_block_iff u clock).2 ht
    have hname := h _ (mem_run.2 ⟨p, u, clock, q, hsplit, rfl⟩) b hb
    rw [← hname, (mem_printedAfter.1 hb).2.1]
  · intro h blocks hblocks b hb
    obtain ⟨p, u, clock, q, hsplit, rfl⟩ := mem_run.1 hblocks
    rw [(mem_printedAfter.1 hb).2.1]
    exact h p u clock q hsplit _ ((exists_block_iff _ _).1 ⟨b, hb, rfl⟩)

theorem distinct_iff (es : List Event) :
    (initial.run es).2.Pairwise (fun blocks blocks' => ∀ b ∈ blocks, ∀ b' ∈ blocks',
      (b.headerName, b.headerSeq) ≠ (b'.headerName, b'.headerSeq)) ↔ EntersBetween es := by
  -- the counter moves by the entry calls that begin between the two rolls
  have hseq : ∀ (p q : List Event) (u : String) (clock : String → Int),
      (initial.run p).1.seq ≠ (initial.run (p ++ ⟨u, .printAndRolling clock⟩ :: q)).1.seq ↔
        ¬2 ^ 32 ∣ opened q := by
    intro p q u clock
    have hopened : opened (p ++ ⟨u, .printAndRolling clock⟩ :: q) = opened p + opened q := by
      simp [opened, List.countP_append, Operation.opens]
    rw [seq_run, seq_run, hopened, Ne, ofNat_eq_ofNat_add_iff]
  rw [pairwise_run]
  constructor
  · intro h p u clock q clock' r hsplit hp hq
    exact (hseq p q u clock).1 (headers_ne_iff.1 (h p u clock q u clock' r hsplit) hp hq rfl)
  · intro h p u clock q u' clock' r hsplit
    refine headers_ne_iff.2 (fun hp hq hu => ?_)
    subst hu
    exact (hseq p q u clock).2 (h p u clock q clock' r hsplit hp hq)

/-- **When headers identify their blocks.** The blocks that a run prints are headed by the name of
    their own thread, and no two rolls print the same header, iff every accepted sample is rolled by
    a thread of its name, and between two printing rolls of one thread name entry calls begin, not a
    multiple of `2 ^ 32` of them. -/
theorem headers_identify_iff (es : List Event) :
    HeadersIdentify (initial.run es).2 ↔ RolledByOwn es ∧ EntersBetween es := by
  rw [← names_iff, ← distinct_iff]
  exact ⟨fun h => ⟨h.names, h.distinct⟩, fun h => ⟨h.1, h.2⟩⟩

/-- Thread 1 ends its entry call while thread 0 is in the middle of its own: the block of thread 0
    is printed under the name of thread 1. -/
theorem foreign_roll_misnames :
    Interleaves enterRun twoThreads (beforeOwnRoll ++ [(0, .printAndRolling (fun _ => 5))]) ∧
      ¬HeadersIdentify (initial.run (eventsIn threadName
        (beforeOwnRoll ++ [(0, .printAndRolling (fun _ => 5))]))).2 :=
  ⟨twoThreads_interleave, fun h => absurd h.names (by decide)⟩

/-- The two rolls of a recursive entry call print the same header. -/
example : ((initial.run (eventsOf "main" ((Calls.call (callOf "run" 0 5)
      (.call (callOf "run" 1 2) .nil .nil) .nil).operations enterRun))).2.map
        (List.map (fun b => (b.headerName, b.headerSeq)))) = [[("main", 2)], [("main", 2)]] := by
  decide

end Jma
