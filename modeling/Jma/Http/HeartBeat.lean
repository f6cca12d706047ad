import Jma.JavaLong
import Jma.Lib.Trace
import Mathlib.Tactic.Ring
import Mathlib.Tactic.Linarith

set_option autoImplicit false

/-! # The heartbeat and the watchdog

The agent's `HttpClientThread` loops with a sleep and sends a beat every few iterations; the boot's
`HeartBeatHandler` exits when a beat comes too late after the one before. Both read one clock in
milliseconds. A run is the list of its iterations, each with the time it sleeps and the times its
request would take. -/

namespace Jma

/-- `Settings.HEART_BEAT_INTERVAL`, in milliseconds. -/
def HEART_BEAT_INTERVAL : Nat := 8 * 1000

/-- `HeartBeatHandler.doAction` with the two clock readings it takes, before the check and after:
    the new `lastHeartBeatTime`, or `none` when the process exits. -/
def doAction (lastHeartBeatTime now stored : Int) : Option Int :=
  if lastHeartBeatTime ≠ -1 then
    if subLong now lastHeartBeatTime ≥ HEART_BEAT_INTERVAL then none else some stored
  else some stored

/-- How long a beat takes: from its sending to the handler's first clock reading, from there to the
    second one, and from there until the answer is back. -/
structure Request where
  toCheck : Nat
  toStore : Nat
  toReply : Nat

def Request.duration (r : Request) : Nat := r.toCheck + r.toStore + r.toReply

/-- One iteration of the loop of `HttpClientThread.run`. -/
structure Iteration where
  /-- How long `Thread.sleep(1000)` takes, with the few instructions of the loop around it. -/
  sleep : Nat
  /-- The beat, should this iteration send one. -/
  request : Request

/-- The local `flip` of `run`. -/
def flip : Nat := HEART_BEAT_INTERVAL / 1000 - 1

/-- The thread and the handler together. -/
structure HeartBeat where
  clock : Int
  count : Nat
  lastHeartBeatTime : Int
  /-- Iterations begun so far, and the numbers of those that sent a beat. -/
  iterations : Nat
  beats : List Nat
  /-- Whether the handler took the exit branch. -/
  exited : Bool

namespace HeartBeat

/-- Both processes before the first iteration. -/
def initial (clock : Int) : HeartBeat := ⟨clock, flip, -1, 0, [], false⟩

/-- One iteration, every beat being answered unless the handler exits. -/
def step (s : HeartBeat) (it : Iteration) : HeartBeat :=
  if s.exited then s
  else
    let awake := s.clock + it.sleep
    if s.count = flip then
      let now := awake + it.request.toCheck
      let stored := now + it.request.toStore
      let s := { s with iterations := s.iterations + 1, beats := s.beats ++ [s.iterations + 1] }
      -- the counter is set to zero before the request and counted up after it
      match doAction s.lastHeartBeatTime now stored with
      | none => { s with clock := now, exited := true }
      | some last =>
          { s with clock := stored + it.request.toReply, count := 0 + 1, lastHeartBeatTime := last }
    else { s with clock := awake, count := s.count + 1, iterations := s.iterations + 1 }

/-- An iteration that only sleeps. -/
theorem step_of_ne {s : HeartBeat} {it : Iteration} (hrun : s.exited = false)
    (hc : s.count ≠ flip) :
    s.step it = { s with
      clock := s.clock + it.sleep, count := s.count + 1, iterations := s.iterations + 1 } := by
  simp [step, hrun, hc]

/-- An iteration that sends a beat which the handler accepts. -/
theorem step_of_accepted {s : HeartBeat} {it : Iteration} {last : Int} (hrun : s.exited = false)
    (hc : s.count = flip)
    (hdo : doAction s.lastHeartBeatTime (s.clock + it.sleep + it.request.toCheck)
      (s.clock + it.sleep + it.request.toCheck + it.request.toStore) = some last) :
    s.step it = { s with
      clock := s.clock + it.sleep + it.request.toCheck + it.request.toStore + it.request.toReply
      count := 0 + 1
      lastHeartBeatTime := last
      iterations := s.iterations + 1
      beats := s.beats ++ [s.iterations + 1] } := by
  simp [step, hrun, hc, hdo]

def run (s : HeartBeat) (its : List Iteration) : HeartBeat := its.foldl step s

theorem run_snoc (s : HeartBeat) (its : List Iteration) (it : Iteration) :
    s.run (its ++ [it]) = (s.run its).step it := by
  rw [run, List.foldl_append]
  rfl

/-! ## Which iterations send a beat -/

/-- The counter and the beats, in step with the number of iterations. -/
structure CountInv (s : HeartBeat) : Prop where
  /-- Until the exit the counter says how far the last beat is back. -/
  count : s.exited = false → s.iterations % flip = s.count % flip ∧ 1 ≤ s.count ∧ s.count ≤ flip
  mem : ∀ k, k ∈ s.beats ↔ 1 ≤ k ∧ k ≤ s.iterations ∧ k % flip = 1

theorem countInv_initial (clock : Int) : CountInv (initial clock) :=
  ⟨fun _ => by simp [initial, flip, HEART_BEAT_INTERVAL],
    fun k => by simp [initial]; omega⟩

theorem CountInv.step {s : HeartBeat} (h : CountInv s) (it : Iteration) : CountInv (s.step it) := by
  have hflip : flip = 7 := rfl
  obtain ⟨hcount, hmem⟩ := h
  unfold HeartBeat.step
  by_cases hexit : s.exited = true
  · rw [if_pos hexit]
    exact ⟨hcount, hmem⟩
  · rw [if_neg hexit]
    obtain ⟨hmod, hpos, hle⟩ := hcount (by simpa using hexit)
    rw [hflip] at hmod hle hmem ⊢
    have hbeats : s.count = 7 → ∀ k, k ∈ s.beats ++ [s.iterations + 1] ↔
        1 ≤ k ∧ k ≤ s.iterations + 1 ∧ k % 7 = 1 := by
      intro hc k
      rw [List.mem_append, hmem, List.mem_singleton]
      omega
    by_cases hc : s.count = 7
    · rw [if_pos hc]
      dsimp only
      split
      · exact ⟨fun h => by simp at h, by rw [hflip]; exact hbeats hc⟩
      · refine ⟨fun _ => ?_, by rw [hflip]; exact hbeats hc⟩
        rw [hflip]
        dsimp only
        omega
    · rw [if_neg hc]
      refine ⟨fun _ => ?_, fun k => ?_⟩
      · rw [hflip]
        dsimp only
        omega
      · rw [hflip]
        dsimp only
        rw [hmem]
        omega

theorem countInv_run (clock : Int) (its : List Iteration) : CountInv ((initial clock).run its) := by
  induction its using List.reverseRecOn with
  | nil => exact countInv_initial clock
  | append_singleton its it ih =>
      rw [run_snoc]
      exact ih.step it

/-! ## The watchdog -/

/-- For every two consecutive beats, the first request, the sleeps between them and the second
    request together take less than the interval. -/
def Prompt (its : List Iteration) : Prop :=
  ∀ p a q b r, its = p ++ a :: (q ++ b :: r) → p.length % flip = 0 → q.length + 1 = flip →
    a.request.duration + ((q ++ [b]).map Iteration.sleep).sum + b.request.duration
      < HEART_BEAT_INTERVAL

theorem Prompt.of_append {its its' : List Iteration} (h : Prompt (its ++ its')) : Prompt its := by
  intro p a q b r hsplit
  exact h p a q b (r ++ its') (by simp [hsplit])

/-- Between two beats: `a` sent the last one, `q` are the iterations since, and the clock is the
    time stored by the handler, the way of the answer and the sleeps. -/
structure Awaiting (its : List Iteration) (s : HeartBeat) : Prop where
  running : s.exited = false
  iterations : s.iterations = its.length
  since : (its = [] ∧ s.lastHeartBeatTime = -1 ∧ s.count = flip) ∨
    ∃ p a q, its = p ++ a :: q ∧ p.length % flip = 0 ∧ q.length < flip ∧ s.count = q.length + 1 ∧
      s.clock = s.lastHeartBeatTime + a.request.toReply + (q.map Iteration.sleep).sum

/-- A beat that comes in time is accepted. -/
theorem doAction_of_prompt {last now stored : Int} (h0 : 0 ≤ now - last)
    (h1 : now - last < HEART_BEAT_INTERVAL) : doAction last now stored = some stored := by
  have hsub : subLong now last = now - last := by
    refine subLong_of_small h0 (h1.trans ?_)
    simp [HEART_BEAT_INTERVAL]
  unfold doAction
  rw [hsub]
  split
  · rw [if_neg (by omega)]
  · rfl

theorem Awaiting.step {its : List Iteration} {s : HeartBeat} {it : Iteration}
    (h : Awaiting its s) (hprompt : Prompt (its ++ [it])) : Awaiting (its ++ [it]) (s.step it) := by
  obtain ⟨hrun, hiter, hsince⟩ := h
  have hbeat : s.count = flip → its.length % flip = 0 →
      doAction s.lastHeartBeatTime (s.clock + it.sleep + it.request.toCheck)
          (s.clock + it.sleep + it.request.toCheck + it.request.toStore)
        = some (s.clock + it.sleep + it.request.toCheck + it.request.toStore) →
      Awaiting (its ++ [it]) (s.step it) := by
    intro hc hlen hdo
    rw [step_of_accepted hrun hc hdo]
    refine ⟨hrun, by simp [hiter], Or.inr ⟨its, it, [], rfl, hlen, ?_, rfl, ?_⟩⟩
    · simp [flip, HEART_BEAT_INTERVAL]
    · simp
  rcases hsince with ⟨rfl, hlast, hc⟩ | ⟨p, a, q, rfl, hp, hq, hc, hclock⟩
  · refine hbeat hc rfl ?_
    simp [doAction, hlast]
  · by_cases hflip : q.length + 1 = flip
    · refine hbeat (hc.trans hflip) ?_ ?_
      · simp only [List.length_append, List.length_cons]
        rw [hflip, Nat.add_mod_right, hp]
      · -- the clock runs from the time stored for `a` to the check for `it`
        have hlate := hprompt p a q it [] (by simp) hp hflip
        simp only [List.map_append, List.map_cons, List.map_nil, List.sum_append, List.sum_cons,
          List.sum_nil, Request.duration] at hlate
        refine doAction_of_prompt ?_ ?_ <;> rw [hclock] <;> omega
    · rw [step_of_ne hrun (by omega)]
      refine ⟨hrun, by simp [hiter, Nat.add_assoc],
        Or.inr ⟨p, a, q ++ [it], by simp, hp, ?_, by simp [hc], ?_⟩⟩
      · simp only [List.length_append, List.length_singleton]
        omega
      · simp only [hclock, List.map_append, List.map_cons, List.map_nil, List.sum_append,
          List.sum_cons, List.sum_nil]
        push_cast
        ring

theorem awaiting_run (clock : Int) (its : List Iteration) (h : Prompt its) :
    Awaiting its ((initial clock).run its) := by
  induction its using List.reverseRecOn with
  | nil => exact ⟨rfl, rfl, Or.inl ⟨rfl, rfl, rfl⟩⟩
  | append_singleton its it ih =>
      rw [run_snoc]
      exact (ih h.of_append).step h

end HeartBeat

open HeartBeat

/-- **The heartbeat never trips the watchdog.** Whatever the sleeps and requests take, beats go out
    exactly on the iterations `1`, `1 + flip`, `1 + 2 * flip` and so on; and if consecutive beats
    are prompt, every iteration is reached and the handler never exits. -/
theorem heartbeat_never_trips (clock : Int) (its : List Iteration) :
    (∀ k, k ∈ ((initial clock).run its).beats ↔
      ∃ j, k = 1 + j * flip ∧ k ≤ ((initial clock).run its).iterations) ∧
    flip = HEART_BEAT_INTERVAL / 1000 - 1 ∧ flip = 7 ∧
    (Prompt its → ((initial clock).run its).exited = false ∧
      ((initial clock).run its).iterations = its.length) := by
  refine ⟨fun k => ?_, rfl, rfl, fun h => ⟨(awaiting_run clock its h).running,
    (awaiting_run clock its h).iterations⟩⟩
  have hflip : flip = 7 := rfl
  rw [(countInv_run clock its).mem k, hflip]
  constructor
  · rintro ⟨h1, hle, hmod⟩
    exact ⟨k / 7, by omega, hle⟩
  · rintro ⟨j, rfl, hle⟩
    omega

/-- Iterations of one second with beats of 0.4 seconds. -/
def steady (n : Nat) : List Iteration := List.replicate n ⟨1000, ⟨100, 100, 200⟩⟩

theorem prompt_steady (n : Nat) : Prompt (steady n) := by
  intro p a q b r hsplit _ hq
  have hall : ∀ it ∈ p ++ a :: (q ++ b :: r), it = ⟨1000, ⟨100, 100, 200⟩⟩ := by
    rw [← hsplit]
    exact fun it hit => List.eq_of_mem_replicate hit
  have ha := hall a (by simp)
  have hb := hall b (by simp)
  have hqs : q = List.replicate q.length ⟨1000, ⟨100, 100, 200⟩⟩ :=
    List.eq_replicate_of_mem (fun it hit => hall it (by simp [hit]))
  have hlen : q.length = 6 := by
    have : flip = 7 := rfl
    omega
  rw [hqs, hlen, ha, hb]
  decide

/-- Eight steady iterations send two beats and run on. -/
theorem steady_never_trips : ((initial 0).run (steady 8)).exited = false ∧
    ((initial 0).run (steady 8)).iterations = (steady 8).length :=
  (heartbeat_never_trips 0 (steady 8)).2.2.2 (prompt_steady 8)

example : ((initial 0).run (steady 8)).beats = [1, 8] := by decide

end Jma
