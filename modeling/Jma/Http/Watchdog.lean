import Jma.Http.HeartBeat
import Mathlib.Logic.Function.Basic

set_option autoImplicit false

/-! # Several heartbeat threads

Every attach starts a heartbeat thread, and all of them send their beats to the port that was
configured last, so a boot may get the beats of several threads. Its server handles them at the same
time, and `doAction` takes several steps: it reads the clock, reads `lastHeartBeatTime` twice, reads
the clock again and writes what it has read. The beat of one thread may be judged by what another
one has written, or has not written yet. -/

namespace Jma

/-- Where `doAction` is with the beat of a thread. -/
inductive BeatPc where
  /-- No beat of the thread has arrived since the last one was handled. -/
  | idle
  /-- Past `long now = System.currentTimeMillis()`. -/
  | arrived (now : Int)
  /-- Past `lastHeartBeatTime != -1`, which was true. -/
  | tested (now : Int)
  /-- Past the check. -/
  | passed (now : Int)
  /-- Before the write of the time `stored`. -/
  | stamped (now stored : Int)

namespace BeatPc

/-- The time at which the beat has arrived. -/
def now : BeatPc → Option Int
  | .idle => none
  | .arrived now => some now
  | .tested now => some now
  | .passed now => some now
  | .stamped now _ => some now

end BeatPc

/-- The boot with the beats of all threads. -/
structure Watchdog where
  clock : Int
  lastHeartBeatTime : Int
  exited : Bool
  beats : Nat → BeatPc
  /-- When the last beat of a thread was handled. No step reads it. -/
  handledAt : Nat → Option Int

inductive WatchdogAction where
  | tick (d : Nat)
  /-- The next step of `doAction` for the thread; its beat arrives if it has none there. -/
  | handle (t : Nat)

namespace Watchdog

def initial (clock : Int) : Watchdog := ⟨clock, -1, false, fun _ => .idle, fun _ => none⟩

def setBeat (s : Watchdog) (t : Nat) (pc : BeatPc) : Watchdog :=
  { s with beats := Function.update s.beats t pc }

def step (s : Watchdog) : WatchdogAction → Option Watchdog
  | .tick d => some { s with clock := s.clock + d }
  | .handle t =>
      if s.exited then none
      else
        match s.beats t with
        | .idle => some (s.setBeat t (.arrived s.clock))
        | .arrived now =>
            if s.lastHeartBeatTime ≠ -1 then some (s.setBeat t (.tested now))
            else some (s.setBeat t (.passed now))
        | .tested now =>
            if subLong now s.lastHeartBeatTime ≥ HEART_BEAT_INTERVAL then
              some { s with exited := true }
            else some (s.setBeat t (.passed now))
        | .passed now => some (s.setBeat t (.stamped now s.clock))
        | .stamped _ stored =>
            some ({ s with
              lastHeartBeatTime := stored
              handledAt := Function.update s.handledAt t (some s.clock) }.setBeat t .idle)

/-! ## One beat alone -/

/-- When nothing else happens, the steps are `doAction`. -/
theorem execute_alone (s : Watchdog) (t d : Nat) (hrun : s.exited = false)
    (hidle : s.beats t = .idle) :
    ∃ labels s', Trace.execute step s labels = some s' ∧
      match doAction s.lastHeartBeatTime s.clock (s.clock + d) with
      | none => s'.exited = true
      | some last => s'.exited = false ∧ s'.lastHeartBeatTime = last ∧ s'.clock = s.clock + d ∧
          s'.beats = s.beats := by
  obtain ⟨clock, last, exited, beats, handledAt⟩ := s
  simp only at hrun hidle
  subst hrun
  have hback : Function.update beats t .idle = beats := hidle ▸ Function.update_eq_self t beats
  -- what is left when the beat is accepted
  let handled : Watchdog :=
    ⟨clock + d, clock + d, false, beats, Function.update handledAt t (some (clock + d))⟩
  by_cases hfirst : last = -1
  · refine ⟨[.handle t, .handle t, .tick d, .handle t, .handle t], handled, ?_, ?_⟩
    · simp [Trace.execute, step, setBeat, hidle, hfirst, hback, handled]
    · simp [doAction, hfirst, handled]
  · by_cases hlate : subLong clock last ≥ HEART_BEAT_INTERVAL
    · refine ⟨[.handle t, .handle t, .handle t],
        ⟨clock, last, true, Function.update beats t (.tested clock), handledAt⟩, ?_, ?_⟩
      · simp [Trace.execute, step, setBeat, hidle, hfirst, hlate]
      · simp [doAction, hfirst, hlate]
    · refine ⟨[.handle t, .handle t, .handle t, .tick d, .handle t, .handle t], handled, ?_, ?_⟩
      · simp [Trace.execute, step, setBeat, hidle, hfirst, hlate, hback, handled]
      · simp [doAction, hfirst, hlate, handled]

/-! ## Prompt threads -/

/-- The clock has not run too far: a thread beats again in time, a beat is handled in time, and what
    `doAction` has read last is written in time. -/
structure InTime (between handling writing : Nat) (clock : Int) (handledAt : Option Int)
    (pc : BeatPc) : Prop where
  between : pc = .idle → ∀ last, handledAt = some last → clock ≤ last + between
  handling : ∀ now, pc.now = some now → clock ≤ now + handling
  writing : ∀ now stored, pc = .stamped now stored → clock ≤ stored + writing

/-- Every thread that has begun to beat beats again at most `between` milliseconds after its last
    beat was handled; a beat is handled in at most `handling` milliseconds, the last `writing` of
    them for the write. -/
def Prompt (between handling writing : Nat) (s : Watchdog) : WatchdogAction → Prop
  | .tick d => ∀ t, InTime between handling writing (s.clock + d) (s.handledAt t) (s.beats t)
  | .handle _ => True

section

variable {between handling writing : Nat} {s : Watchdog}

/-- A thread that has not begun to beat is in time. -/
theorem InTime.untouched {clock : Int} : InTime between handling writing clock none .idle where
  between := fun _ _ h => by cases h
  handling := fun _ h => by cases h
  writing := fun _ _ h => by cases h

structure Inv (between handling writing : Nat) (s : Watchdog) : Prop where
  running : s.exited = false
  inTime : ∀ t, InTime between handling writing s.clock (s.handledAt t) (s.beats t)
  arrival : ∀ t now, (s.beats t).now = some now →
    now ≤ s.clock ∧ ∀ last, s.handledAt t = some last → now ≤ last + between
  stamp : ∀ t now stored, s.beats t = .stamped now stored → stored ≤ s.clock
  /-- Once a beat was handled, `lastHeartBeatTime` is not much older than the last one. -/
  written : (s.lastHeartBeatTime = -1 ∧ ∀ t now, s.beats t ≠ .tested now) ∨
    s.lastHeartBeatTime ≤ s.clock ∧
      ∃ t last, s.handledAt t = some last ∧ last ≤ s.lastHeartBeatTime + writing

theorem Inv.initial (clock : Int) : Inv between handling writing (initial clock) where
  running := rfl
  inTime := fun _ => .untouched
  arrival := fun _ _ h => by cases h
  stamp := fun _ _ _ h => by cases h
  written := Or.inl ⟨rfl, fun _ _ h => by cases h⟩

/-- The beat of one thread moves on; nothing is written. -/
theorem Inv.setBeat (h : Inv between handling writing s) {t : Nat} {pc : BeatPc}
    (hinTime : InTime between handling writing s.clock (s.handledAt t) pc)
    (harrival : ∀ now, pc.now = some now →
      now ≤ s.clock ∧ ∀ last, s.handledAt t = some last → now ≤ last + between)
    (hstamp : ∀ now stored, pc = .stamped now stored → stored ≤ s.clock)
    (htested : ∀ now, pc = .tested now → s.lastHeartBeatTime ≠ -1) :
    Inv between handling writing (s.setBeat t pc) where
  running := h.running
  inTime := fun u => by
    by_cases hu : u = t
    · subst hu
      simpa [Watchdog.setBeat] using hinTime
    · simpa [Watchdog.setBeat, hu] using h.inTime u
  arrival := fun u => by
    by_cases hu : u = t
    · subst hu
      simpa [Watchdog.setBeat] using harrival
    · simpa [Watchdog.setBeat, hu] using h.arrival u
  stamp := fun u => by
    by_cases hu : u = t
    · subst hu
      simpa [Watchdog.setBeat] using hstamp
    · simpa [Watchdog.setBeat, hu] using h.stamp u
  written := by
    rcases h.written with ⟨hnone, hbeats⟩ | hwritten
    · refine Or.inl ⟨hnone, fun u now => ?_⟩
      by_cases hu : u = t
      · subst hu
        simpa [Watchdog.setBeat] using fun hpc => htested now hpc hnone
      · simpa [Watchdog.setBeat, hu] using hbeats u now
    · exact Or.inr hwritten

/-- The clock is not far ahead of `lastHeartBeatTime` once a beat was handled. -/
theorem Inv.clock_le (h : Inv between handling writing s) {t : Nat} {last : Int}
    (hlast : s.handledAt t = some last) : s.clock ≤ last + between + handling := by
  cases hpc : s.beats t with
  | idle =>
      have := (h.inTime t).between hpc last hlast
      omega
  | arrived now | tested now | passed now =>
      have hnow : (s.beats t).now = some now := by rw [hpc]; rfl
      have := (h.inTime t).handling now hnow
      have := (h.arrival t now hnow).2 last hlast
      omega
  | stamped now stored =>
      have hnow : (s.beats t).now = some now := by rw [hpc]; rfl
      have := (h.inTime t).handling now hnow
      have := (h.arrival t now hnow).2 last hlast
      omega

/-- The beat that is being checked has not come too late. -/
theorem Inv.not_late (h : Inv between handling writing s)
    (hshort : between + handling + writing < HEART_BEAT_INTERVAL) {t : Nat} {now : Int}
    (hpc : s.beats t = .tested now) :
    ¬subLong now s.lastHeartBeatTime ≥ HEART_BEAT_INTERVAL := by
  have hnow : (s.beats t).now = some now := by rw [hpc]; rfl
  have hhandling := (h.inTime t).handling now hnow
  obtain ⟨hle, -⟩ := h.arrival t now hnow
  rcases h.written with ⟨-, hnone⟩ | ⟨hlast, u, last, hu, hwriting⟩
  · exact absurd hpc (hnone t now)
  · have hclock := h.clock_le hu
    have hinterval : HEART_BEAT_INTERVAL = 8000 := rfl
    have hsub : subLong now s.lastHeartBeatTime = now - s.lastHeartBeatTime := by
      rw [subLong, Int.bmod_eq_of_le] <;> omega
    omega

/-- A beat that stays in the handler, before the last reading of the clock. -/
theorem Inv.move (h : Inv between handling writing s) {t : Nat} {now : Int} {pc : BeatPc}
    (hnow : (s.beats t).now = some now) (hpc : pc = .tested now ∨ pc = .passed now)
    (htested : pc = .tested now → s.lastHeartBeatTime ≠ -1) :
    Inv between handling writing (s.setBeat t pc) := by
  have hsame : pc.now = (s.beats t).now := by
    rcases hpc with rfl | rfl <;> exact hnow.symm
  have hidle : pc ≠ .idle := by
    rcases hpc with rfl | rfl <;> simp
  have hstamped : ∀ now stored, pc ≠ .stamped now stored := by
    rcases hpc with rfl | rfl <;> simp
  refine h.setBeat ⟨fun h => absurd h hidle, fun now' hnow' => ?_,
    fun _ _ h => absurd h (hstamped _ _)⟩ (fun now' hnow' => h.arrival t now' (hsame ▸ hnow'))
    (fun _ _ h => absurd h (hstamped _ _)) (fun now' hpc' => htested ?_)
  · exact (h.inTime t).handling now' (hsame ▸ hnow')
  · rcases hpc with rfl | rfl
    · rfl
    · cases hpc'

/-- A beat is handled: the time that was read is written. -/
theorem Inv.write (h : Inv between handling writing s) {t : Nat} {now stored : Int}
    (hpc : s.beats t = .stamped now stored) :
    Inv between handling writing ({ s with
      lastHeartBeatTime := stored
      handledAt := Function.update s.handledAt t (some s.clock) }.setBeat t .idle) where
  running := h.running
  inTime := fun u => by
    by_cases hu : u = t
    · subst hu
      refine ⟨fun _ last hlast => ?_, fun _ hnow => ?_, fun _ _ hpc => ?_⟩
      · have hclock : s.clock = last := by simpa [Watchdog.setBeat] using hlast
        show s.clock ≤ last + between
        omega
      · simp [Watchdog.setBeat, BeatPc.now] at hnow
      · simp [Watchdog.setBeat] at hpc
    · simpa [Watchdog.setBeat, hu] using h.inTime u
  arrival := fun u => by
    by_cases hu : u = t
    · subst hu
      simp [Watchdog.setBeat, BeatPc.now]
    · simpa [Watchdog.setBeat, hu] using h.arrival u
  stamp := fun u => by
    by_cases hu : u = t
    · subst hu
      simp [Watchdog.setBeat]
    · simpa [Watchdog.setBeat, hu] using h.stamp u
  written := Or.inr ⟨h.stamp t now stored hpc, t, s.clock, Function.update_self ..,
    (h.inTime t).writing now stored hpc⟩

theorem Inv.step (h : Inv between handling writing s)
    (hshort : between + handling + writing < HEART_BEAT_INTERVAL) {a : WatchdogAction}
    {s' : Watchdog} (hprompt : Prompt between handling writing s a) (hstep : s.step a = some s') :
    Inv between handling writing s' := by
  cases a with
  | tick d =>
      cases hstep
      refine ⟨h.running, hprompt, fun t now hnow => ?_, fun t now stored hpc => ?_, ?_⟩
      · obtain ⟨hle, hlast⟩ := h.arrival t now hnow
        refine ⟨?_, hlast⟩
        show now ≤ s.clock + d
        omega
      · have hle := h.stamp t now stored hpc
        show stored ≤ s.clock + d
        omega
      · refine h.written.imp_right (fun ⟨hle, hlast⟩ => ⟨?_, hlast⟩)
        show s.lastHeartBeatTime ≤ s.clock + d
        omega
  | handle t =>
      simp only [Watchdog.step, h.running, Bool.false_eq_true, if_false] at hstep
      cases hpc : s.beats t with
      | idle =>
          simp only [hpc] at hstep
          cases hstep
          refine h.setBeat ⟨(fun h => by cases h), ?_, (fun _ _ h => by cases h)⟩ ?_
            (fun _ _ h => by cases h) (fun _ h => by cases h)
          · rintro now ⟨⟩
            omega
          · rintro now ⟨⟩
            exact ⟨le_refl _, (h.inTime t).between hpc⟩
      | arrived now =>
          simp only [hpc] at hstep
          have hnow : (s.beats t).now = some now := by rw [hpc]; rfl
          split at hstep
          · next hfirst =>
              cases hstep
              exact h.move hnow (Or.inl rfl) (fun _ => hfirst)
          · cases hstep
            exact h.move hnow (Or.inr rfl) (fun h => by cases h)
      | tested now =>
          simp only [hpc, if_neg (h.not_late hshort hpc)] at hstep
          have hnow : (s.beats t).now = some now := by rw [hpc]; rfl
          cases hstep
          exact h.move hnow (Or.inr rfl) (fun h => by cases h)
      | passed now =>
          simp only [hpc] at hstep
          have hnow : (s.beats t).now = some now := by rw [hpc]; rfl
          cases hstep
          refine h.setBeat ⟨(fun h => by cases h), fun now' h' => ?_, ?_⟩
            (fun now' h' => h.arrival t now' (hnow.trans h')) ?_ (fun _ h => by cases h)
          · exact (h.inTime t).handling now' (hnow.trans h')
          · rintro now' stored ⟨⟩
            omega
          · rintro now' stored ⟨⟩
            exact le_refl _
      | stamped now stored =>
          simp only [hpc] at hstep
          cases hstep
          simpa only [h.running] using h.write hpc

end

/-! ## When the watchdog stays quiet -/

/-- A beat of thread 0 whose time is written `e` milliseconds late, the next one `w` later, and
    while that one takes `d` milliseconds a beat of thread 1. -/
theorem exists_late {between handling writing e w d : Nat} (he : e ≤ writing)
    (hwriting : writing ≤ handling) (hw : w ≤ between) (hd : d ≤ handling)
    (hsum : e + w + d = HEART_BEAT_INTERVAL) {clock : Int} (hclock : 0 ≤ clock) :
    ∃ s, Trace.Runs step (Prompt between handling writing) (initial clock) s ∧ s.exited = true := by
  have hinterval : HEART_BEAT_INTERVAL = 8000 := rfl
  have hset : clock ≠ -1 := by omega
  have hlate : subLong (clock + e + w + d) clock ≥ HEART_BEAT_INTERVAL := by
    rw [subLong_of_small] <;> omega
  let s₃ := (((initial clock).setBeat 0 (.arrived clock)).setBeat 0 (.passed clock)).setBeat 0
    (.stamped clock clock)
  let s₅ := { s₃ with
    clock := clock + e
    lastHeartBeatTime := clock
    handledAt := Function.update s₃.handledAt 0 (some (clock + e)) }.setBeat 0 .idle
  let s₇ := { s₅ with clock := clock + e + w }.setBeat 0 (.arrived (clock + e + w))
  let s₉ := { s₇ with clock := clock + e + w + d }.setBeat 1 (.arrived (clock + e + w + d))
  let s₁₀ := s₉.setBeat 1 (.tested (clock + e + w + d))
  have hruns₃ : Trace.Runs step (Prompt between handling writing) (initial clock) s₃ :=
    ((Trace.Runs.refl.tail (a := .handle 0) trivial rfl).tail (a := .handle 0) trivial rfl).tail
      (a := .handle 0) trivial rfl
  have hprompt₃ : Prompt between handling writing s₃ (.tick e) := by
    rintro (_ | t)
    · refine ⟨(fun h => by cases h), ?_, ?_⟩
      · rintro _ ⟨⟩
        show clock + e ≤ clock + handling
        omega
      · rintro _ _ ⟨⟩
        show clock + e ≤ clock + writing
        omega
    · exact .untouched
  have hprompt₅ : Prompt between handling writing s₅ (.tick w) := by
    rintro (_ | t)
    · refine ⟨?_, (fun _ h => by cases h), (fun _ _ h => by cases h)⟩
      rintro _ _ ⟨⟩
      show clock + e + w ≤ clock + e + between
      omega
    · exact .untouched
  have hprompt₇ : Prompt between handling writing s₇ (.tick d) := by
    rintro (_ | t)
    · refine ⟨(fun h => by cases h), ?_, (fun _ _ h => by cases h)⟩
      rintro _ ⟨⟩
      show clock + e + w + d ≤ clock + e + w + handling
      omega
    · exact .untouched
  have hruns₄ := hruns₃.tail hprompt₃ rfl
  have hruns₅ : Trace.Runs step (Prompt between handling writing) (initial clock) s₅ :=
    hruns₄.tail (a := .handle 0) trivial rfl
  have hruns₆ := hruns₅.tail hprompt₅ rfl
  have hruns₇ : Trace.Runs step (Prompt between handling writing) (initial clock) s₇ :=
    hruns₆.tail (a := .handle 0) trivial rfl
  have hruns₈ := hruns₇.tail hprompt₇ rfl
  have hruns₉ : Trace.Runs step (Prompt between handling writing) (initial clock) s₉ :=
    hruns₈.tail (a := .handle 1) trivial rfl
  have hruns₁₀ : Trace.Runs step (Prompt between handling writing) (initial clock) s₁₀ :=
    hruns₉.tail (a := .handle 1) trivial (if_pos hset)
  exact ⟨_, hruns₁₀.tail (a := .handle 1) trivial (if_pos hlate), rfl⟩

/-- **When the watchdog stays quiet.** Any number of threads beat, every one again at most `between`
    milliseconds after its last beat was handled, and beats are handled at the same time, in at most
    `handling` milliseconds each, the last `writing` of them for the write. However their steps
    interleave, the boot never exits, if and only if the three times together are less than the
    interval. -/
theorem watchdog_quiet_iff {between handling writing : Nat} (hwriting : writing ≤ handling)
    {clock : Int} (hclock : 0 ≤ clock) :
    (∀ s, Trace.Runs step (Prompt between handling writing) (initial clock) s →
      s.exited = false) ↔ between + handling + writing < HEART_BEAT_INTERVAL := by
  constructor
  · intro hquiet
    by_contra hlong
    have hinterval : HEART_BEAT_INTERVAL = 8000 := rfl
    -- times that use up the interval exactly
    obtain ⟨e, w, d, he, hw, hd, hsum⟩ : ∃ e w d, e ≤ writing ∧ w ≤ between ∧ d ≤ handling ∧
        e + w + d = HEART_BEAT_INTERVAL := by
      refine ⟨min writing 8000, min between (8000 - min writing 8000),
        8000 - min writing 8000 - min between (8000 - min writing 8000), ?_⟩
      omega
    obtain ⟨s, hrun, hexited⟩ := exists_late he hwriting hw hd hsum hclock
    rw [hquiet s hrun] at hexited
    cases hexited
  · intro hshort s hrun
    exact (hrun.invariant (fun h hprompt hstep => h.step hshort hprompt hstep)
      (Inv.initial clock)).running

/-- Beats every seven seconds that take half a second each, all of it for the write, may trip it. -/
theorem half_second_trips :
    ¬∀ s, Trace.Runs step (Prompt 7000 500 500) (initial 0) s → s.exited = false := by
  rw [watchdog_quiet_iff (le_refl _) (le_refl _)]
  decide

end Watchdog

end Jma
