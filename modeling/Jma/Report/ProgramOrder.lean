import Jma.Report.Progress

set_option autoImplicit false

/-! # Every thread's messages come in the order of its program

The console of the boot mixes the messages of all threads. `posts_in_program_order` takes it apart:
what one thread posts is what its program says, notices and reports, each at its place, none twice
and none left out; and the console is what arrives of the posts of all threads, in the order in
which they arrive. -/

namespace Jma

open HttpTransUtil

/-- How many rolls there are among what a thread does. -/
def rollsIn (acts : List Act) : Nat := (operationsIn acts).countP Operation.isRoll

/-- The messages of a thread that does `acts`, where its rolls print `rolls`. -/
def transcript : List Act → List (List Block) → List TransferMessage
  | [], _ => []
  | .notice body :: acts, rolls => sendSuccess body :: transcript acts rolls
  | .operation (.printAndRolling _) :: acts, blocks :: rolls =>
      blocks.flatMap Block.messages ++ transcript acts rolls
  | .operation (.printAndRolling _) :: _, [] => []
  | .operation (.canRecord _) :: acts, rolls => transcript acts rolls
  | .operation (.mergeRecord _) :: acts, rolls => transcript acts rolls

theorem rollsIn_cons (o : Operation) (acts : List Act) :
    rollsIn (.operation o :: acts) = rollsIn acts + if o.isRoll then 1 else 0 := by
  show (o :: operationsIn acts).countP _ = _
  rw [List.countP_cons]
  rfl

theorem rollsIn_append (acts acts' : List Act) :
    rollsIn (acts ++ acts') = rollsIn acts + rollsIn acts' := by
  rw [rollsIn, operationsIn, List.filterMap_append, List.countP_append]
  rfl

theorem transcript_append {acts : List Act} {rolls : List (List Block)}
    (h : rollsIn acts = rolls.length) (acts' : List Act) (rolls' : List (List Block)) :
    transcript (acts ++ acts') (rolls ++ rolls')
      = transcript acts rolls ++ transcript acts' rolls' := by
  induction acts generalizing rolls with
  | nil =>
      obtain rfl : rolls = [] := List.eq_nil_of_length_eq_zero h.symm
      rfl
  | cons act acts ih =>
      cases act with
      | notice body =>
          show sendSuccess body :: transcript (acts ++ acts') (rolls ++ rolls') = _
          rw [ih h]
          rfl
      | operation o =>
          rw [rollsIn_cons] at h
          cases o with
          | canRecord b => exact ih h
          | mergeRecord x => exact ih h
          | printAndRolling clock =>
              cases rolls with
              | nil => cases h
              | cons blocks rolls =>
                  show blocks.flatMap Block.messages ++
                    transcript (acts ++ acts') (rolls ++ rolls') = _
                  rw [ih (Nat.succ.inj h), ← List.append_assoc]
                  rfl

/-! ## The ledger of a run -/

structure Post where
  thread : Nat
  line : TransferMessage
  /-- Whether the boot has handled it, or the post has failed before that. -/
  arrived : Bool

/-- The posts and the finished rolls of a run, in order. -/
structure Ledger where
  posts : List Post
  rolls : List (Nat × List Block)

/-- The message that the boot may still handle. -/
def Worker.unhandled (w : Worker) : List TransferMessage :=
  match w.inFlight with
  | some (line, false) => [line]
  | _ => []

/-- The lines of the open block that are still to be posted. -/
def ReportPc.unsent : ReportPc → List TransferMessage
  | .rolling _ _ lines _ => lines
  | _ => []

namespace Ledger

/-- What a step adds: a message that arrives or is lost, or a roll that is over. -/
def record (l : Ledger) (s s' : Reporting) : ReportAction → Ledger
  | .advance t =>
      { l with rolls := l.rolls ++ (s'.rolls.drop s.rolls.length).map (fun blocks => (t, blocks)) }
  | .handle t =>
      { l with posts := l.posts ++ (s.workers t).unhandled.map (fun line => ⟨t, line, true⟩) }
  | .answer _ => l
  | .fail t =>
      { l with posts := l.posts ++ (s.workers t).unhandled.map (fun line => ⟨t, line, false⟩) }

/-- What thread `t` has posted, whether it arrived or not. -/
def posted (l : Ledger) (t : Nat) : List TransferMessage :=
  (l.posts.filter (fun post => post.thread = t)).map Post.line

/-- What the rolls of thread `t` have printed. -/
def rolled (l : Ledger) (t : Nat) : List (List Block) :=
  (l.rolls.filter (fun roll => roll.1 = t)).map Prod.snd

end Ledger

namespace Reporting

/-- `Logged name programs s l`: a run leads to `s`, and `l` is its ledger. -/
inductive Logged (name : Nat → String) (programs : Nat → List Act) : Reporting → Ledger → Prop
  | start : Logged name programs (initial programs) ⟨[], []⟩
  | step {s s' : Reporting} {l : Ledger} {a : ReportAction} (h : Logged name programs s l)
      (hstep : step name s a = some s') : Logged name programs s' (l.record s s' a)

variable {name : Nat → String} {programs : Nat → List Act} {s s' : Reporting} {t : Nat}

theorem Logged.runs {l : Ledger} (h : Logged name programs s l) :
    Trace.Runs (Reporting.step name) (fun _ _ => True) (initial programs) s := by
  induction h with
  | start => exact .refl
  | step _ hstep ih => exact ih.tail trivial hstep

/-- Every run has a ledger. -/
theorem exists_logged
    (hrun : Trace.Runs (Reporting.step name) (fun _ _ => True) (initial programs) s) :
    ∃ l, Logged name programs s l := by
  induction hrun with
  | refl => exact ⟨_, .start⟩
  | tail _ _ hstep ih =>
      obtain ⟨l, hl⟩ := ih
      exact ⟨_, hl.step hstep⟩

/-! ## One thread -/

/-- The posts of a thread, and those it has begun to prepare, are the transcript of what it has done
    so far. -/
def InOrder (program : List Act) (w : Worker) (posted : List TransferMessage)
    (rolled : List (List Block)) : Prop :=
  ∃ done, program = done ++ w.todo ∧ rollsIn done = rolled.length ∧
    posted ++ (w.unhandled ++ w.pc.unsent)
      = transcript done rolled ++ w.pc.printed.flatMap Block.messages

section

variable {program : List Act} {posted : List TransferMessage} {rolled : List (List Block)}

/-- The thread has done `act`, which is no roll and posts `lines`. -/
theorem InOrder.done {w w' : Worker} {act : Act} {lines : List TransferMessage}
    (h : InOrder program w posted rolled) (hw : w.unhandled ++ w.pc.unsent = [])
    (hpc : w.pc.printed = []) (htodo : w.todo = act :: w'.todo) (hact : rollsIn [act] = 0)
    (hlines : transcript [act] [] = lines) (hw' : w'.unhandled ++ w'.pc.unsent = lines)
    (hpc' : w'.pc.printed = []) : InOrder program w' posted rolled := by
  obtain ⟨done, hprogram, hrolls, hposted⟩ := h
  rw [hw, hpc, List.append_nil, List.flatMap_nil, List.append_nil] at hposted
  refine ⟨done ++ [act], ?_, ?_, ?_⟩
  · rw [hprogram, htodo, List.append_assoc]
    rfl
  · rw [rollsIn_append, hact, hrolls]
    rfl
  · have htranscript := transcript_append hrolls [act] []
    rw [List.append_nil] at htranscript
    rw [hw', hpc', htranscript, hlines, hposted, List.flatMap_nil, List.append_nil]

/-- The thread goes on in what it is doing. -/
theorem InOrder.within {w w' : Worker} (h : InOrder program w posted rolled)
    (htodo : w'.todo = w.todo) {printed : List Block}
    (hpc : w'.pc.printed = w.pc.printed ++ printed)
    (hunsent : w'.unhandled ++ w'.pc.unsent
      = w.unhandled ++ w.pc.unsent ++ printed.flatMap Block.messages) :
    InOrder program w' posted rolled := by
  obtain ⟨done, hprogram, hrolls, hposted⟩ := h
  refine ⟨done, by rw [hprogram, htodo], hrolls, ?_⟩
  rw [hunsent, hpc, ← List.append_assoc, hposted, List.flatMap_append, List.append_assoc]

theorem InOrder.advance {w : Worker} (hw : s.workers t = w) (hfits : w.Fits)
    (hstep : Advances name s t w s') (h : InOrder program w posted rolled) :
    ∃ finished, s'.rolls = s.rolls ++ finished ∧ s'.console = s.console ∧
      (∀ u, u ≠ t → s'.workers u = s.workers u) ∧
      InOrder program (s'.workers t) posted (rolled ++ finished) := by
  -- what a step has to give that ends no roll
  have hmove : ∀ {s₁ : Reporting} {w' : Worker}, s₁.rolls = s.rolls → s₁.console = s.console →
      s₁.workers = s.workers → InOrder program w' posted rolled →
      ∃ finished, (s₁.setWorker t w').rolls = s.rolls ++ finished ∧
        (s₁.setWorker t w').console = s.console ∧
        (∀ u, u ≠ t → (s₁.setWorker t w').workers u = s.workers u) ∧
        InOrder program ((s₁.setWorker t w').workers t) posted (rolled ++ finished) := by
    intro s₁ w' hrolls hconsole hworkers h'
    refine ⟨[], hrolls.trans (List.append_nil _).symm, hconsole, fun u hu => ?_, ?_⟩
    · exact (Function.update_of_ne hu ..).trans (congrFun hworkers u)
    · show InOrder program (Function.update s₁.workers t w' t) posted (rolled ++ [])
      rw [Function.update_self, List.append_nil]
      exact h'
  cases hstep with
  | notice body => exact hmove rfl rfl rfl (h.done rfl rfl rfl rfl rfl rfl rfl)
  | count => exact hmove rfl rfl rfl (h.within rfl rfl rfl)
  | close => exact hmove rfl rfl rfl (h.done rfl rfl rfl rfl rfl rfl rfl)
  | enter hfree => exact hmove rfl rfl rfl (h.within rfl rfl rfl)
  | roll hfree => exact hmove rfl rfl rfl (h.within rfl rfl rfl)
  | @flag todo =>
      obtain ⟨-, rest, htodo⟩ := hfits
      obtain rfl : todo = .operation (.canRecord true) :: rest := htodo
      exact hmove rfl rfl rfl (h.done rfl rfl rfl rfl rfl rfl rfl)
  | @refuse todo x hoff =>
      obtain ⟨-, rest, htodo⟩ := hfits
      obtain rfl : todo = .operation (.mergeRecord x) :: rest := htodo
      exact hmove rfl rfl rfl (h.done rfl rfl rfl rfl rfl rfl rfl)
  | pass hon => exact hmove rfl rfl rfl (h.within rfl rfl rfl)
  | @store todo x =>
      obtain ⟨-, rest, htodo⟩ := hfits
      obtain rfl : todo = .operation (.mergeRecord x) :: rest := htodo
      exact hmove rfl rfl rfl (h.done rfl rfl rfl rfl rfl rfl rfl)
  | send => exact hmove rfl rfl rfl (h.within rfl (List.append_nil _).symm (List.append_nil _).symm)
  | next => exact hmove rfl rfl rfl (h.within rfl rfl rfl)
  | @leave todo clock blocks =>
      obtain ⟨⟨rest, htodo⟩, -⟩ := hfits
      obtain rfl : todo = .operation (.printAndRolling clock) :: rest := htodo
      obtain ⟨done, hprogram, hrolls, hposted⟩ := h
      refine ⟨[blocks], rfl, rfl, fun u hu => Function.update_of_ne hu .., ?_⟩
      show InOrder program (Function.update s.workers t ⟨rest, .ready, none⟩ t) posted _
      rw [Function.update_self]
      refine ⟨done ++ [.operation (.printAndRolling clock)], ?_, ?_, ?_⟩
      · rw [hprogram, List.append_assoc]
        rfl
      · rw [rollsIn_append, hrolls, List.length_append]
        rfl
      · rw [transcript_append hrolls]
        refine hposted.trans ?_
        show transcript done rolled ++ blocks.flatMap Block.messages
          = transcript done rolled ++ (blocks.flatMap Block.messages ++ []) ++ []
        rw [List.append_nil, List.append_nil]

/-- The message of a thread arrives, or is lost. -/
theorem InOrder.post {w : Worker} (h : InOrder program w posted rolled)
    {inFlight : Option (TransferMessage × Bool)}
    (hsent : (Worker.mk w.todo w.pc inFlight).unhandled = []) :
    InOrder program ⟨w.todo, w.pc, inFlight⟩ (posted ++ w.unhandled) rolled := by
  obtain ⟨done, hprogram, hrolls, hposted⟩ := h
  refine ⟨done, hprogram, hrolls, ?_⟩
  rw [hsent, List.nil_append, List.append_assoc]
  exact hposted

end

/-! ## Every run -/

/-- What a ledger says: the console is what has arrived, the rolls are those that are over, and
    every thread has posted in the order of its program. -/
structure Kept (programs : Nat → List Act) (s : Reporting) (l : Ledger) : Prop where
  console : s.console = (l.posts.filter Post.arrived).map Post.line
  rolls : s.rolls = l.rolls.map Prod.snd
  inOrder : ∀ t, InOrder (programs t) (s.workers t) (l.posted t) (l.rolled t)

theorem posted_append (l : Ledger) (t : Nat) (lines : List TransferMessage) (arrived : Bool)
    (u : Nat) :
    Ledger.posted { l with posts := l.posts ++ lines.map (fun line => ⟨t, line, arrived⟩) } u
      = l.posted u ++ if t = u then lines else [] := by
  rw [Ledger.posted, List.filter_append, List.map_append, List.filter_map]
  by_cases htu : t = u
  · simp [htu, Ledger.posted, Function.comp_def]
  · simp [htu, Ledger.posted, Function.comp_def]

theorem rolled_append (l : Ledger) (t : Nat) (rolls : List (List Block)) (u : Nat) :
    Ledger.rolled { l with rolls := l.rolls ++ rolls.map (fun blocks => (t, blocks)) } u
      = l.rolled u ++ if t = u then rolls else [] := by
  rw [Ledger.rolled, List.filter_append, List.map_append, List.filter_map]
  by_cases htu : t = u
  · simp [htu, Ledger.rolled, Function.comp_def]
  · simp [htu, Ledger.rolled, Function.comp_def]

theorem Kept.initial (programs : Nat → List Act) : Kept programs (initial programs) ⟨[], []⟩ where
  console := rfl
  rolls := rfl
  inOrder := fun _ => ⟨[], rfl, rfl, rfl⟩

/-- The message that a thread waits for arrives or is lost, if neither has happened before. -/
theorem Kept.post {l : Ledger} (h : Kept programs s l)
    (inFlight : Option (TransferMessage × Bool)) (arrived : Bool)
    (hworkers : s'.workers
      = Function.update s.workers t ⟨(s.workers t).todo, (s.workers t).pc, inFlight⟩)
    (hsent : (Worker.mk (s.workers t).todo (s.workers t).pc inFlight).unhandled = [])
    (hrolls : s'.rolls = s.rolls)
    (hconsole : s'.console = s.console ++ if arrived then (s.workers t).unhandled else []) :
    Kept programs s' { l with
      posts := l.posts ++ (s.workers t).unhandled.map (fun line => ⟨t, line, arrived⟩) } where
  console := by
    rw [hconsole, h.console, List.filter_append, List.map_append, List.filter_map]
    cases arrived <;> simp [Function.comp_def]
  rolls := hrolls.trans h.rolls
  inOrder := by
    intro u
    rw [posted_append, hworkers]
    by_cases htu : t = u
    · subst htu
      rw [Function.update_self, if_pos rfl]
      exact (h.inOrder t).post hsent
    · rw [Function.update_of_ne (Ne.symm htu), if_neg htu, List.append_nil]
      exact h.inOrder u

theorem Kept.advance {l : Ledger} (h : Kept programs s l) (hthreads : Threads programs s)
    {w : Worker} (hw : s.workers t = w) (hstep : Advances name s t w s') :
    Kept programs s' (l.record s s' (.advance t)) := by
  subst hw
  obtain ⟨finished, hrolls, hconsole, hother, hself⟩ :=
    InOrder.advance rfl (hthreads.fits t) hstep (h.inOrder t)
  have hrecord : l.record s s' (.advance t)
      = { l with rolls := l.rolls ++ finished.map (fun blocks => (t, blocks)) } := by
    rw [Ledger.record, hrolls, List.drop_left]
  rw [hrecord]
  refine ⟨hconsole.trans h.console, ?_, fun u => ?_⟩
  · rw [hrolls, h.rolls, List.map_append, List.map_map]
    exact congrArg _ (List.map_id _).symm
  · show InOrder _ _ (l.posted u) _
    rw [rolled_append]
    by_cases htu : t = u
    · subst htu
      rw [if_pos rfl]
      exact hself
    · rw [if_neg htu, List.append_nil, hother u (Ne.symm htu)]
      exact h.inOrder u

theorem Kept.step {l : Ledger} (h : Kept programs s l) (hthreads : Threads programs s)
    {a : ReportAction} (hstep : step name s a = some s') : Kept programs s' (l.record s s' a) := by
  cases a with
  | advance t =>
      rcases hw : s.workers t with ⟨todo, pc, _ | message⟩
      · rw [Reporting.step, hw] at hstep
        exact h.advance hthreads hw (advances hstep)
      · simp [Reporting.step, hw] at hstep
  | handle t =>
      rcases hw : s.workers t with ⟨todo, pc, _ | ⟨line, _ | _⟩⟩
      · simp [Reporting.step, hw] at hstep
      · simp only [Reporting.step, hw, Option.some.injEq] at hstep
        subst hstep
        refine h.post (some (line, true)) true ?_ rfl rfl ?_
        · rw [hw]
          rfl
        · rw [hw]
          rfl
      · simp [Reporting.step, hw] at hstep
  | answer t =>
      rcases hw : s.workers t with ⟨todo, pc, _ | ⟨line, _ | _⟩⟩
      · simp [Reporting.step, hw] at hstep
      · simp [Reporting.step, hw] at hstep
      · simp only [Reporting.step, hw, Option.some.injEq] at hstep
        subst hstep
        -- it has arrived before
        have hunhandled : (s.workers t).unhandled = [] := by
          rw [hw]
          rfl
        have hkept : Kept programs (s.setWorker t ⟨todo, pc, none⟩) { l with
            posts := l.posts ++ (s.workers t).unhandled.map (fun line => ⟨t, line, true⟩) } :=
          h.post none true (by rw [hw]; rfl) rfl rfl
            (by rw [hunhandled]; exact (List.append_nil _).symm)
        rwa [hunhandled, List.map_nil, List.append_nil] at hkept
  | fail t =>
      rcases hw : s.workers t with ⟨todo, pc, _ | message⟩
      · simp [Reporting.step, hw] at hstep
      · simp only [Reporting.step, hw, Option.some.injEq] at hstep
        subst hstep
        exact h.post none false (by rw [hw]; rfl) rfl rfl (List.append_nil _).symm

/-- **Every thread's messages come in the order of its program.** In every run, whatever steps the
    threads take and whatever posts fail, the console is what has arrived of the posts of all
    threads, in this order, and what each thread has posted is a beginning of its program, with the
    notices and the texts of the blocks of its rolls at their places: none twice, and none left out
    between two others. A thread that is at its end has posted all of it. -/
theorem posts_in_program_order {l : Ledger} (h : Logged name programs s l) :
    s.console = (l.posts.filter Post.arrived).map Post.line ∧ s.rolls = l.rolls.map Prod.snd ∧
      ∀ t, l.posted t <+: transcript (programs t) (l.rolled t ++ [(s.workers t).pc.printed]) ∧
        (s.workers t = .idle → l.posted t = transcript (programs t) (l.rolled t)) := by
  have hkept : Kept programs s l := by
    induction h with
    | start => exact .initial programs
    | step hlogged hstep ih => exact ih.step (invariants hlogged.runs).1 hstep
  have hfits := (invariants h.runs).1.fits
  refine ⟨hkept.console, hkept.rolls, fun t => ?_⟩
  obtain ⟨done, hprogram, hrolls, hposted⟩ := hkept.inOrder t
  constructor
  · have hopen : (s.workers t).pc.printed.flatMap Block.messages
        <+: transcript (s.workers t).todo [(s.workers t).pc.printed] := by
      have hfit := hfits t
      rcases hw : s.workers t with ⟨todo, pc, inFlight⟩
      rw [hw] at hfit
      cases pc with
      | rolling entries clock lines blocks =>
          obtain ⟨⟨rest, rfl⟩, -⟩ := hfit
          exact List.prefix_append _ _
      | _ => exact List.nil_prefix
    rw [hprogram, transcript_append hrolls]
    exact (List.prefix_append _ _).trans
      (hposted ▸ (List.prefix_append_right_inj _).2 hopen)
  · intro hidle
    rw [hidle] at hprogram hposted
    obtain rfl : done = programs t := by rw [hprogram]; exact (List.append_nil _).symm
    exact (List.append_nil _).symm.trans (hposted.trans (List.append_nil _))

/-- Thread 1, which counts its entry call during the roll of thread 0, has posted its notice. -/
theorem countDuringRoll_posted : ∃ l, Logged threadName rollerActs afterCountDuringRoll l ∧
    l.posted 1 = [sendSuccess "method called at on"] := by
  obtain ⟨l, hl⟩ := exists_logged (countDuringRoll_runs.mono (fun _ _ _ => trivial))
  exact ⟨l, hl, ((posts_in_program_order hl).2.2 1).2 rfl⟩

end Reporting

end Jma
