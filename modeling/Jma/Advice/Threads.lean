import Jma.Advice.EntryReport

set_option autoImplicit false

/-! # Threads that record at the same time

Any number of threads run calls, and the manager sees their operations interleaved. The flag is one
for all threads and a roll empties the chains of all threads, so what a thread prints for itself
depends on the others: `own_report_iff` says exactly when it is what the thread would print alone.
Threads are numbered; a thread's chain is found by its name, which it may share with others. -/

namespace Jma

/-- A step of a schedule: a thread and the operation it executes. -/
abbrev ThreadStep := Nat × Operation

/-- The steps of one thread. -/
def own (T : Nat) (schedule : List ThreadStep) : List ThreadStep :=
  schedule.filter (fun x => x.1 = T)

/-- Every thread executes the operations of its calls in order, as far as it gets. -/
def Interleaves (cfg : GlobalConfig) (program : Nat → Calls) (schedule : List ThreadStep) : Prop :=
  ∀ T, ((own T schedule).map Prod.snd) <+: (program T).operations cfg

/-- A schedule as the manager sees it. -/
def eventsIn (name : Nat → String) (schedule : List ThreadStep) : List Event :=
  schedule.map (fun x => ⟨name x.1, x.2⟩)

/-- What a roll that `T` executes after `before` prints for `T`. -/
def ownReport (name : Nat → String) (T : Nat) (before : List ThreadStep)
    (currentTimeMillis : String → Int) : List TimeCostRecord :=
  printedFor (name T)
    ((TimeCostManager.initial.run (eventsIn name before)).1.printAndRolling (name T)
      currentTimeMillis).2

/-- The samples that `T` has taken and not rolled itself are the same with and without the other
    threads: none that `T` took after its first entry call began has been rolled by another thread,
    none that it took before, on a flag opened by another thread, is still pending, and neither is
    one that another thread stored under the name of `T`. -/
structure Undisturbed (name : Nat → String) (T : Nat) (before : List ThreadStep) : Prop where
  rolls : ∀ p s q, before = p ++ (T, .mergeRecord s) :: q → (T, .canRecord true) ∈ p →
    (∀ x ∈ own T q, x.2.isRoll = false) → ∀ x ∈ q, x.2.isRoll = false
  flag : ∀ p s q, before = p ++ (T, .mergeRecord s) :: q → (∃ x ∈ p, x.2 = .canRecord true) →
    (∀ x ∈ q, x.2.isRoll = false) → (T, .canRecord true) ∈ p
  names : ∀ p u s q, before = p ++ (u, .mergeRecord s) :: q → u ≠ T → name u = name T →
    (∃ x ∈ p, x.2 = .canRecord true) → ∃ x ∈ q, x.2.isRoll = true

/-! ## The logs with and without the other threads -/

@[simp] theorem mem_own {T : Nat} {x : ThreadStep} {schedule : List ThreadStep} :
    x ∈ own T schedule ↔ x ∈ schedule ∧ x.1 = T := by
  simp [own]

theorem own_append (T : Nat) (p q : List ThreadStep) : own T (p ++ q) = own T p ++ own T q :=
  List.filter_append ..

theorem own_cons_self (T : Nat) (o : Operation) (q : List ThreadStep) :
    own T ((T, o) :: q) = (T, o) :: own T q := by
  simp [own]

theorem eventsIn_append (name : Nat → String) (p q : List ThreadStep) :
    eventsIn name (p ++ q) = eventsIn name p ++ eventsIn name q := List.map_append

/-- The log of `T` in the whole schedule. -/
def fullLog (name : Nat → String) (T : Nat) (before : List ThreadStep) : SampleLog :=
  logOf (name T) (eventsIn name before)

/-- The log of `T` when it runs alone. -/
def soloLog (name : Nat → String) (T : Nat) (before : List ThreadStep) : SampleLog :=
  fullLog name T (own T before)

variable {name : Nat → String} {T : Nat}

theorem fullLog_snoc (before : List ThreadStep) (x : ThreadStep) :
    fullLog name T (before ++ [x]) = (fullLog name T before).step (name T) ⟨name x.1, x.2⟩ := by
  rw [fullLog, eventsIn_append]
  exact logOf_snoc _ _ _

theorem soloLog_snoc_self (before : List ThreadStep) (o : Operation) :
    soloLog name T (before ++ [(T, o)]) = (soloLog name T before).step (name T) ⟨name T, o⟩ := by
  rw [soloLog, own_append, own_cons_self]
  exact fullLog_snoc _ _

theorem soloLog_snoc_other (before : List ThreadStep) {x : ThreadStep} (hx : x.1 ≠ T) :
    soloLog name T (before ++ [x]) = soloLog name T before := by
  have hnil : own T [x] = [] := by simp [own, hx]
  rw [soloLog, own_append, hnil, List.append_nil]
  rfl

theorem recording_fullLog {before : List ThreadStep}
    (hopen : ∀ x ∈ before, x.2 ≠ .canRecord false) :
    (fullLog name T before).recording = true ↔ ∃ x ∈ before, x.2 = .canRecord true := by
  rw [fullLog, recording_logOf_iff]
  · simp [eventsIn]
  · intro e he
    obtain ⟨x, hx, rfl⟩ := List.mem_map.1 he
    exact hopen x hx

theorem recording_soloLog {before : List ThreadStep}
    (hopen : ∀ x ∈ before, x.2 ≠ .canRecord false) :
    (soloLog name T before).recording = true ↔ (T, .canRecord true) ∈ before := by
  rw [soloLog, recording_fullLog (fun x hx => hopen x (mem_own.1 hx).1)]
  constructor
  · rintro ⟨⟨u, o⟩, hx, rfl⟩
    obtain ⟨hmem, rfl⟩ := mem_own.1 hx
    exact hmem
  · intro h
    exact ⟨_, mem_own.2 ⟨h, rfl⟩, rfl⟩

/-- Nothing of `T` is pending when it runs alone iff it has rolled every sample that it took after
    its first entry call began. -/
theorem current_soloLog_eq_nil_iff (name : Nat → String) {before : List ThreadStep}
    (hopen : ∀ x ∈ before, x.2 ≠ .canRecord false) :
    (soloLog name T before).current = [] ↔
      ∀ p s q, before = p ++ (T, .mergeRecord s) :: q → (T, .canRecord true) ∈ p →
        ∃ x ∈ own T q, x.2.isRoll = true := by
  rw [soloLog, fullLog, current_logOf_eq_nil_iff]
  constructor
  · intro h p s q hsplit hcan
    have hown : eventsIn name (own T before)
        = eventsIn name (own T p) ++ ⟨name T, .mergeRecord s⟩ :: eventsIn name (own T q) := by
      rw [hsplit, own_append, own_cons_self, eventsIn_append]
      rfl
    have hon : (logOf (name T) (eventsIn name (own T p))).recording = true :=
      (recording_soloLog (fun x hx => hopen x (hsplit ▸ List.mem_append_left _ hx))).2 hcan
    obtain ⟨e, he, hroll⟩ := h _ s _ hown hon
    obtain ⟨x, hx, rfl⟩ := List.mem_map.1 he
    exact ⟨x, hx, hroll⟩
  · intro h p s q hsplit hon
    obtain ⟨ownP, ownQ', hown, rfl, hownQ'⟩ := List.map_eq_append_iff.1 hsplit
    obtain ⟨x, ownQ, rfl, hx, rfl⟩ := List.map_eq_cons_iff.1 hownQ'
    obtain ⟨u, o⟩ := x
    obtain rfl : u = T := (mem_own.1 (hown ▸ List.mem_append_right ownP List.mem_cons_self)).2
    obtain rfl : o = .mergeRecord s := congrArg Event.operation hx
    obtain ⟨l₁, l₂, rfl, rfl, hl₂⟩ := List.filter_eq_append_iff.1 hown
    obtain ⟨m₁, m₂, rfl, -, -, rfl⟩ := List.filter_eq_cons_iff.1 hl₂
    have hcan : (u, .canRecord true) ∈ l₁ :=
      (recording_soloLog (fun y hy => hopen y (List.mem_append_left _ hy))).1 hon
    obtain ⟨y, hy, hroll⟩ := h (l₁ ++ m₁) s m₂ (by simp) (List.mem_append_left _ hcan)
    exact ⟨_, List.mem_map.2 ⟨y, hy, rfl⟩, hroll⟩

/-- A thread that has not begun an entry call has nothing pending when it runs alone. -/
theorem current_soloLog_of_not_mem {before : List ThreadStep}
    (hopen : ∀ x ∈ before, x.2 ≠ .canRecord false) (h : (T, .canRecord true) ∉ before) :
    (soloLog name T before).current = [] :=
  (current_soloLog_eq_nil_iff name hopen).2 (fun _ _ _ hsplit hcan =>
    absurd (hsplit ▸ List.mem_append_left _ hcan) h)

/-! ## When the two logs agree -/

theorem undisturbed_nil : Undisturbed name T [] :=
  ⟨fun p s q h => by simp at h, fun p s q h => by simp at h, fun p u s q h => by simp at h⟩

/-- In a trace that ends with a roll every sample is followed by that roll. -/
theorem roll_mem_after_sample {before : List ThreadStep} {x : ThreadStep}
    (hroll : x.2.isRoll = true) (p : List ThreadStep) (u : Nat) (s : Sample) (q : List ThreadStep)
    (h : before ++ [x] = p ++ (u, .mergeRecord s) :: q) : x ∈ q := by
  rcases Trace.snoc_eq_append_cons.1 h with ⟨-, rfl, -⟩ | ⟨q', rfl, -⟩
  · exact absurd hroll (by simp [Operation.isRoll])
  · exact List.mem_append_right q' (List.mem_singleton_self x)

/-- After a roll of its own a thread is undisturbed. -/
theorem undisturbed_snoc_ownRoll (before : List ThreadStep) {o : Operation}
    (ho : o.isRoll = true) : Undisturbed name T (before ++ [(T, o)]) := by
  have hrolled : ¬(T, o).2.isRoll = false := by simp [ho]
  refine ⟨fun p s q h _ hno => ?_, fun p s q h _ hno => ?_, fun p u s q h _ _ _ => ?_⟩
  · have hmem := roll_mem_after_sample ho p T s q h
    exact absurd (hno _ (mem_own.2 ⟨hmem, rfl⟩)) hrolled
  · have hmem := roll_mem_after_sample ho p T s q h
    exact absurd (hno _ hmem) hrolled
  · exact ⟨(T, o), roll_mem_after_sample ho p u s q h, ho⟩

/-- After a roll of another thread a thread is undisturbed iff it had nothing pending of its own. -/
theorem undisturbed_snoc_otherRoll {before : List ThreadStep} {x : ThreadStep} (hx : x.1 ≠ T)
    (hroll : x.2.isRoll = true) :
    Undisturbed name T (before ++ [x]) ↔
      ∀ p s q, before = p ++ (T, .mergeRecord s) :: q → (T, .canRecord true) ∈ p →
        ∃ y ∈ own T q, y.2.isRoll = true := by
  have hnil : own T [x] = [] := by simp [own, hx]
  constructor
  · rintro ⟨hrolls, -, -⟩ p s q rfl hcan
    by_contra hno
    have hno' : ∀ y ∈ own T (q ++ [x]), y.2.isRoll = false := by
      intro y hy
      rw [own_append, hnil, List.append_nil] at hy
      by_contra hy'
      exact hno ⟨y, hy, by simpa using hy'⟩
    have := hrolls p s (q ++ [x]) (by simp) hcan hno' x (by simp)
    rw [hroll] at this
    exact absurd this (by simp)
  · intro h
    refine ⟨fun p s q hsplit hcan hno => ?_, fun p s q hsplit _ hno => ?_,
      fun p u s q hsplit _ _ _ => ⟨x, roll_mem_after_sample hroll p u s q hsplit, hroll⟩⟩
    · rcases Trace.snoc_eq_append_cons.1 hsplit with ⟨-, rfl, -⟩ | ⟨q', rfl, hsplit'⟩
      · exact absurd rfl hx
      · obtain ⟨y, hy, hy'⟩ := h p s q' hsplit' hcan
        have := hno y (by rw [own_append]; exact List.mem_append_left _ hy)
        rw [hy'] at this
        exact absurd this (by simp)
    · have hlast := hno x (roll_mem_after_sample hroll p T s q hsplit)
      rw [hroll] at hlast
      cases hlast

/-- A step that does not roll keeps a thread undisturbed iff it neither stores a sample of the
    thread on a flag that only others have opened, nor one under its name by another thread. -/
theorem undisturbed_snoc {before : List ThreadStep} {x : ThreadStep} (hroll : x.2.isRoll = false) :
    Undisturbed name T (before ++ [x]) ↔
      Undisturbed name T before ∧
        (∀ s, x = (T, .mergeRecord s) → (∃ y ∈ before, y.2 = .canRecord true) →
          (T, .canRecord true) ∈ before) ∧
        (∀ u s, x = (u, .mergeRecord s) → u ≠ T → name u = name T →
          ¬∃ y ∈ before, y.2 = .canRecord true) := by
  have hlast : ∀ q : List ThreadStep,
      (∀ y ∈ q ++ [x], y.2.isRoll = false) ↔ ∀ y ∈ q, y.2.isRoll = false := by
    intro q
    simp only [List.mem_append, List.mem_singleton]
    exact ⟨fun h y hy => h y (Or.inl hy), fun h y hy => hy.elim (h y) (fun he => he ▸ hroll)⟩
  have hlastOwn : ∀ q : List ThreadStep,
      (∀ y ∈ own T (q ++ [x]), y.2.isRoll = false) ↔ ∀ y ∈ own T q, y.2.isRoll = false := by
    intro q
    simp only [mem_own, List.mem_append, List.mem_singleton]
    exact ⟨fun h y hy => h y ⟨Or.inl hy.1, hy.2⟩,
      fun h y hy => hy.1.elim (fun hm => h y ⟨hm, hy.2⟩) (fun he => he ▸ hroll)⟩
  constructor
  · rintro ⟨hrolls, hflag, hname⟩
    refine ⟨⟨?_, ?_, ?_⟩, fun s hs hopen => ?_, fun u s hs hu hsame hopen => ?_⟩
    · rintro p s q rfl hcan hno
      exact (hlast q).1 (hrolls p s (q ++ [x]) (by simp) hcan ((hlastOwn q).2 hno))
    · rintro p s q rfl hcan hno
      exact hflag p s (q ++ [x]) (by simp) hcan ((hlast q).2 hno)
    · rintro p u s q rfl hu hsame hcan
      obtain ⟨y, hy, hy'⟩ := hname p u s (q ++ [x]) (by simp) hu hsame hcan
      rcases List.mem_append.1 hy with hy | hy
      · exact ⟨y, hy, hy'⟩
      · rw [List.mem_singleton.1 hy, hroll] at hy'
        cases hy'
    · exact hflag before s [] (by rw [hs]) hopen (by simp)
    · obtain ⟨y, hy, -⟩ := hname before u s [] (by rw [hs]) hu hsame hopen
      cases hy
  · rintro ⟨⟨hrolls, hflag, hname⟩, hown, hother⟩
    refine ⟨fun p s q h hcan hno => ?_, fun p s q h hcan hno => ?_,
      fun p u s q h hu hsame hcan => ?_⟩
    · rcases Trace.snoc_eq_append_cons.1 h with ⟨-, -, rfl⟩ | ⟨q', rfl, h'⟩
      · simp
      · exact (hlast q').2 (hrolls p s q' h' hcan ((hlastOwn q').1 hno))
    · rcases Trace.snoc_eq_append_cons.1 h with ⟨rfl, hx, -⟩ | ⟨q', rfl, h'⟩
      · exact hown s hx hcan
      · exact hflag p s q' h' hcan ((hlast q').1 hno)
    · rcases Trace.snoc_eq_append_cons.1 h with ⟨rfl, hx, -⟩ | ⟨q', rfl, h'⟩
      · exact absurd hcan (hother u s hx hu hsame)
      · obtain ⟨y, hy, hy'⟩ := hname p u s q' h' hu hsame hcan
        exact ⟨y, List.mem_append_left _ hy, hy'⟩

/-- A step that is no roll and no sample under the name of a thread leaves the thread as disturbed
    as it was. -/
theorem undisturbed_snoc_of_neutral {before : List ThreadStep} {x : ThreadStep}
    (hroll : x.2.isRoll = false) (hx : ∀ u s, x = (u, .mergeRecord s) → name u ≠ name T) :
    Undisturbed name T (before ++ [x]) ↔ Undisturbed name T before := by
  rw [undisturbed_snoc hroll]
  exact and_iff_left ⟨fun s hs => absurd rfl (hx T s hs),
    fun u s hs _ hsame => absurd hsame (hx u s hs)⟩

/-- A sample of `T` keeps it undisturbed iff `T` has begun an entry call when the flag is on. -/
theorem undisturbed_snoc_sample {before : List ThreadStep} {s : Sample} :
    Undisturbed name T (before ++ [(T, .mergeRecord s)]) ↔
      Undisturbed name T before ∧
        ((∃ x ∈ before, x.2 = .canRecord true) → (T, .canRecord true) ∈ before) := by
  rw [undisturbed_snoc rfl]
  refine and_congr_right (fun _ => ⟨fun h => h.1 s rfl, fun h => ⟨fun _ _ => h, ?_⟩⟩)
  intro u s' heq hu
  exact absurd (Prod.mk.inj heq).1.symm hu

/-- **The two logs agree if the thread is undisturbed**, and only if when no other thread acts under
    its name. Then one log is always a final part of the other, so they also agree as soon as they
    have the same length. -/
theorem logs_agree (name : Nat → String) (T : Nat) {before : List ThreadStep}
    (hopen : ∀ x ∈ before, x.2 ≠ .canRecord false) :
    (Undisturbed name T before →
      (fullLog name T before).current = (soloLog name T before).current) ∧
      ((∀ x ∈ before, x.1 ≠ T → name x.1 ≠ name T) →
        ((fullLog name T before).current = (soloLog name T before).current →
            Undisturbed name T before) ∧
          ((fullLog name T before).current <:+ (soloLog name T before).current ∨
            (soloLog name T before).current <:+ (fullLog name T before).current)) := by
  induction before using List.reverseRecOn with
  | nil => exact ⟨fun _ => rfl, fun _ => ⟨fun _ => undisturbed_nil, Or.inl (List.suffix_refl _)⟩⟩
  | append_singleton before x ih =>
      have hopen' : ∀ y ∈ before, y.2 ≠ .canRecord false :=
        fun y hy => hopen y (List.mem_append_left _ hy)
      have hnames' : (∀ y ∈ before ++ [x], y.1 ≠ T → name y.1 ≠ name T) →
          ∀ y ∈ before, y.1 ≠ T → name y.1 ≠ name T :=
        fun h y hy => h y (List.mem_append_left _ hy)
      obtain ⟨hagree, hdistinct⟩ := ih hopen'
      obtain ⟨u, o⟩ := x
      have hfull : (fullLog name T before).recording = true ↔ ∃ x ∈ before, x.2 = .canRecord true :=
        recording_fullLog hopen'
      have hsolo : (soloLog name T before).recording = true ↔ (T, .canRecord true) ∈ before :=
        recording_soloLog hopen'
      by_cases hu : u = T
      · subst hu
        rw [fullLog_snoc, soloLog_snoc_self]
        cases o with
        | canRecord b =>
            rw [undisturbed_snoc_of_neutral rfl (fun v s h => by simp at h)]
            exact ⟨hagree, fun h => hdistinct (hnames' h)⟩
        | printAndRolling clock =>
            exact ⟨fun _ => rfl,
              fun _ => ⟨fun _ => undisturbed_snoc_ownRoll before rfl, Or.inl (List.suffix_refl _)⟩⟩
        | mergeRecord s =>
            rw [undisturbed_snoc_sample]
            by_cases hown : (u, .canRecord true) ∈ before
            · have hany : ∃ x ∈ before, x.2 = .canRecord true := ⟨_, hown, rfl⟩
              rw [SampleLog.step_accept s (hfull.2 hany), SampleLog.step_accept s (hsolo.2 hown),
                List.append_left_inj, and_iff_left (fun _ => hown)]
              refine ⟨hagree, fun h => ?_⟩
              exact (hdistinct (hnames' h)).imp_right
                (Or.imp List.suffix_append_self_iff.2 List.suffix_append_self_iff.2)
            · have hnil : (soloLog name u before).current = [] :=
                current_soloLog_of_not_mem hopen' hown
              rw [SampleLog.step_of_not_recording s (fun h => hown (hsolo.1 h))]
              by_cases hany : ∃ x ∈ before, x.2 = .canRecord true
              · -- the flag is on through others only: alone the sample would be refused
                rw [SampleLog.step_accept s (hfull.2 hany), hnil]
                exact ⟨fun h => absurd (h.2 hany) hown,
                  fun _ => ⟨fun h => absurd h (by simp), Or.inr List.nil_suffix⟩⟩
              · rw [SampleLog.step_of_not_recording s (fun h => hany (hfull.1 h)),
                  and_iff_left (fun h => absurd h hany)]
                exact ⟨hagree, fun h => hdistinct (hnames' h)⟩
      · rw [fullLog_snoc, soloLog_snoc_other before hu]
        cases o with
        | canRecord b =>
            rw [undisturbed_snoc_of_neutral rfl (fun v s h => by simp at h)]
            exact ⟨hagree, fun h => hdistinct (hnames' h)⟩
        | mergeRecord s =>
            -- a sample under the name of `T` counts as one of `T` in the whole schedule only
            by_cases hname : name u = name T
            · refine ⟨fun h => ?_, fun h => absurd hname (h (u, .mergeRecord s) (by simp) hu)⟩
              obtain ⟨hbefore, -, hother⟩ := (undisturbed_snoc rfl).1 h
              rw [SampleLog.step_of_not_recording s
                (fun hon => hother u s rfl hu hname (hfull.1 hon))]
              exact hagree hbefore
            · rw [undisturbed_snoc_of_neutral rfl (fun v s' h => (Prod.mk.inj h).1 ▸ hname),
                SampleLog.step_of_ne _ s hname]
              exact ⟨hagree, fun h => hdistinct (hnames' h)⟩
        | printAndRolling clock =>
            rw [undisturbed_snoc_otherRoll hu rfl, ← current_soloLog_eq_nil_iff name hopen']
            exact ⟨Eq.symm, fun _ => ⟨Eq.symm, Or.inl List.nil_suffix⟩⟩

/-! ## The report of a thread -/

theorem ownReport_eq (before : List ThreadStep) (currentTimeMillis : String → Int) :
    ownReport name T before currentTimeMillis = groupByMethod (fullLog name T before).current := by
  rw [ownReport, TimeCostManager.printedFor_printAndRolling, pending_run]
  rfl

/-- **When the other threads do not show in a thread's own report.** At a roll that a thread `T`
    makes in an interleaving of any calls of any threads, what is printed for `T` is what would be
    printed if the others took no steps if `T` is undisturbed there. When no other thread acts under
    the name of `T`, the printed samples are the same only if it is. -/
theorem own_report_iff (cfg : GlobalConfig) (name : Nat → String) (program : Nat → Calls)
    (before after : List ThreadStep) (T : Nat) (currentTimeMillis : String → Int)
    (hrun : Interleaves cfg program (before ++ (T, .printAndRolling currentTimeMillis) :: after)) :
    (Undisturbed name T before →
        ownReport name T before currentTimeMillis
          = ownReport name T (own T before) currentTimeMillis) ∧
      ((∀ x ∈ before, x.1 ≠ T → name x.1 ≠ name T) →
        ((samplesIn (ownReport name T before currentTimeMillis)).Perm
            (samplesIn (ownReport name T (own T before) currentTimeMillis)) ↔
          Undisturbed name T before)) := by
  have hopen : ∀ x ∈ before, x.2 ≠ .canRecord false := by
    intro x hx
    refine Calls.operations_ne_canRecord_false cfg (program x.1) x.2 ((hrun x.1).subset ?_)
    exact List.mem_map.2 ⟨x, mem_own.2 ⟨List.mem_append_left _ hx, rfl⟩, rfl⟩
  obtain ⟨hagree, hdistinct⟩ := logs_agree name T hopen
  have hsolo : ownReport name T (own T before) currentTimeMillis
      = groupByMethod (soloLog name T before).current := ownReport_eq _ _
  have hsame : Undisturbed name T before → ownReport name T before currentTimeMillis
      = ownReport name T (own T before) currentTimeMillis := by
    intro h
    rw [hsolo, ownReport_eq, hagree h]
  refine ⟨hsame, fun hnames => ⟨fun hperm => ?_, fun h => hsame h ▸ List.Perm.refl _⟩⟩
  obtain ⟨hundisturbed, hsuffix⟩ := hdistinct hnames
  rw [hsolo, ownReport_eq] at hperm
  have hlen : (fullLog name T before).current.length = (soloLog name T before).current.length := by
    have := ((samplesIn_groupByMethod_perm _).symm.trans
      (hperm.trans (samplesIn_groupByMethod_perm _))).length_eq
    simpa using this
  refine hundisturbed ?_
  rcases hsuffix with h | h
  · exact h.eq_of_length hlen
  · exact (h.eq_of_length hlen.symm).symm

section ForeignRoll

/-- Thread 0 calls the entry with one call nested in it, thread 1 calls the entry. -/
def twoThreads : Nat → Calls
  | 0 => .call (callOf "run" 0 5) (.call (callOf "step" 1 2) .nil .nil) .nil
  | 1 => .call (callOf "run" 3 4) .nil .nil
  | _ => .nil

def threadName : Nat → String
  | 0 => "main"
  | _ => "worker"

/-- Thread 1 begins and ends its entry call while thread 0 is in the middle of its own. -/
def beforeOwnRoll : List ThreadStep :=
  [(0, .canRecord true), (0, .mergeRecord ((callOf "step" 1 2).sample enterRun)),
    (1, .canRecord true), (1, .mergeRecord ((callOf "run" 3 4).sample enterRun)),
    (1, .printAndRolling (fun _ => 4)), (0, .mergeRecord ((callOf "run" 0 5).sample enterRun))]

theorem twoThreads_interleave :
    Interleaves enterRun twoThreads (beforeOwnRoll ++ [(0, .printAndRolling (fun _ => 5))])
  | 0 => ⟨[], rfl⟩
  | 1 => ⟨[], rfl⟩
  | n + 2 => by
      have hnone : own (n + 2) (beforeOwnRoll ++ [(0, .printAndRolling (fun _ => 5))]) = [] := by
        simp [own, beforeOwnRoll]
      rw [hnone]
      exact List.nil_prefix

/-- Thread 0 makes one entry call, not nested in another and with no other inside it; the roll of
    thread 1 prints one of its samples, which is then missing from its own report. -/
theorem foreign_roll_disturbs :
    Interleaves enterRun twoThreads (beforeOwnRoll ++ [(0, .printAndRolling (fun _ => 5))]) ∧
      threadName 0 ≠ threadName 1 ∧
      (twoThreads 0).OutermostEnter enterRun [] (callOf "run" 0 5)
        (.call (callOf "step" 1 2) .nil .nil) ∧
      (Calls.call (callOf "step" 1 2) .nil .nil).hasEnter enterRun = false ∧
      ¬ (samplesIn (ownReport threadName 0 beforeOwnRoll (fun _ => 5))).Perm
        (samplesIn (ownReport threadName 0 (own 0 beforeOwnRoll) (fun _ => 5))) :=
  ⟨twoThreads_interleave, by decide, .here (by decide), by decide, by decide⟩

/-- Thread 1 is undisturbed in the same schedule, and its report is the one it would print alone. -/
theorem own_report_of_thread_one :
    Undisturbed threadName 1 (beforeOwnRoll.take 4) ∧
      ownReport threadName 1 (beforeOwnRoll.take 4) (fun _ => 4)
        = ownReport threadName 1 (own 1 (beforeOwnRoll.take 4)) (fun _ => 4) := by
  obtain ⟨hsame, hdistinct⟩ := own_report_iff enterRun threadName twoThreads (beforeOwnRoll.take 4)
    [(0, .mergeRecord ((callOf "run" 0 5).sample enterRun)), (0, .printAndRolling (fun _ => 5))] 1
    (fun _ => 4) twoThreads_interleave
  have hundisturbed : Undisturbed threadName 1 (beforeOwnRoll.take 4) :=
    (hdistinct (by simp [beforeOwnRoll, threadName])).1 (by decide)
  exact ⟨hundisturbed, hsame hundisturbed⟩

end ForeignRoll

end Jma
