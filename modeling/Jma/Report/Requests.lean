import Jma.Report.Console
import Jma.Report.Execution

set_option autoImplicit false

/-! # From the program to the console

Threads of the target run a program of woven and unwoven methods, and their steps interleave inside
the operations. One of the threads serves requests: what it runs outside its entry calls is not
timed, and the entry calls end normally. `console_of_program` says what the reports list for it,
whatever the other threads run. -/

namespace Jma

open MethodHierarchyUtil TimeCostTransformer MethodTimeCostAdvice

/-! ## The samples of a thread -/

/-- The samples that a thread takes. -/
def taken (operations : List Operation) : List Sample :=
  operations.filterMap (fun o =>
    match o with
    | .mergeRecord s => some s
    | _ => none)

theorem taken_append (os os' : List Operation) : taken (os ++ os') = taken os ++ taken os' :=
  List.filterMap_append

theorem taken_operations (cfg : GlobalConfig) (calls : Calls) :
    taken (calls.operations cfg) = calls.samples cfg := by
  induction calls with
  | nil => rfl
  | call inv nested next ihn ihx =>
      have henter : taken (onEnter cfg inv) = [] := by
        unfold onEnter
        split <;> rfl
      have hexit : taken (onExit cfg inv) = [inv.sample cfg] := by
        unfold onExit
        split <;> rfl
      rw [Calls.operations, Calls.samples, taken_append, taken_append, taken_append, henter, ihn,
        ihx, List.nil_append]
      split
      · rw [hexit]
      · rfl

section

variable {name : Nat → String} {t : Nat}

/-- A thread with a name of its own that begins with an entry call has all its samples accepted, as
    nobody closes the flag. -/
theorem accepted_of_begin (hname : ∀ u, u ≠ t → name u ≠ name t) {recording : Bool}
    {history : List ThreadStep} (hopen : ∀ x ∈ history, x.2 ≠ .canRecord false)
    (hbegin : recording = true ∨
      ∀ o ∈ ((own t history).map Prod.snd).head?, o = .canRecord true) :
    accepted (name t) recording (eventsIn name history) = taken ((own t history).map Prod.snd) := by
  induction history generalizing recording with
  | nil => rfl
  | cons x rest ih =>
      obtain ⟨u, o⟩ := x
      have hrest : ∀ x ∈ rest, x.2 ≠ .canRecord false :=
        fun x hx => hopen x (List.mem_cons_of_mem _ hx)
      have hfirst := hopen _ List.mem_cons_self
      by_cases hu : u = t
      · subst hu
        rw [own_cons_self, List.map_cons] at hbegin ⊢
        have hrec : o ≠ .canRecord true → recording = true :=
          fun ho => hbegin.resolve_right (fun h => ho (h o rfl))
        cases o with
        | canRecord b =>
            obtain rfl : b = true := by simpa using hfirst
            exact ih hrest (Or.inl rfl)
        | mergeRecord s =>
            have hon := hrec (fun h => by cases h)
            have haccept : accepted (name u) recording (eventsIn name ((u, .mergeRecord s) :: rest))
                = s :: accepted (name u) recording (eventsIn name rest) := if_pos ⟨hon, rfl⟩
            rw [haccept, ih hrest (Or.inl hon)]
            rfl
        | printAndRolling clock => exact ih hrest (Or.inl (hrec (fun h => by cases h)))
      · have hown : own t ((u, o) :: rest) = own t rest := by simp [own, hu]
        rw [hown] at hbegin ⊢
        cases o with
        | canRecord b =>
            obtain rfl : b = true := by simpa using hfirst
            exact ih hrest (Or.inl rfl)
        | mergeRecord s =>
            rw [← ih hrest hbegin]
            exact if_neg (fun h => hname u hu h.2)
        | printAndRolling clock => exact ih hrest hbegin

/-- A thread with a name of its own whose last operation is a roll has nothing pending. -/
theorem current_eq_nil_of_rolled (hname : ∀ u, u ≠ t → name u ≠ name t)
    {history : List ThreadStep}
    (hlast : ∀ o ∈ ((own t history).map Prod.snd).getLast?, o.isRoll = true) :
    (logOf (name t) (eventsIn name history)).current = [] := by
  rw [current_logOf_eq_nil_iff]
  intro p s q hsplit _
  obtain ⟨before, rest, rfl, -, hrest⟩ := List.map_eq_append_iff.1 hsplit
  obtain ⟨⟨u, o⟩, after, rfl, hx, rfl⟩ := List.map_eq_cons_iff.1 hrest
  obtain ⟨hu, rfl⟩ := Event.mk.inj hx
  obtain rfl : u = t := by
    by_contra hne
    exact hname u hne hu
  rw [own_append, own_cons_self, List.map_append, List.map_cons, List.getLast?_append,
    List.getLast?_cons] at hlast
  have hroll := hlast _ rfl
  cases hafter : ((own u after).map Prod.snd).getLast? with
  | none =>
      rw [hafter] at hroll
      cases hroll
  | some o =>
      rw [hafter] at hroll
      obtain ⟨x, hx, rfl⟩ := List.mem_map.1 (List.mem_of_getLast? hafter)
      exact ⟨_, List.mem_map.2 ⟨x, (mem_own.1 hx).1, rfl⟩, hroll⟩

end

/-! ## Requests -/

variable {U : ClassUniverse}

/-- Whatever is timed is an entry call that ends normally, or runs inside one. -/
def Execution.Serves (cfg : GlobalConfig) (timed : Activation U → Prop) : Execution U → Prop
  | nil => True
  | run a nested next =>
      (timed a ∧ cfg.isEnterFrame a.frame = true ∧ a.normal = true ∨
        ¬timed a ∧ nested.Serves cfg timed) ∧ next.Serves cfg timed

theorem Calls.operations_append (cfg : GlobalConfig) (c c' : Calls) :
    (c.append c').operations cfg = c.operations cfg ++ c'.operations cfg := by
  induction c with
  | nil => rfl
  | call inv nested next _ ih => simp only [append, operations, ih, List.append_assoc]

/-- The first operation opens the flag and the last one rolls. -/
def Bracketed (operations : List Operation) : Prop :=
  (∀ o ∈ operations.head?, o = .canRecord true) ∧ ∀ o ∈ operations.getLast?, o.isRoll = true

theorem Bracketed.nil : Bracketed [] := ⟨fun _ ho => (by cases ho), fun _ ho => (by cases ho)⟩

theorem Bracketed.append {os os' : List Operation} (h : Bracketed os) (h' : Bracketed os') :
    Bracketed (os ++ os') := by
  constructor
  · rw [List.head?_append]
    intro o ho
    rcases Option.or_eq_some_iff.1 ho with ho | ⟨-, ho⟩
    · exact h.1 o ho
    · exact h'.1 o ho
  · rw [List.getLast?_append]
    intro o ho
    rcases Option.or_eq_some_iff.1 ho with ho | ⟨-, ho⟩
    · exact h'.2 o ho
    · exact h.2 o ho

section

variable {cfg : GlobalConfig} {timed : Activation U → Prop} {advised : Activation U → Bool}
  {e : Execution U} {callers : List StackTraceElement}

theorem bracketed_of_serves (hadvised : ∀ a, advised a = true ↔ timed a)
    (h : e.Serves cfg timed) : Bracketed ((e.calls advised callers).operations cfg) := by
  induction e generalizing callers with
  | nil => exact .nil
  | run a nested next ihn ihx =>
      obtain ⟨⟨htimed, henter, hnormal⟩ | ⟨huntimed, hnested⟩, hnext⟩ := h
      · have hinv : (a.invocation callers).isEnter cfg = true := henter
        have hnorm : (a.invocation callers).normal = true := hnormal
        have hops : ((Execution.run a nested next).calls advised callers).operations cfg
            = (.canRecord true :: ((nested.calls advised (a.frame :: callers)).operations cfg
                ++ [.mergeRecord ((a.invocation callers).sample cfg)])
                ++ [.printAndRolling a.currentTimeMillis])
              ++ (next.calls advised callers).operations cfg := by
          rw [Execution.calls, if_pos ((hadvised a).2 htimed), Calls.operations, onEnter, onExit,
            if_pos hinv, if_pos hnorm, if_pos hinv]
          simp [Activation.invocation]
        rw [hops]
        refine .append ⟨fun o ho => (Option.some.inj ho).symm, fun o ho => ?_⟩ (ihx hnext)
        rw [List.getLast?_concat] at ho
        cases ho
        rfl
      · rw [Execution.calls, if_neg (fun h => huntimed ((hadvised a).1 h)), Calls.operations_append]
        exact (ihn hnested).append (ihx hnext)

/-- What is timed is inside an entry call that is timed. -/
theorem exists_entry_of_serves (h : e.Serves cfg timed) : ∀ x ∈ e.ended callers, timed x.1 →
    ∃ a, timed a ∧ cfg.isEnterFrame a.frame = true ∧ a.frame ∈ x.1.frame :: x.2 := by
  induction e generalizing callers with
  | nil => exact fun x hx => absurd hx List.not_mem_nil
  | run a nested next ihn ihx =>
      obtain ⟨hfirst, hnext⟩ := h
      intro x hx hxt
      have hsplit : (Execution.run a nested next).ended callers
          = endedIn callers nested a ++ next.ended callers := by
        simp [endedIn, Execution.ended]
      rw [hsplit, List.mem_append] at hx
      rcases hx with hx | hx
      · rcases hfirst with ⟨htimed, henter, -⟩ | ⟨huntimed, hnested⟩
        · exact ⟨a, htimed, henter, frame_mem_of_endedIn hx⟩
        · rw [endedIn, Execution.ended, Execution.ended, List.append_nil, List.mem_append] at hx
          rcases hx with hx | hx
          · exact ihn hnested x hx hxt
          · split at hx
            · rw [List.mem_singleton.1 hx] at hxt
              exact absurd hxt huntimed
            · cases hx
      · exact ihx hnext x hx hxt

end

section

variable {weave : Weave} {flags : ClassFile → MethodDecl → AccessFlags}
  {allLoadedClassed : List LoadedClass} {fold : Char → Char} {root name : String} {w : Walk}

/-- A serving thread's sample shows the frames from an entry down to its activation. -/
theorem callTree_of_serves
    (hagent : ∀ e ∈ w.methods, e.cClassName ≠ "cn/dyq/agent/advice/AdviceUtil") {cfg : GlobalConfig}
    {e : Execution U} {callers : List StackTraceElement}
    (h : e.Serves cfg (Timed weave flags w.methods allLoadedClassed))
    {x : Activation U × List StackTraceElement} (hx : x ∈ e.ended callers)
    (htimed : Timed weave flags w.methods allLoadedClassed x.1) :
    ((x.1.invocation x.2).sample cfg).callTree = x.1.path cfg x.2 ∧
      ∃ f, (x.1.path cfg x.2).head? = some f ∧ cfg.isEnterFrame f = true := by
  obtain ⟨a, ha, henter, hframe⟩ := exists_entry_of_serves h x hx htimed
  refine ⟨callTree_invocation x.2 (ha.agentFrames_ne hagent) (htimed.agentFrames_ne hagent) henter,
    ?_⟩
  rw [Activation.path, List.head?_reverse]
  exact Slice.exists_getLast?_upTo ⟨a.frame, hframe, henter⟩

/-- The threads execute the operations of their calls. -/
theorem Reporting.interleaves_of_acts {cfg : GlobalConfig} {called ended : Invocation → String}
    {calls : Nat → Calls} {threads : Nat → String} {s : Reporting}
    (hrun : Trace.Runs (step threads) (fun _ _ => True)
      (initial (fun t => (calls t).acts cfg called ended)) s) :
    Interleaves cfg calls s.history := by
  intro t
  rw [← operationsIn_acts cfg called ended]
  have hthreads := (invariants hrun).1
  exact hthreads.history_prefix t

theorem Interleaves.ne_canRecord_false {cfg : GlobalConfig} {program : Nat → Calls}
    {schedule : List ThreadStep} (h : Interleaves cfg program schedule) :
    ∀ x ∈ schedule, x.2 ≠ .canRecord false := by
  intro x hx
  refine Calls.operations_ne_canRecord_false cfg (program x.1) x.2 ((h x.1).subset ?_)
  exact List.mem_map.2 ⟨x, mem_own.2 ⟨hx, rfl⟩, rfl⟩

/-- **From the program to the console.** Threads run any executions of a program whose methods have
    been woven after the walk, step by step and in any order, and no post fails. One thread, with a
    name of its own, serves requests: whatever it runs that is timed is an entry call that ends
    normally, or is inside one. When no thread is in the middle of an operation, the report lines on
    the console are the texts of the blocks that the rolls, its own and those of others, have
    printed. For the thread these blocks list, with what is still pending, the times of all its
    timed activations that have ended normally and taken their sample, each once; every row shows
    the frames from an entry down to one of them, and no roll has two rows of one method. When the
    thread is at its end, none is left out and nothing is pending. -/
theorem console_of_program (h : walk U fold root name = .ok w)
    (hagent : ∀ e ∈ w.methods, e.cClassName ≠ "cn/dyq/agent/advice/AdviceUtil")
    (cfg : GlobalConfig) (executions : Nat → Execution U) (callers : Nat → List StackTraceElement)
    (called ended : Invocation → String) {threads : Nat → String} {s : Reporting}
    (hrun : Trace.Runs (Reporting.step threads) (fun _ a => ∀ t, a ≠ .fail t)
      (.initial (fun t => ((executions t).calls (advised weave flags w.methods allLoadedClassed)
        (callers t)).acts cfg called ended)) s)
    (hready : ∀ t, (s.workers t).pc = .ready) {t : Nat}
    (hserves : (executions t).Serves cfg (Timed weave flags w.methods allLoadedClassed))
    (hname : ∀ u, u ≠ t → threads u ≠ threads t) :
    let advised := advised weave flags w.methods allLoadedClassed
    s.reportLines = s.rolls.flatten.flatMap Block.messages ∧
      ∃ seen later,
        ((executions t).ended (callers t)).filter (fun x => advised x.1) = seen ++ later ∧
          (∀ x ∈ (executions t).ended (callers t),
            x ∈ seen ++ later ↔ Timed weave flags w.methods allLoadedClassed x.1) ∧
          taken ((own t s.history).map Prod.snd)
            = seen.map (fun x => (x.1.invocation x.2).sample cfg) ∧
          (samplesIn (s.rolls.flatMap (printedFor (threads t))
              ++ s.manager.pending (threads t))).Perm
            (seen.map (fun x => (x.1.identifier, x.1.cost))) ∧
          (∀ roll ∈ s.rolls, ((printedFor (threads t) roll).map TimeCostRecord.method).Nodup ∧
            ∀ r ∈ printedFor (threads t) roll, ∃ x ∈ seen, x.1.identifier = r.method ∧
              r.callTree = x.1.path cfg x.2 ∧
              ∃ f, r.callTree.head? = some f ∧ cfg.isEnterFrame f = true) ∧
          ((s.workers t).todo = [] → later = [] ∧ s.manager.pending (threads t) = []) := by
  intro advised
  have hiff : ∀ a : Activation U,
      advised a = true ↔ Timed weave flags w.methods allLoadedClassed a :=
    advised_iff_timed (walk_finished h)
  have hany : Trace.Runs (Reporting.step threads) (fun _ _ => True)
      (.initial (fun t => ((executions t).calls advised (callers t)).acts cfg called ended)) s :=
    hrun.mono (fun _ _ _ => trivial)
  have hinterleaves := Reporting.interleaves_of_acts hany
  obtain ⟨hfirst, hlast⟩ := bracketed_of_serves hiff hserves
  -- the thread opens the flag before it takes a sample, so all of them are accepted
  have haccepted : accepted (threads t) false (eventsIn threads s.history)
      = taken ((own t s.history).map Prod.snd) := by
    refine accepted_of_begin hname hinterleaves.ne_canRecord_false
      (Or.inr (fun o ho => hfirst o ?_))
    obtain ⟨rest, hrest⟩ := hinterleaves t
    rw [← hrest, List.head?_append, Option.mem_def.1 ho]
    rfl
  have htaken : taken ((own t s.history).map Prod.snd)
      <+: (((executions t).ended (callers t)).filter (fun x => advised x.1)).map
        (fun x => (x.1.invocation x.2).sample cfg) := by
    rw [← samples_calls, ← taken_operations]
    exact (hinterleaves t).filterMap _
  obtain ⟨seen, ⟨later, hseen⟩, heq⟩ := List.prefix_map_iff.1 htaken
  have hcut : (logOf (threads t) (eventsIn threads s.history)).rolled.flatten
      ++ (logOf (threads t) (eventsIn threads s.history)).current
        = seen.map (fun x => (x.1.invocation x.2).sample cfg) :=
    (SampleLog.flatten_run _ _ .initial).trans (haccepted.trans heq)
  refine ⟨Reporting.reportLines_of_ready hrun hready, seen, later, hseen.symm, fun x hx => ?_, heq,
    ?_, fun roll hroll => ?_, fun hend => ?_⟩
  · rw [hseen, List.mem_filter, and_iff_right hx]
    exact hiff x.1
  · have hlisted := Reporting.listed_of_ready hany hready (threads t)
    rw [haccepted, heq, List.map_map] at hlisted
    exact hlisted
  · have hprinted : printedFor (threads t) roll
        ∈ (logOf (threads t) (eventsIn threads s.history)).rolled.map groupByMethod := by
      rw [← Reporting.printed_of_ready hany hready]
      exact List.mem_map_of_mem hroll
    obtain ⟨piece, hpiece, hgroup⟩ := List.mem_map.1 hprinted
    rw [← hgroup]
    refine ⟨nodup_groupByMethod piece, fun r hr => ?_⟩
    obtain ⟨y, hy, hmethod, htree⟩ := exists_sample_of_record hr
    obtain ⟨x, hx, rfl⟩ := List.mem_map.1
      (hcut ▸ List.mem_append_left _ (List.mem_flatten_of_mem hpiece hy))
    obtain ⟨hended, hadvised⟩ := List.mem_filter.1 (hseen ▸ List.mem_append_left later hx)
    have hpath := callTree_of_serves hagent hserves hended ((hiff x.1).1 hadvised)
    rw [htree] at hpath
    exact ⟨x, hx, hmethod, hpath.1, hpath.1 ▸ hpath.2⟩
  · have hall : (own t s.history).map Prod.snd
        = ((executions t).calls advised (callers t)).operations cfg := by
      have horder := (Reporting.invariants hany).1.order t
      rw [operationsIn_acts, Worker.pending, hready t, hend] at horder
      exact (List.append_nil _).symm.trans horder.symm
    constructor
    · rw [hall, taken_operations, samples_calls, ← hseen, List.map_append] at heq
      exact List.map_eq_nil_iff.1 (List.append_right_eq_self.1 heq)
    · rw [Reporting.pending_of_ready hany hready, current_eq_nil_of_rolled hname (hall ▸ hlast)]
      rfl

end

namespace ShopRun

open JavalibDemo

def advisedInShop (a : Activation classPath) : Bool :=
  advised weaveAll flags walkFromCall.methods [mainClass, helperClass] a

/-- Thread 0 serves a request, and thread 1 begins one that does not end normally. -/
def shopThreads : Nat → Execution classPath
  | 0 => .run callRun insideCall .nil
  | 1 => .run { callRun with normal := false } .nil .nil
  | _ => .nil

def shopActs (t : Nat) : List Act :=
  ((shopThreads t).calls advisedInShop []).acts enterCall (fun _ => "on") (fun _ => "off")

/-- Thread 1 counts its entry call inside that of thread 0, and opens the flag during its roll. -/
def shopSteps : List ReportAction :=
  List.flatten [[.advance 0, .advance 0], Reporting.post 0,
    [.advance 0, .advance 0, .advance 0, .advance 1, .advance 0, .advance 0, .advance 0],
    Reporting.post 0, [.advance 0, .advance 0, .advance 1], Reporting.post 1, Reporting.post 0,
    Reporting.post 0, Reporting.post 0, Reporting.post 0, Reporting.post 0, [.advance 0]]

theorem shopSteps_possible :
    (Trace.execute (Reporting.step threadName) (.initial shopActs) shopSteps).isSome = true := by
  decide +kernel

def afterShop : Reporting :=
  (Trace.execute (Reporting.step threadName) (.initial shopActs) shopSteps).get shopSteps_possible

theorem afterShop_runs : Trace.Runs (Reporting.step threadName) (fun _ a => ∀ t, a ≠ .fail t)
    (.initial shopActs) afterShop :=
  Reporting.runs_of_lossless (Option.some_get shopSteps_possible).symm
    (fun t => by simp [shopSteps, Reporting.post])

/-- The console lists the request of thread 0 and what ran inside it. -/
theorem afterShop_console : (samplesIn (afterShop.rolls.flatMap (printedFor "main"))).Perm
    [(helpRun.identifier, helpRun.cost), (callRun.identifier, callRun.cost)] := by
  have hserves : (shopThreads 0).Serves enterCall
      (Timed weaveAll flags walkFromCall.methods [mainClass, helperClass]) :=
    ⟨Or.inl ⟨⟨weavable_callRun, by decide⟩, by decide, rfl⟩, trivial⟩
  obtain ⟨-, seen, later, hseen, -, -, hlisted, -, hend⟩ :=
    console_of_program walk_call (by decide) enterCall shopThreads (fun _ => []) _ _
      afterShop_runs (by rintro (_ | _ | t) <;> rfl) hserves
      (by rintro (_ | u) hu <;> simp [threadName] at hu ⊢)
  obtain ⟨rfl, hpending⟩ := hend (by decide +kernel)
  rw [List.append_nil] at hseen
  rw [hpending, List.append_nil, ← hseen] at hlisted
  exact hlisted.trans (List.Perm.of_eq (by decide +kernel))

end ShopRun

end Jma
