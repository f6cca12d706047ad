import Jma.Advice.EntryReport
import Jma.Attach.Weaving
import Jma.Core.CallStack

set_option autoImplicit false

/-! # From the program to the report

A thread of the target runs methods of all kinds; only the activations of woven ones are calls that
the advice sees, and of the others it sees the frames in the stack trace. `report_of_execution` says
what the report of an entry call shows of everything that runs inside it, and `report_complete` when
it shows all of it. -/

namespace Jma

open MethodHierarchyUtil TimeCostTransformer

/-- One activation of a method that a class on the class path declares. -/
structure Activation (U : ClassUniverse) where
  loadedClass : LoadedClass
  classFile : ClassFile
  method : MethodDecl
  start : Int
  «end» : Int
  currentTimeMillis : String → Int
  normal : Bool
  name_eq : loadedClass.name = classFile.getName
  classFile_mem : classFile ∈ U.classes
  method_mem : method ∈ classFile.methods

/-- What a thread runs: the first activation, what it runs inside it, and what it runs after it. -/
inductive Execution (U : ClassUniverse) where
  | nil
  | run (a : Activation U) (nested next : Execution U)

variable {U : ClassUniverse}

namespace Activation

def identifier (a : Activation U) : MethodIdentifier :=
  ⟨a.loadedClass.name, a.method.name, a.method.descriptor⟩

def frame (a : Activation U) : StackTraceElement := ⟨a.loadedClass.name, a.method.name⟩

def cost (a : Activation U) : CostPair := ⟨a.start, a.end⟩

end Activation

/-- The frames above the method when the inlined advice asks for the stack trace. -/
def agentFrames : List StackTraceElement :=
  [⟨"java.lang.Thread", "getStackTrace"⟩, ⟨"cn.dyq.agent.advice.AdviceUtil", "getCallStack"⟩,
    ⟨"cn.dyq.agent.advice.AdviceUtil", "record"⟩]

/-- An activation of a woven method, with the frames of its callers, innermost first. -/
def Activation.invocation (a : Activation U) (callers : List StackTraceElement) : Invocation :=
  ⟨a.identifier, agentFrames ++ a.frame :: callers, a.start, a.end, a.currentTimeMillis, a.normal⟩

/-- The calls of the second sequence after those of the first. -/
def Calls.append : Calls → Calls → Calls
  | .nil, calls => calls
  | .call inv nested next, calls => .call inv nested (next.append calls)

namespace Execution

/-- The calls that the advice sees. -/
def calls (advised : Activation U → Bool) (callers : List StackTraceElement) :
    Execution U → Calls
  | nil => .nil
  | run a nested next =>
      let inside := nested.calls advised (a.frame :: callers)
      if advised a then .call (a.invocation callers) inside (next.calls advised callers)
      else inside.append (next.calls advised callers)

/-- The activations that end normally, in the order in which they end, with their callers. -/
def ended (callers : List StackTraceElement) :
    Execution U → List (Activation U × List StackTraceElement)
  | nil => []
  | run a nested next =>
      nested.ended (a.frame :: callers) ++ (if a.normal then [(a, callers)] else []) ++
        next.ended callers

end Execution

/-- The frames from the innermost frame of the entry down to the activation. -/
def Activation.path (cfg : GlobalConfig) (a : Activation U) (callers : List StackTraceElement) :
    List StackTraceElement :=
  (Slice.upTo cfg.isEnterFrame (a.frame :: callers)).reverse

/-! ## What the advice sees -/

theorem Calls.samples_append (cfg : GlobalConfig) (c c' : Calls) :
    (c.append c').samples cfg = c.samples cfg ++ c'.samples cfg := by
  induction c with
  | nil => rfl
  | call inv nested next _ ih => simp only [append, samples, ih, List.append_assoc]

theorem Calls.hasRoll_append (cfg : GlobalConfig) (c c' : Calls) :
    (c.append c').hasRoll cfg = (c.hasRoll cfg || c'.hasRoll cfg) := by
  induction c with
  | nil => rfl
  | call inv nested next _ ih => simp only [append, hasRoll, ih, Bool.or_assoc]

section

variable (cfg : GlobalConfig) (advised : Activation U → Bool)

/-- The samples are those of the advised activations that end normally. -/
theorem samples_calls (e : Execution U) (callers : List StackTraceElement) :
    (e.calls advised callers).samples cfg = ((e.ended callers).filter (fun x => advised x.1)).map
      (fun x => (x.1.invocation x.2).sample cfg) := by
  induction e generalizing callers with
  | nil => rfl
  | run a nested next ihn ihx =>
      rw [Execution.ended, List.filter_append, List.filter_append, List.map_append, List.map_append,
        ← ihn, ← ihx, Execution.calls]
      by_cases hadvised : advised a = true
      · rw [if_pos hadvised, Calls.samples]
        cases hnormal : a.normal <;> simp [Activation.invocation, hnormal, hadvised]
      · rw [if_neg hadvised, Calls.samples_append]
        cases hnormal : a.normal <;> simp [hadvised]

/-- A roll inside is the normal end of an advised entry. -/
theorem hasRoll_calls (e : Execution U) (callers : List StackTraceElement) :
    (e.calls advised callers).hasRoll cfg
      = (e.ended callers).any (fun x => advised x.1 && cfg.isEnterFrame x.1.frame) := by
  induction e generalizing callers with
  | nil => rfl
  | run a nested next ihn ihx =>
      rw [Execution.ended, List.any_append, List.any_append, ← ihn, ← ihx, Execution.calls]
      have henter : (a.invocation callers).isEnter cfg = cfg.isEnterFrame a.frame := rfl
      by_cases hadvised : advised a = true
      · rw [if_pos hadvised, Calls.hasRoll, henter]
        cases hnormal : a.normal <;>
          simp [Activation.invocation, hnormal, hadvised, Bool.or_comm]
      · rw [if_neg hadvised, Calls.hasRoll_append]
        cases hnormal : a.normal <;> simp [hadvised]

end

/-! ## What is advised -/

section

variable (weave : Weave) (flags : ClassFile → MethodDecl → AccessFlags)
  (methods : List CMethodInfo) (allLoadedClassed : List LoadedClass)

/-- The activation runs the advice: its class runs what Byte Buddy has made of it, and the matcher
    picks the method. -/
def advised (a : Activation U) : Bool :=
  !a.method.isInit &&
    match matcherOn methods allLoadedClassed a.loadedClass with
    | some p => (weave a.loadedClass p).isSome && p (.of flags a.classFile a.method)
    | none => false

/-- The activation is of a loaded class that Byte Buddy weaves and `transform` does not leave out,
    and its method is neither an initialiser nor native. -/
structure Weavable (a : Activation U) : Prop where
  loaded : a.loadedClass ∈ allLoadedClassed
  isInit : a.method.isInit = false
  isNative : (flags a.classFile a.method).isNative = false
  skips : skips a.classFile.name = false
  woven : ∃ p bytes, matcherOn methods allLoadedClassed a.loadedClass = some p ∧
    weave a.loadedClass p = some bytes

/-- What it takes for an activation to be timed. -/
structure Timed (a : Activation U) : Prop extends
    Weavable weave flags methods allLoadedClassed a where
  listed : .of a.classFile.name a.method ∈ methods

end

section

variable {weave : Weave} {flags : ClassFile → MethodDecl → AccessFlags}
  {allLoadedClassed : List LoadedClass} {fold : Char → Char} {root name : String} {w : Walk}

theorem advised_iff_timed (hfin : Finished U fold root name w) (a : Activation U) :
    advised weave flags w.methods allLoadedClassed a = true ↔
      Timed weave flags w.methods allLoadedClassed a := by
  have hlisted := fun hinit =>
    hfin.mem_methods_iff_class (U := U) a.classFile_mem a.method_mem hinit
  have htarget : a.method.isInit = false →
      (MethodDescription.of flags a.classFile a.method).name = a.method.name := by
    intro hinit
    rw [MethodDescription.of, hinit, if_neg Bool.false_ne_true]
  rw [advised, Bool.and_eq_true, Bool.not_eq_true']
  constructor
  · rintro ⟨hinit, hmatch⟩
    cases hp : matcherOn w.methods allLoadedClassed a.loadedClass with
    | none =>
        rw [hp] at hmatch
        cases hmatch
    | some p =>
        simp only [hp, Bool.and_eq_true] at hmatch
        obtain ⟨hweave, hpick⟩ := hmatch
        obtain ⟨bytes, hbytes⟩ := Option.isSome_iff_exists.1 hweave
        have hloaded : a.loadedClass ∈ allLoadedClassed := by
          by_contra hnot
          have hset : a.loadedClass ∉ finalClassSet w.methods allLoadedClassed :=
            fun hmem => hnot (mem_finalClassSet.1 hmem).1
          rw [matcherOn, if_neg hset] at hp
          cases hp
        obtain ⟨hskip, hnative, e, he, hclass, -⟩ :=
          (accepted_iff hloaded a.name_eq _).1 ⟨p, hp, hpick⟩
        exact ⟨⟨hloaded, hinit, hnative, hskip, p, bytes, hp, hbytes⟩,
          (hlisted hinit).2 ⟨e, he, hclass⟩⟩
  · rintro ⟨⟨hloaded, hinit, hnative, hskip, p, bytes, hp, hbytes⟩, hmem⟩
    refine ⟨hinit, ?_⟩
    obtain ⟨p', hp', hpick⟩ := (accepted_iff hloaded a.name_eq (.of flags a.classFile a.method)).2
      ⟨hskip, hnative, _, hmem, rfl, (htarget hinit).symm⟩
    rw [hp] at hp'
    cases hp'
    simp only [hp, hbytes, hpick, Option.isSome_some, Bool.and_self]

/-- The advice of a timed method is never deceived by the frames of the agent. -/
theorem Timed.agentFrames_ne {a : Activation U}
    (h : Timed weave flags w.methods allLoadedClassed a)
    (hagent : ∀ e ∈ w.methods, e.cClassName ≠ "cn/dyq/agent/advice/AdviceUtil") :
    ∀ f ∈ agentFrames, f.className ≠ a.loadedClass.name := by
  have hclass : replaceAll a.loadedClass.name '.' '/' = a.classFile.name := className_eq a.name_eq
  have hthread : "java.lang.Thread" ≠ a.loadedClass.name := by
    intro heq
    rw [← heq] at hclass
    have hskip := h.skips
    rw [← hclass] at hskip
    exact absurd hskip (by decide)
  have hutil : "cn.dyq.agent.advice.AdviceUtil" ≠ a.loadedClass.name := by
    intro heq
    rw [← heq] at hclass
    exact hagent _ h.listed (hclass.symm.trans (by decide))
  intro f hf
  simp only [agentFrames, List.mem_cons, List.mem_nil_iff, or_false] at hf
  rcases hf with rfl | rfl | rfl
  · exact hthread
  · exact hutil
  · exact hutil

end

theorem callTree_invocation {cfg : GlobalConfig} {a b : Activation U}
    (callers : List StackTraceElement)
    (ha : ∀ f ∈ agentFrames, f.className ≠ a.loadedClass.name)
    (hb : ∀ f ∈ agentFrames, f.className ≠ b.loadedClass.name)
    (henter : cfg.isEnterFrame a.frame = true) :
    ((b.invocation callers).sample cfg).callTree = b.path cfg callers := by
  have hclass : cfg.enterClassName = some a.loadedClass.name := by
    simp only [GlobalConfig.isEnterFrame, GlobalConfig.isEnter, Bool.and_eq_true, beq_iff_eq]
      at henter
    exact henter.2
  show AdviceUtil.getCallStack cfg _ (agentFrames ++ b.frame :: callers) = _
  rw [AdviceUtil.getCallStack_eq, Slice.between_append_of_neither, Slice.between_cons_of_start]
  · rfl
  · simp [Executable.isFrame, Activation.frame, Activation.identifier, Activation.invocation,
      Executable.declaringClass, Executable.frameName]
  · intro f hf
    refine ⟨?_, ?_⟩
    · rw [Executable.isFrame, Bool.and_eq_false_iff]
      exact Or.inl (beq_eq_false_iff_ne.2 (hb f hf))
    · rw [GlobalConfig.isEnterFrame, GlobalConfig.isEnter, hclass, Bool.and_eq_false_iff]
      exact Or.inr (beq_eq_false_iff_ne.2 (fun heq => ha f hf (Option.some.inj heq).symm))

/-- Whatever runs inside an activation has its frame among those of its callers. -/
theorem mem_callers_of_ended {f : StackTraceElement} {e : Execution U}
    {callers : List StackTraceElement} (hf : f ∈ callers) :
    ∀ x ∈ e.ended callers, f ∈ x.2 := by
  induction e generalizing callers with
  | nil => exact fun x hx => absurd hx List.not_mem_nil
  | run a nested next ihn ihx =>
      intro x hx
      rw [Execution.ended, List.mem_append, List.mem_append] at hx
      rcases hx with (hx | hx) | hx
      · exact ihn (List.mem_cons_of_mem _ hf) x hx
      · split at hx
        · rw [List.mem_singleton.1 hx]
          exact hf
        · cases hx
      · exact ihx hf x hx

/-! ## The report -/

/-- The activations that end normally in the entry call `a`, with `nested` inside it. -/
def endedIn (callers : List StackTraceElement) (nested : Execution U) (a : Activation U) :
    List (Activation U × List StackTraceElement) :=
  (Execution.run a nested .nil).ended callers

theorem frame_mem_of_endedIn {callers : List StackTraceElement} {nested : Execution U}
    {a : Activation U} {x : Activation U × List StackTraceElement}
    (hx : x ∈ endedIn callers nested a) : a.frame ∈ x.1.frame :: x.2 := by
  rw [endedIn, Execution.ended, Execution.ended, List.append_nil, List.mem_append] at hx
  rcases hx with hx | hx
  · exact List.mem_cons_of_mem _ (mem_callers_of_ended (List.mem_cons_self ..) x hx)
  · split at hx
    · rw [List.mem_singleton.1 hx]
      exact List.mem_cons_self ..
    · cases hx

section

variable (cfg : GlobalConfig) (t : String) {before : List Operation} {a : Activation U}
  (callers : List StackTraceElement) (nested : Execution U)

/-- The rows of the report of the entry call `a`, with `nested` inside it. -/
def rowsOf (advised : Activation U → Bool) (before : List Operation) (a : Activation U) :
    List TimeCostRecord :=
  report cfg t before (a.invocation callers) (nested.calls advised (a.frame :: callers))

variable {cfg callers nested}

/-- The rows are the advised activations that end normally, grouped. -/
theorem rowsOf_eq {advised : Activation U → Bool} (hopen : ∀ o ∈ before, o ≠ .canRecord false)
    (hpending : NothingPending before) (henter : cfg.isEnterFrame a.frame = true)
    (hnormal : a.normal = true) (hadvised : advised a = true)
    (hone : ∀ x ∈ nested.ended (a.frame :: callers), advised x.1 = true →
      cfg.isEnterFrame x.1.frame = false) :
    rowsOf cfg t callers nested advised before a
      = groupByMethod (((endedIn callers nested a).filter (fun x => advised x.1)).map
          (fun x => (x.1.invocation x.2).sample cfg)) := by
  have hroll : (nested.calls advised (a.frame :: callers)).hasRoll cfg = false := by
    rw [hasRoll_calls, List.any_eq_false]
    intro x hx
    cases hadv : advised x.1 with
    | false => simp
    | true => simp [hone x hx hadv]
  obtain ⟨-, hkeep, -⟩ := run_calls cfg t (nested.calls advised (a.frame :: callers))
    { logOf t (eventsOf t before) with recording := true } rfl
  have hnil := (current_eq_nil_iff_nothingPending t hopen).2 hpending
  have hinv : (a.invocation callers).isEnter cfg = true := henter
  rw [rowsOf, report_eq cfg t hinv hnormal, hkeep hroll, hnil, List.nil_append, samples_calls,
    endedIn, Execution.ended, Execution.ended, if_pos hnormal, List.append_nil,
    List.filter_append, List.map_append]
  simp [hadvised]

end

section

variable {weave : Weave} {flags : ClassFile → MethodDecl → AccessFlags}
  {allLoadedClassed : List LoadedClass} {fold : Char → Char} {root name : String} {w : Walk}

/-- **What a report shows of a program.** An entry call runs with whatever inside it, nothing is
    pending when it begins, and no timed entry call ends normally inside it. Then its report has no
    two rows of one method, and a row of a method exactly when an activation of it that ends
    normally is timed. A row lists the times of these activations in the order in which they end,
    and the frames from the entry down to the first of them. -/
theorem report_of_execution (h : walk U fold root name = .ok w)
    (hagent : ∀ e ∈ w.methods, e.cClassName ≠ "cn/dyq/agent/advice/AdviceUtil")
    (cfg : GlobalConfig) (t : String) (before : List Operation) (a : Activation U)
    (callers : List StackTraceElement) (nested : Execution U)
    (hopen : ∀ o ∈ before, o ≠ .canRecord false) (hpending : NothingPending before)
    (henter : cfg.isEnterFrame a.frame = true) (hnormal : a.normal = true)
    (htimed : Timed weave flags w.methods allLoadedClassed a)
    (hone : ∀ x ∈ nested.ended (a.frame :: callers),
      Timed weave flags w.methods allLoadedClassed x.1 → cfg.isEnterFrame x.1.frame = false) :
    let advised := advised weave flags w.methods allLoadedClassed
    let rows := rowsOf cfg t callers nested advised before a
    (rows.map TimeCostRecord.method).Nodup ∧
      (∀ k, (∃ r ∈ rows, r.method = k) ↔ ∃ x ∈ endedIn callers nested a, x.1.identifier = k ∧
        Timed weave flags w.methods allLoadedClassed x.1) ∧
      ∀ r ∈ rows, ∃ first rest,
        (endedIn callers nested a).filter
            (fun x => advised x.1 && decide (x.1.identifier = r.method)) = first :: rest ∧
          r.costs = (first :: rest).map (fun x => x.1.cost) ∧ r.count = (first :: rest).length ∧
          r.callTree = first.1.path cfg first.2 ∧ r.callTree.getLast? = some first.1.frame ∧
          ∃ f, r.callTree.head? = some f ∧ cfg.isEnterFrame f = true := by
  have hiff : ∀ b : Activation U, advised weave flags w.methods allLoadedClassed b = true ↔
      Timed weave flags w.methods allLoadedClassed b :=
    fun b => advised_iff_timed (walk_finished h) b
  intro advised rows
  have hrows : rows = groupByMethod (((endedIn callers nested a).filter
      (fun x => advised x.1)).map (fun x => (x.1.invocation x.2).sample cfg)) :=
    rowsOf_eq t hopen hpending henter hnormal ((hiff a).2 htimed)
      (fun x hx hadv => hone x hx ((hiff x.1).1 hadv))
  rw [hrows]
  refine ⟨nodup_groupByMethod _, fun k => ?_, fun r hr => ?_⟩
  · rw [exists_record_iff]
    constructor
    · rintro ⟨_, hs, hk⟩
      obtain ⟨x, hx, rfl⟩ := List.mem_map.1 hs
      obtain ⟨hmem, hadv⟩ := List.mem_filter.1 hx
      exact ⟨x, hmem, hk, (hiff x.1).1 hadv⟩
    · rintro ⟨x, hmem, hk, hx⟩
      exact ⟨_, List.mem_map.2 ⟨x, List.mem_filter.2 ⟨hmem, (hiff x.1).2 hx⟩, rfl⟩, hk⟩
  · have hown : (((endedIn callers nested a).filter (fun x => advised x.1)).map
        (fun x => (x.1.invocation x.2).sample cfg)).filter (fun s => s.method = r.method)
          = ((endedIn callers nested a).filter
              (fun x => advised x.1 && decide (x.1.identifier = r.method))).map
                (fun x => (x.1.invocation x.2).sample cfg) := by
      rw [List.filter_map, List.filter_filter]
      refine congrArg _ (List.filter_congr (fun x _ => ?_))
      exact Bool.and_comm ..
    have hcosts := costs_of_mem_groupByMethod hr
    have htree := callTree_of_mem_groupByMethod hr
    obtain ⟨hpos, hcount⟩ := count_groupByMethod hr
    rw [hown, List.map_map] at hcosts
    rw [hown] at htree
    cases hlist : (endedIn callers nested a).filter
        (fun x => advised x.1 && decide (x.1.identifier = r.method)) with
    | nil =>
        rw [hcount, hcosts, hlist] at hpos
        exact absurd hpos (Nat.not_succ_le_zero 0)
    | cons first rest =>
        rw [hlist] at hcosts htree
        obtain ⟨hmem, hfirst⟩ := List.mem_filter.1 (hlist ▸ List.mem_cons_self (a := first))
        have hadv := (hiff first.1).1 (Bool.and_eq_true_iff.1 hfirst).1
        have hpath : r.callTree = first.1.path cfg first.2 :=
          htree.trans (callTree_invocation first.2 (htimed.agentFrames_ne hagent)
            (hadv.agentFrames_ne hagent) henter)
        refine ⟨first, rest, rfl, hcosts, ?_, hpath, ?_, ?_⟩
        · rw [hcount, hcosts, List.length_map]
        · rw [hpath, Activation.path, List.getLast?_reverse, Slice.head?_upTo_cons]
        · rw [hpath, Activation.path, List.head?_reverse]
          exact Slice.exists_getLast?_upTo ⟨a.frame, frame_mem_of_endedIn hmem, henter⟩

end

/-! ## Code that is bound statically -/

/-- Whatever runs directly inside an activation is what an instruction of its method resolves to. -/
def Execution.Follows (caller : MethodDecl) : Execution U → Prop
  | nil => True
  | run a nested next =>
      (∃ insn ∈ caller.body, ∃ o, U.find? insn.owner = some o ∧
        U.Resolves insn.name insn.descriptor o a.classFile a.method) ∧
        nested.Follows a.method ∧ next.Follows caller

theorem reachable_of_follows {root name : String} {d : ClassFile} {m : MethodDecl}
    (hreach : U.Reachable root name d m) {e : Execution U} (he : e.Follows m)
    {callers : List StackTraceElement} :
    ∀ x ∈ e.ended callers, U.Reachable root name x.1.classFile x.1.method := by
  induction e generalizing d m callers with
  | nil => exact fun x hx => absurd hx List.not_mem_nil
  | run a nested next ihn ihx =>
      obtain ⟨⟨insn, hinsn, o, ho, hres⟩, hnested, hnext⟩ := he
      have ha := hreach.call hinsn ho hres
      intro x hx
      rw [Execution.ended, List.mem_append, List.mem_append] at hx
      rcases hx with (hx | hx) | hx
      · exact ihn ha hnested x hx
      · split at hx
        · rw [List.mem_singleton.1 hx]
          exact ha
        · cases hx
      · exact ihx hreach hnext x hx

/-- **When a report shows everything.** The walk has found every method that a chain of calls
    reaches, and all that runs inside the entry call is bound statically. Then every activation that
    can be woven and ends normally is in the report, with its time. -/
theorem report_complete {weave : Weave} {flags : ClassFile → MethodDecl → AccessFlags}
    {allLoadedClassed : List LoadedClass} {fold : Char → Char} {root name : String} {w : Walk}
    (h : walk U fold root name = .ok w) (hcomplete : Complete U root name w.methods)
    (cfg : GlobalConfig) (t : String) (before : List Operation) (a : Activation U)
    (callers : List StackTraceElement) (nested : Execution U)
    (hopen : ∀ o ∈ before, o ≠ .canRecord false) (hpending : NothingPending before)
    (hroot : U.classReader root = .ok a.classFile) (hname : a.method.name = name)
    (hfollows : nested.Follows a.method) (henter : cfg.isEnterFrame a.frame = true)
    (hnormal : a.normal = true) (hweavable : Weavable weave flags w.methods allLoadedClassed a)
    (hone : ∀ x ∈ nested.ended (a.frame :: callers), cfg.isEnterFrame x.1.frame = false) :
    ∀ x ∈ endedIn callers nested a, Weavable weave flags w.methods allLoadedClassed x.1 →
      ∃ r ∈ rowsOf cfg t callers nested (advised weave flags w.methods allLoadedClassed) before a,
        r.method = x.1.identifier ∧ x.1.cost ∈ r.costs := by
  have hreach : U.Reachable root name a.classFile a.method := .root hroot a.method_mem hname
  have hadvised : ∀ b : Activation U, U.Reachable root name b.classFile b.method →
      Weavable weave flags w.methods allLoadedClassed b →
        advised weave flags w.methods allLoadedClassed b = true := fun b hb hw =>
    (advised_iff_timed (walk_finished h) b).2 ⟨hw, hcomplete _ _ hb⟩
  intro x hx hxw
  have hxreach : U.Reachable root name x.1.classFile x.1.method := by
    rw [endedIn, Execution.ended, Execution.ended, if_pos hnormal, List.append_nil,
      List.mem_append] at hx
    rcases hx with hx | hx
    · exact reachable_of_follows hreach hfollows x hx
    · rw [List.mem_singleton.1 hx]
      exact hreach
  rw [rowsOf_eq t hopen hpending henter hnormal (hadvised a hreach hweavable)
    (fun y hy _ => hone y hy)]
  have hmem : (x.1.invocation x.2).sample cfg ∈ ((endedIn callers nested a).filter
      (fun x => advised weave flags w.methods allLoadedClassed x.1)).map
        (fun x => (x.1.invocation x.2).sample cfg) :=
    List.mem_map.2 ⟨x, List.mem_filter.2 ⟨hx, hadvised x.1 hxreach hxw⟩, rfl⟩
  obtain ⟨r, hr, hmethod⟩ := exists_record_of_mem hmem
  refine ⟨r, hr, hmethod, ?_⟩
  rw [costs_of_mem_groupByMethod hr]
  exact List.mem_map.2 ⟨_, List.mem_filter.2 ⟨hmem, decide_eq_true hmethod.symm⟩, rfl⟩

/-! ### A shop -/

namespace ShopRun

open JavalibDemo

/-- Byte Buddy succeeds on every class. -/
def weaveAll : Weave := fun _ _ => some []

/-- The entry is `shop.Main#call`. -/
def enterCall : GlobalConfig :=
  GlobalConfig.initial.setEnterClazzName "shop/Main" |>.setEnterMethod (some "call")

theorem internal_helper : '.' ∉ "shop/Helper".toList := by decide

def callRun : Activation classPath where
  loadedClass := mainClass
  classFile := main
  method := ⟨"call", "()V", [⟨"shop/Helper", "help", "()V", internal_helper⟩]⟩
  start := 0
  «end» := 9
  currentTimeMillis := fun _ => 9
  normal := true
  name_eq := by decide
  classFile_mem := by decide
  method_mem := by decide

def helpRun : Activation classPath where
  loadedClass := helperClass
  classFile := helper
  method := ⟨"help", "()V", []⟩
  start := 2
  «end» := 5
  currentTimeMillis := fun _ => 5
  normal := true
  name_eq := by decide
  classFile_mem := by decide
  method_mem := by decide

/-- What runs inside `callRun`. -/
def insideCall : Execution classPath := .run helpRun .nil .nil

theorem walk_call : walk classPath Char.toLower "shop/Main" "call" = .ok walkFromCall := by
  decide

theorem weavable {a : Activation classPath} (hloaded : a.loadedClass ∈ [mainClass, helperClass])
    (hinit : a.method.isInit = false) (hskips : skips a.classFile.name = false)
    (hmatcher : (matcherOn walkFromCall.methods [mainClass, helperClass] a.loadedClass).isSome) :
    Weavable weaveAll flags walkFromCall.methods [mainClass, helperClass] a := by
  obtain ⟨p, hp⟩ := Option.isSome_iff_exists.1 hmatcher
  exact ⟨hloaded, hinit, rfl, hskips, p, [], hp, rfl⟩

theorem weavable_callRun :
    Weavable weaveAll flags walkFromCall.methods [mainClass, helperClass] callRun :=
  weavable (by decide) (by decide) (by decide) (by decide)

theorem weavable_helpRun :
    Weavable weaveAll flags walkFromCall.methods [mainClass, helperClass] helpRun :=
  weavable (by decide) (by decide) (by decide) (by decide)

/-- From `call` only `help` is reachable. -/
theorem complete_from_call : Complete classPath "shop/Main" "call" walkFromCall.methods := by
  have hreach : ∀ d m, classPath.Reachable "shop/Main" "call" d m →
      (d = main ∧ m = callRun.method) ∨ (d = helper ∧ m = helpRun.method) := by
    intro d m h
    induction h with
    | root hc hm hname =>
        rw [show classPath.classReader "shop/Main" = .ok main by decide, Except.ok.injEq] at hc
        subst hc
        simp only [main, List.mem_cons, List.not_mem_nil, or_false] at hm
        rcases hm with rfl | rfl
        · exact absurd hname (by decide)
        · exact Or.inl ⟨rfl, rfl⟩
    | call _ hinsn ho hres ih =>
        rcases ih with ⟨rfl, rfl⟩ | ⟨rfl, rfl⟩
        · obtain rfl := List.mem_singleton.1 hinsn
          rw [show classPath.find? "shop/Helper" = some helper by decide, Option.some.injEq] at ho
          subst ho
          cases hres with
          | here hm _ _ => exact Or.inr ⟨rfl, List.mem_singleton.1 hm⟩
          | super hnot _ _ _ => exact absurd ⟨rfl, rfl⟩ (hnot helpRun.method (by decide))
        · exact absurd hinsn List.not_mem_nil
  intro d m h
  rcases hreach d m h with ⟨rfl, rfl⟩ | ⟨rfl, rfl⟩
  · decide
  · decide

theorem insideCall_no_enter :
    ∀ x ∈ insideCall.ended [callRun.frame], enterCall.isEnterFrame x.1.frame = false := by
  decide

/-- The report of `call` has a row for `help`. -/
theorem help_has_row : ∃ r ∈ rowsOf enterCall "main" [] insideCall
    (advised weaveAll flags walkFromCall.methods [mainClass, helperClass]) [] callRun,
      r.method = helpRun.identifier := by
  obtain ⟨-, hrow, -⟩ := report_of_execution walk_call (by decide) enterCall "main" [] callRun []
    insideCall (by simp) (fun p _ q hsplit _ => absurd hsplit (by simp)) (by decide) rfl
    ⟨weavable_callRun, by decide⟩ (fun x hx _ => insideCall_no_enter x hx)
  exact (hrow _).2 ⟨(helpRun, [callRun.frame]), List.mem_cons_self .., rfl,
    weavable_helpRun, by decide⟩

theorem call_report_complete : ∃ r ∈ rowsOf enterCall "main" [] insideCall
    (advised weaveAll flags walkFromCall.methods [mainClass, helperClass]) [] callRun,
      r.method = helpRun.identifier ∧ helpRun.cost ∈ r.costs := by
  have hfollows : insideCall.Follows callRun.method :=
    ⟨⟨_, List.mem_singleton_self _, helper, by decide, .here (by decide) rfl rfl⟩, trivial, trivial⟩
  exact report_complete walk_call complete_from_call enterCall "main" [] callRun [] insideCall
    (by simp) (fun p _ q hsplit _ => absurd hsplit (by simp)) (by decide) rfl hfollows (by decide)
    rfl weavable_callRun insideCall_no_enter (helpRun, [callRun.frame]) (List.mem_cons_self ..)
    weavable_helpRun

end ShopRun

end Jma
