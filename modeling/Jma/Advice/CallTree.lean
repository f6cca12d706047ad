import Jma.Core.Store

set_option autoImplicit false

/-! # What a thread does to the manager

A thread runs instrumented calls, well nested. `Calls` is such a sequence as a first-child,
next-sibling tree, with the times and the stack trace each call is sampled with. The two advices of
`MethodTimeCostAdvice` turn it into a sequence of manager operations. -/

namespace Jma

/-- One call of an instrumented method. -/
structure Invocation where
  method : MethodIdentifier
  /-- `Thread.currentThread().getStackTrace()` in the exit advice. -/
  stackTrace : List StackTraceElement
  /-- The clock readings at the end of `onEnter` and at the start of `onExit`. -/
  start : Int
  «end» : Int
  /-- The clock readings of the roll, should the call make one. -/
  currentTimeMillis : String → Int
  /-- Whether the call ends normally; `onExit` is declared without `onThrowable`. -/
  normal : Bool

namespace Invocation

/-- The test of both advices. -/
def isEnter (cfg : GlobalConfig) (inv : Invocation) : Bool :=
  cfg.isEnter inv.method.className inv.method.methodName

def sample (cfg : GlobalConfig) (inv : Invocation) : Sample :=
  AdviceUtil.sample cfg (.method inv.method.className inv.method.methodName inv.method.descriptor)
    inv.stackTrace inv.start inv.end

end Invocation

namespace MethodTimeCostAdvice

/-- `onEnter`: the entry switches recording on. -/
def onEnter (cfg : GlobalConfig) (inv : Invocation) : List Operation :=
  if inv.isEnter cfg then [.canRecord true] else []

/-- `onExit`: the call is recorded, and the entry rolls. -/
def onExit (cfg : GlobalConfig) (inv : Invocation) : List Operation :=
  .mergeRecord (inv.sample cfg) ::
    if inv.isEnter cfg then [.printAndRolling inv.currentTimeMillis] else []

end MethodTimeCostAdvice

open MethodTimeCostAdvice

/-- A sequence of calls: the first call, the calls nested in it, and the calls after it. -/
inductive Calls where
  | nil
  | call (inv : Invocation) (nested next : Calls)

namespace Calls

/-- The operations of a sequence of calls, in the order in which the thread executes them. -/
def operations (cfg : GlobalConfig) : Calls → List Operation
  | nil => []
  | call inv nested next =>
      onEnter cfg inv ++ nested.operations cfg ++ (if inv.normal then onExit cfg inv else []) ++
        next.operations cfg

/-- The samples of the calls that end normally, in the order in which they end. -/
def samples (cfg : GlobalConfig) : Calls → List Sample
  | nil => []
  | call inv nested next =>
      nested.samples cfg ++ (if inv.normal then [inv.sample cfg] else []) ++ next.samples cfg

/-- Whether an entry call occurs in the sequence. -/
def hasEnter (cfg : GlobalConfig) : Calls → Bool
  | nil => false
  | call inv nested next => inv.isEnter cfg || nested.hasEnter cfg || next.hasEnter cfg

/-- Whether an entry call ends normally in the sequence. -/
def hasRoll (cfg : GlobalConfig) : Calls → Bool
  | nil => false
  | call inv nested next =>
      (inv.isEnter cfg && inv.normal) || nested.hasRoll cfg || next.hasRoll cfg

/-- `calls.OutermostEnter cfg before inv nested`: `inv`, with `nested` inside it, is an entry call
    of `calls` that is not inside another entry call, and `before` are the operations that the
    thread executes before it. -/
inductive OutermostEnter (cfg : GlobalConfig) :
    Calls → List Operation → Invocation → Calls → Prop
  | here {inv : Invocation} {nested next : Calls} (henter : inv.isEnter cfg = true) :
      OutermostEnter cfg (call inv nested next) [] inv nested
  | inside {outer inv : Invocation} {calls nested next : Calls} {before : List Operation}
      (houter : outer.isEnter cfg = false) (h : OutermostEnter cfg calls before inv nested) :
      OutermostEnter cfg (call outer calls next) (onEnter cfg outer ++ before) inv nested
  | later {first inv : Invocation} {inner calls nested : Calls} {before : List Operation}
      (h : OutermostEnter cfg calls before inv nested) :
      OutermostEnter cfg (call first inner calls)
        ((call first inner nil).operations cfg ++ before) inv nested

/-- The advice never switches recording off. -/
theorem operations_ne_canRecord_false (cfg : GlobalConfig) (calls : Calls) :
    ∀ o ∈ calls.operations cfg, o ≠ .canRecord false := by
  induction calls with
  | nil => simp [operations]
  | call inv nested next ihn ihx =>
      intro o ho he
      subst he
      simp only [operations, List.mem_append] at ho
      rcases ho with ((ho | ho) | ho) | ho
      · simp only [onEnter] at ho
        split at ho <;> simp at ho
      · exact ihn _ ho rfl
      · simp only [onExit] at ho
        split at ho
        · split at ho <;> simp at ho
        · simp at ho
      · exact ihx _ ho rfl

theorem OutermostEnter.isEnter {cfg : GlobalConfig} {calls nested : Calls}
    {before : List Operation} {inv : Invocation} (h : OutermostEnter cfg calls before inv nested) :
    inv.isEnter cfg = true := by
  induction h with
  | here henter => exact henter
  | inside _ _ ih => exact ih
  | later _ ih => exact ih

/-- The operations before an entry call are operations of the sequence, so recording stays on. -/
theorem OutermostEnter.before_ne {cfg : GlobalConfig} {calls nested : Calls}
    {before : List Operation} {inv : Invocation} (h : OutermostEnter cfg calls before inv nested) :
    ∀ o ∈ before, o ≠ .canRecord false := by
  induction h with
  | here _ => simp
  | @inside outer _ _ _ _ _ houter _ ih =>
      intro o ho
      rw [onEnter, if_neg (by simp [houter]), List.nil_append] at ho
      exact ih o ho
  | later _ ih =>
      intro o ho
      rcases List.mem_append.1 ho with ho | ho
      · exact operations_ne_canRecord_false cfg _ o ho
      · exact ih o ho

end Calls

end Jma
