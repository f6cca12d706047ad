import Jma.Core.TimeCostRecord
import Jma.Lib.Slice
import Mathlib.Data.List.Flatten

set_option autoImplicit false

/-! # The call stack of a sample

`getCallStack` walks over the stack trace from the innermost frame outwards, prepends frames from
the first one of the method on and breaks at the first one of the entry. So its result is the slice
of the trace between these two, reversed: the chain of calls from the entry down to the method. The
break does not ask whether the method has been met, and an entry frame inside the method's own
leaves nothing. -/

namespace Jma

/-- The frame shows the executable. -/
def Executable.isFrame (ex : Executable) (element : StackTraceElement) : Bool :=
  element.className == ex.declaringClass && element.methodName == ex.frameName

/-- The frame shows the configured entry. -/
def GlobalConfig.isEnterFrame (cfg : GlobalConfig) (element : StackTraceElement) : Bool :=
  cfg.isEnter element.className element.methodName

/-- The two tests pick the same frames when the executable is the entry method. -/
theorem isEnterFrame_eq_isFrame {cfg : GlobalConfig} {ex : Executable}
    (henter : cfg.isEnter ex.declaringClass ex.frameName = true) :
    cfg.isEnterFrame = ex.isFrame := by
  funext element
  simp only [GlobalConfig.isEnter, Bool.and_eq_true, beq_iff_eq] at henter
  obtain ⟨hmethod, hclass⟩ := henter
  rw [Bool.eq_iff_iff, GlobalConfig.isEnterFrame, GlobalConfig.isEnter, Executable.isFrame, hmethod,
    hclass]
  simp only [Bool.and_eq_true, beq_iff_eq, Option.some.injEq]
  exact ⟨fun h => ⟨h.2.symm, h.1.symm⟩, fun h => ⟨h.2.symm, h.1.symm⟩⟩

namespace AdviceUtil

variable (cfg : GlobalConfig) (ex : Executable)

/-- One turn of the loop. -/
theorem getCallStackLoop_cons (enqueue : Bool) (stack : List StackTraceElement)
    (element : StackTraceElement) (rest : List StackTraceElement) :
    getCallStackLoop cfg ex.declaringClass ex.frameName enqueue stack (element :: rest)
      = if cfg.isEnterFrame element then
          (if enqueue || ex.isFrame element then element :: stack else stack)
        else getCallStackLoop cfg ex.declaringClass ex.frameName (enqueue || ex.isFrame element)
          (if enqueue || ex.isFrame element then element :: stack else stack) rest := rfl

/-- The loop once the method has been met: frames are prepended until the break. -/
theorem getCallStackLoop_true (stack stackTrace : List StackTraceElement) :
    getCallStackLoop cfg ex.declaringClass ex.frameName true stack stackTrace
      = (Slice.upTo cfg.isEnterFrame stackTrace).reverse ++ stack := by
  induction stackTrace generalizing stack with
  | nil => rfl
  | cons element rest ih =>
      rw [getCallStackLoop_cons, Bool.true_or, if_pos rfl]
      by_cases hstop : cfg.isEnterFrame element = true
      · rw [Slice.upTo_cons_of_stop rest hstop, if_pos hstop]
        rfl
      · rw [Slice.upTo_cons_of_not_stop rest (by simpa using hstop), if_neg hstop, ih,
          List.reverse_cons, List.append_assoc]
        rfl

/-- The loop before the method has been met: its result is the slice that is still to come. -/
theorem getCallStackLoop_false (stackTrace : List StackTraceElement) :
    getCallStackLoop cfg ex.declaringClass ex.frameName false [] stackTrace
      = (Slice.between ex.isFrame cfg.isEnterFrame stackTrace).reverse := by
  induction stackTrace with
  | nil => rfl
  | cons element rest ih =>
      by_cases hstart : ex.isFrame element = true
      · -- the frame sets the flag before it is looked at, so the turn is one with the flag set
        have hturn : getCallStackLoop cfg ex.declaringClass ex.frameName false [] (element :: rest)
            = getCallStackLoop cfg ex.declaringClass ex.frameName true [] (element :: rest) := by
          rw [getCallStackLoop_cons, getCallStackLoop_cons, hstart]
          rfl
        rw [hturn, getCallStackLoop_true, Slice.between_cons_of_start rest hstart, List.append_nil]
      · have hstart' : ex.isFrame element = false := by simpa using hstart
        rw [getCallStackLoop_cons, hstart', Bool.false_or, if_neg Bool.false_ne_true]
        by_cases hstop : cfg.isEnterFrame element = true
        · rw [Slice.between_cons_of_stop rest hstart' hstop, if_pos hstop]
          rfl
        · rw [Slice.between_cons_of_neither rest hstart' (by simpa using hstop), if_neg hstop, ih]

/-- `getCallStack` is the slice from the method out to the entry, reversed. -/
theorem getCallStack_eq (stackTrace : List StackTraceElement) :
    getCallStack cfg ex stackTrace
      = (Slice.between ex.isFrame cfg.isEnterFrame stackTrace).reverse :=
  getCallStackLoop_false cfg ex stackTrace

/-- The call stack in terms of the first frame of the method and the first one of the entry. -/
theorem getCallStack_eq_match (stackTrace : List StackTraceElement) :
    getCallStack cfg ex stackTrace =
      match stackTrace.findIdx? ex.isFrame, stackTrace.findIdx? cfg.isEnterFrame with
      | some i, some e => if i ≤ e then ((stackTrace.take (e + 1)).drop i).reverse else []
      | some i, none => (stackTrace.drop i).reverse
      | none, _ => [] := by
  rw [getCallStack_eq, Slice.between_eq_match]
  cases stackTrace.findIdx? ex.isFrame with
  | none => rfl
  | some i =>
      cases stackTrace.findIdx? cfg.isEnterFrame with
      | none => rfl
      | some e =>
          show (if i ≤ e then (stackTrace.take (e + 1)).drop i else []).reverse
            = if i ≤ e then ((stackTrace.take (e + 1)).drop i).reverse else []
          rw [apply_ite List.reverse, List.reverse_nil]

variable {cfg ex}

/-- The innermost frame of the entry method is its call tree. -/
theorem callTree_record_of_isEnter (henter : cfg.isEnter ex.declaringClass ex.frameName = true)
    {stackTrace : List StackTraceElement} {i : Nat} (hi : stackTrace.findIdx? ex.isFrame = some i)
    (start «end» : Int) :
    ∃ element, stackTrace[i]? = some element ∧ cfg.isEnterFrame element = true ∧
      (record cfg ex stackTrace start «end»).callTree = [element] := by
  have hsame := isEnterFrame_eq_isFrame henter
  obtain ⟨hlt, hframe, -⟩ := List.findIdx?_eq_some_iff_getElem.1 hi
  refine ⟨stackTrace[i], List.getElem?_eq_getElem hlt, hsame ▸ hframe, ?_⟩
  show getCallStack cfg ex stackTrace = [stackTrace[i]]
  rw [getCallStack_eq, Slice.between_eq_drop_take hi (hsame ▸ hi) (le_refl i),
    List.drop_take_succ_eq_cons_getElem stackTrace i hlt]
  rfl

/-- **The call chain from the entry down to the method.** Let `i` be the first index of a frame of
    the method and `e` the first one of an entry frame. The call stack is the frames `i..e`, or `i`
    to the end when there is no `e`, in reverse order, and it is empty without an `i` or with `e`
    before it. With `e` present it begins with the entry frame `e`, ends with the method's innermost
    frame `i` and shows no other entry frame. The call tree recorded for the entry method is its own
    innermost frame and no other. -/
theorem getCallStack_entry_to_method (cfg : GlobalConfig) (ex : Executable)
    (stackTrace : List StackTraceElement) :
    (getCallStack cfg ex stackTrace =
      match stackTrace.findIdx? ex.isFrame, stackTrace.findIdx? cfg.isEnterFrame with
      | some i, some e => if i ≤ e then ((stackTrace.take (e + 1)).drop i).reverse else []
      | some i, none => (stackTrace.drop i).reverse
      | none, _ => []) ∧
    (∀ i e, stackTrace.findIdx? ex.isFrame = some i →
      stackTrace.findIdx? cfg.isEnterFrame = some e → i ≤ e →
        (getCallStack cfg ex stackTrace).head? = stackTrace[e]? ∧
        (getCallStack cfg ex stackTrace).getLast? = stackTrace[i]? ∧
        ∀ element ∈ (getCallStack cfg ex stackTrace).tail, cfg.isEnterFrame element = false) ∧
    (cfg.isEnter ex.declaringClass ex.frameName = true →
      ∀ i, stackTrace.findIdx? ex.isFrame = some i → ∀ start «end»,
        ∃ element, stackTrace[i]? = some element ∧ cfg.isEnterFrame element = true ∧
          (record cfg ex stackTrace start «end»).callTree = [element]) := by
  refine ⟨getCallStack_eq_match cfg ex stackTrace, fun i e hi he hle => ?_,
    fun henter i hi start «end» => callTree_record_of_isEnter henter hi start «end»⟩
  rw [getCallStack_eq]
  refine ⟨?_, ?_, ?_⟩
  · rw [List.head?_reverse]
    exact Slice.getLast?_between hi he hle
  · rw [List.getLast?_reverse]
    exact Slice.head?_between hi he hle
  · rw [List.tail_reverse]
    intro element helement
    exact Slice.not_stop_of_mem_dropLast_between hi he hle element (List.mem_reverse.1 helement)

/-- The chain of `cn.dyq.agent.test.Main`, with `method1` as the entry. -/
example : getCallStack
    (GlobalConfig.initial.setEnterClazzName "test/Main" |>.setEnterMethod (some "method1"))
    (.constructor "test.Main$TestIn" "()V")
    [⟨"java.lang.Thread", "getStackTrace"⟩, ⟨"advice.AdviceUtil", "getCallStack"⟩,
      ⟨"test.Main$TestIn", "<init>"⟩, ⟨"test.Main", "printStackTrace"⟩, ⟨"test.Main", "method2"⟩,
      ⟨"test.Main", "method1"⟩, ⟨"test.Main", "main"⟩]
    = [⟨"test.Main", "method1"⟩, ⟨"test.Main", "method2"⟩, ⟨"test.Main", "printStackTrace"⟩,
      ⟨"test.Main$TestIn", "<init>"⟩] := by
  decide

end AdviceUtil

end Jma
