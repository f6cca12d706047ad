import Jma.GlobalConfig

set_option autoImplicit false

/-! # Samples and records

The data classes of `core` and the two functions of `AdviceUtil` that fill them: `getCallStack` cuts
the stack trace between the method and the entry, and `record` builds the one-sample record that the
exit advice hands to the manager. `java.lang.Long` values are integers. -/

namespace Jma

structure CostPair where
  begin : Int
  «end» : Int
  deriving DecidableEq, Repr

structure MethodIdentifier where
  className : String
  methodName : String
  descriptor : String
  deriving DecidableEq, Repr

/-- The two fields of a stack frame that the agent reads. -/
structure StackTraceElement where
  className : String
  methodName : String
  deriving DecidableEq, Repr

/-- One line of a report in the making. `count` counts calls; `costs` is an `ArrayList`, so neither
    passes `2 ^ 31 - 1` and the `long` never wraps. -/
structure TimeCostRecord where
  method : MethodIdentifier
  callTree : List StackTraceElement
  count : Nat
  costs : List CostPair
  deriving DecidableEq, Repr

structure TimeCostChain where
  recordList : List TimeCostRecord
  deriving DecidableEq, Repr

/-- `new TimeCostChain()`. -/
def TimeCostChain.empty : TimeCostChain := ⟨[]⟩

/-- The reflected origin of an advice, a `Method` or a `Constructor<?>`. -/
inductive Executable where
  | method (declaringClass name descriptor : String)
  | constructor (declaringClass descriptor : String)
  deriving DecidableEq, Repr

namespace Executable

def declaringClass : Executable → String
  | .method c _ _ => c
  | .constructor c _ => c

/-- `getName`: a constructor reports its class. -/
def name : Executable → String
  | .method _ n _ => n
  | .constructor c _ => c

/-- The name under which a stack frame shows the executable. -/
def frameName : Executable → String
  | .method _ n _ => n
  | .constructor _ _ => "<init>"

def descriptor : Executable → String
  | .method _ _ d => d
  | .constructor _ d => d

def identifier (e : Executable) : MethodIdentifier := ⟨e.declaringClass, e.name, e.descriptor⟩

end Executable

/-- One timed call on its way into the store: what `AdviceUtil.record` wraps into a record. -/
structure Sample where
  method : MethodIdentifier
  callTree : List StackTraceElement
  cost : CostPair
  deriving DecidableEq, Repr

/-- A fresh record with a single cost. -/
def Sample.toRecord (s : Sample) : TimeCostRecord :=
  { method := s.method, callTree := s.callTree, count := 1, costs := [s.cost] }

namespace AdviceUtil

/-- The loop of `getCallStack`. `enqueue` starts at the first frame of the method; a frame is
    prepended while it is set, and the loop breaks at the first frame of the entry, set or not. -/
def getCallStackLoop (cfg : GlobalConfig) (className methodName : String) :
    Bool → List StackTraceElement → List StackTraceElement → List StackTraceElement
  | _, stack, [] => stack
  | enqueue, stack, element :: rest =>
      let enqueue := enqueue || (element.className == className && element.methodName == methodName)
      let stack := if enqueue then element :: stack else stack
      if cfg.isEnter element.className element.methodName then stack
      else getCallStackLoop cfg className methodName enqueue stack rest

/-- `getCallStack`, on the current thread's stack trace (innermost frame first). -/
def getCallStack (cfg : GlobalConfig) (e : Executable) (stackTrace : List StackTraceElement) :
    List StackTraceElement :=
  getCallStackLoop cfg e.declaringClass e.frameName false [] stackTrace

/-- The sample that `record` takes of one call. -/
def sample (cfg : GlobalConfig) (e : Executable) (stackTrace : List StackTraceElement)
    (start «end» : Int) : Sample :=
  { method := e.identifier, callTree := getCallStack cfg e stackTrace, cost := ⟨start, «end»⟩ }

/-- `AdviceUtil.record` up to the call of `mergeRecord`: the record it builds. -/
def record (cfg : GlobalConfig) (e : Executable) (stackTrace : List StackTraceElement)
    (start «end» : Int) : TimeCostRecord :=
  (sample cfg e stackTrace start «end»).toRecord

end AdviceUtil

end Jma
