import Jma.JavaString

set_option autoImplicit false

/-! # `GlobalConfig`

The singleton through which `agentmain`, the advice and the heartbeat threads of every attach share
their state. A field is `none` where the source holds `null`. Objects of the target JVM are
references: an `Instrumentation` and a `TimeCostTransformer` are numbers, and a class is its loader,
its name and the bytes it was defined with. -/

namespace Jma

/-- The bytes of a class file. -/
abbrev Bytes := List UInt8

/-- A class loaded in the target JVM, with the bytes its loader defined it with. -/
structure LoadedClass where
  loader : Nat
  /-- `Class.getName`: `com.test.Clas`. -/
  name : String
  bytes : Bytes
  deriving DecidableEq, Repr

/-- The internal name `com/test/Clas` under which the JVM hands a class to a transformer. -/
def LoadedClass.className (c : LoadedClass) : String := replaceAll c.name '.' '/'

structure GlobalConfig where
  /-- `com/test/Clas`. -/
  enterClazzName : Option String
  enterMethod : Option String
  /-- `com.test.Clas`. -/
  enterClassName : Option String
  tct : Option Nat
  inst : Option Nat
  finalClassSet : Option (List LoadedClass)
  httpPort : Int
  deriving DecidableEq, Repr

namespace GlobalConfig

/-- The singleton as the class loader leaves it. -/
def initial : GlobalConfig := ⟨none, none, none, none, none, none, 0⟩

/-- Writes both spellings of the entry class. -/
def setEnterClazzName (cfg : GlobalConfig) (enterClazzName : String) : GlobalConfig :=
  { cfg with
    enterClazzName := some enterClazzName
    enterClassName := some (replaceAll enterClazzName '/' '.') }

def setEnterMethod (cfg : GlobalConfig) (enterMethod : Option String) : GlobalConfig :=
  { cfg with enterMethod := enterMethod }

def setTimeCostTransformer (cfg : GlobalConfig) (tct : Nat) : GlobalConfig :=
  { cfg with tct := some tct }

def setInstrument (cfg : GlobalConfig) (inst : Nat) : GlobalConfig :=
  { cfg with inst := some inst }

def setTransClassSet (cfg : GlobalConfig) (finalClassSet : List LoadedClass) : GlobalConfig :=
  { cfg with finalClassSet := some finalClassSet }

def setHttpPort (cfg : GlobalConfig) (port : Int) : GlobalConfig :=
  { cfg with httpPort := port }

/-- The test that both advices make: the method has the entry's name and declaring class. -/
def isEnter (cfg : GlobalConfig) (className methodName : String) : Bool :=
  cfg.enterMethod == some methodName && cfg.enterClassName == some className

end GlobalConfig

/-- `p.A#run` is the entry. -/
def enterRun : GlobalConfig :=
  (GlobalConfig.initial.setEnterClazzName "p/A").setEnterMethod (some "run")

end Jma
