import Jma.GlobalConfig
import Jma.Hierarchy.Walk
import Mathlib.Data.List.AList
import Mathlib.Data.List.Induction
import Mathlib.Logic.Function.Basic

set_option autoImplicit false

/-! # Transformers and retransformation

The target JVM as far as `java.lang.instrument` shows it: the `TimeCostTransformer` objects, the
registered transformers in the order of `addTransformer`, and the bytes each class runs with. Byte
Buddy is the parameter `weave`: the bytes it builds for a class with the advice around the methods
that match, or `none` when it throws. -/

namespace Jma

/-- What the advice matcher sees of a method. -/
structure MethodDescription where
  name : String
  isNative : Bool
  deriving DecidableEq, Repr

/-- `new ByteBuddy().redefine(c).visit(Advice.to(MethodTimeCostAdvice.class).on(matcher)).make()` -/
abbrev Weave := LoadedClass → (MethodDescription → Bool) → Option Bytes

structure TimeCostTransformer where
  methods : List CMethodInfo
  originalClassBytesMap : AList fun _ : String => Bytes

namespace TimeCostTransformer

/-- `new TimeCostTransformer(methods)`. -/
def new (methods : List CMethodInfo) : TimeCostTransformer := ⟨methods, ∅⟩

/-- The advice matcher for `className`, given the listed methods. -/
def matcher (methods : List CMethodInfo) (className : String) (target : MethodDescription) : Bool :=
  let toBeTransMethodNames :=
    (methods.filter (fun c => c.cClassName = className)).map CMethodInfo.methodName
  toBeTransMethodNames.contains target.name && !target.isNative

/-- `transform(loader, className, classBeingRedefined, protectionDomain, classfileBuffer)`: the
    result, `none` for `null`, and the transformer afterwards. -/
def transform (weave : Weave) (t : TimeCostTransformer) (classBeingRedefined : LoadedClass)
    (classfileBuffer : Bytes) : Option Bytes × TimeCostTransformer :=
  let className := classBeingRedefined.className
  if !(t.methods.map CMethodInfo.cClassName).contains className then (none, t)
  else if startsWith className "java" || startsWith className "com/sun" then (none, t)
  else
    match weave classBeingRedefined (matcher t.methods className) with
    | some bytes =>
        (some bytes,
         { t with
           originalClassBytesMap := t.originalClassBytesMap.insert className classfileBuffer })
    | none => (none, t)

/-- The bytes that a transformer for `methods` returns for `c`: its name is listed and not one of
    the JDK's, and Byte Buddy succeeds. -/
def woven (weave : Weave) (methods : List CMethodInfo) (c : LoadedClass) : Option Bytes :=
  if (methods.map CMethodInfo.cClassName).contains c.className &&
      !(startsWith c.className "java" || startsWith c.className "com/sun") then
    weave c (matcher methods c.className)
  else none

/-- `transform` saves the buffer exactly when it returns bytes. -/
theorem transform_eq (weave : Weave) (t : TimeCostTransformer) (c : LoadedClass) (buffer : Bytes) :
    t.transform weave c buffer =
      (woven weave t.methods c,
       if (woven weave t.methods c).isSome then
         { t with originalClassBytesMap := t.originalClassBytesMap.insert c.className buffer }
       else t) := by
  unfold transform woven
  dsimp only
  generalize (t.methods.map CMethodInfo.cClassName).contains c.className = listed
  generalize (startsWith c.className "java" || startsWith c.className "com/sun") = jdk
  cases listed with
  | false => rfl
  | true =>
      cases jdk with
      | true => rfl
      | false => cases weave c (matcher t.methods c.className) <;> simp

@[simp] theorem methods_transform (weave : Weave) (t : TimeCostTransformer) (c : LoadedClass)
    (buffer : Bytes) : (t.transform weave c buffer).2.methods = t.methods := by
  rw [transform_eq]
  dsimp only
  split <;> rfl

end TimeCostTransformer

/-- A registered object. `reset` is the `ResetTransformer` that a heartbeat thread makes around the
    `TimeCostTransformer` it has read, which may be `null`. -/
inductive Transformer where
  | timeCost (tct : Nat)
  | reset (thread : Nat) (tct : Option Nat)
  deriving DecidableEq, Repr

structure Jvm where
  /-- The `TimeCostTransformer` objects. -/
  tcts : Nat → TimeCostTransformer
  /-- The registered transformers, each with the `Instrumentation` it was added to. -/
  registered : List (Nat × Transformer)
  installed : LoadedClass → Bytes

namespace Jvm

/-- Every class runs its own bytes. -/
def pristine : Jvm := ⟨fun _ => .new [], [], LoadedClass.bytes⟩

/-- `new TimeCostTransformer(methods)`, as object `tct`. -/
def newTransformer (jvm : Jvm) (tct : Nat) (methods : List CMethodInfo) : Jvm :=
  { jvm with tcts := Function.update jvm.tcts tct (.new methods) }

/-- `inst.addTransformer(t, true)`. -/
def addTransformer (jvm : Jvm) (inst : Nat) (t : Transformer) : Jvm :=
  { jvm with registered := jvm.registered ++ [(inst, t)] }

/-- `inst.removeTransformer(t)`; no object is registered twice. -/
def removeTransformer (jvm : Jvm) (inst : Nat) (t : Transformer) : Jvm :=
  { jvm with registered := jvm.registered.filter (fun r => r ≠ (inst, t)) }

/-- One transformer at work on a buffer: `null` leaves the buffer, and a `ResetTransformer` around
    `null` throws, which the JVM treats as `null`. -/
def runTransformer (weave : Weave) (c : LoadedClass) (tcts : Nat → TimeCostTransformer)
    (buffer : Bytes) : Transformer → Bytes × (Nat → TimeCostTransformer)
  | .timeCost tct =>
      let result := (tcts tct).transform weave c buffer
      (result.1.getD buffer, Function.update tcts tct result.2)
  | .reset _ none => (buffer, tcts)
  | .reset _ (some tct) =>
      (((tcts tct).originalClassBytesMap.lookup c.className).getD buffer, tcts)

/-- The registered transformers one after the other, starting from `buffer`. -/
def runTransformers (weave : Weave) (c : LoadedClass) :
    List (Nat × Transformer) → (Nat → TimeCostTransformer) → Bytes →
      Bytes × (Nat → TimeCostTransformer)
  | [], tcts, buffer => (buffer, tcts)
  | r :: rest, tcts, buffer =>
      let result := runTransformer weave c tcts buffer r.2
      runTransformers weave c rest result.2 result.1

/-- Retransformation of one class, from its original bytes. -/
def retransformClass (weave : Weave) (jvm : Jvm) (c : LoadedClass) : Jvm :=
  let result := runTransformers weave c jvm.registered jvm.tcts c.bytes
  { jvm with tcts := result.2, installed := Function.update jvm.installed c result.1 }

/-- `inst.retransformClasses(classes)`. -/
def retransformClasses (weave : Weave) (jvm : Jvm) (classes : List LoadedClass) : Jvm :=
  classes.foldl (retransformClass weave) jvm

@[simp] theorem registered_retransformClasses (weave : Weave) (jvm : Jvm)
    (classes : List LoadedClass) :
    (jvm.retransformClasses weave classes).registered = jvm.registered := by
  induction classes generalizing jvm with
  | nil => rfl
  | cons c rest ih => exact (ih (jvm.retransformClass weave c)).trans rfl

theorem retransformClasses_snoc (weave : Weave) (jvm : Jvm) (classes : List LoadedClass)
    (c : LoadedClass) : jvm.retransformClasses weave (classes ++ [c])
      = (jvm.retransformClasses weave classes).retransformClass weave c := by
  rw [retransformClasses, List.foldl_append]
  rfl

/-- A class that is not retransformed keeps its bytes. -/
theorem installed_retransformClasses_of_not_mem (weave : Weave) (jvm : Jvm)
    {classes : List LoadedClass} {c : LoadedClass} (h : c ∉ classes) :
    (jvm.retransformClasses weave classes).installed c = jvm.installed c := by
  induction classes using List.reverseRecOn with
  | nil => rfl
  | append_singleton classes d ih =>
      rw [List.mem_append, List.mem_singleton, not_or] at h
      rw [retransformClasses_snoc, ← ih h.1]
      exact Function.update_of_ne h.2 ..

end Jvm

/-! ## The classes an attach is about -/

/-- The loaded classes that a listed method names: the test of the loop in `agentmain`. -/
def matching (cMethodInfo : CMethodInfo) (allLoadedClassed : List LoadedClass) : List LoadedClass :=
  allLoadedClassed.filter (fun aClass => aClass.name = replaceAll cMethodInfo.cClassName '/' '.')

/-- `finalTransClasses`: each listed method once for every loaded class it names. -/
def finalTransClasses (methods : List CMethodInfo) (allLoadedClassed : List LoadedClass) :
    List CMethodInfo :=
  methods.flatMap (fun cMethodInfo =>
    (matching cMethodInfo allLoadedClassed).map (fun _ => cMethodInfo))

/-- `finalClassSet`, a `LinkedHashSet`. -/
def finalClassSet (methods : List CMethodInfo) (allLoadedClassed : List LoadedClass) :
    List LoadedClass :=
  (methods.flatMap (fun cMethodInfo => matching cMethodInfo allLoadedClassed)).eraseDups

theorem mem_finalClassSet {methods : List CMethodInfo} {allLoadedClassed : List LoadedClass}
    {c : LoadedClass} : c ∈ finalClassSet methods allLoadedClassed ↔
      c ∈ allLoadedClassed ∧ ∃ m ∈ methods, c.name = replaceAll m.cClassName '/' '.' := by
  simp only [finalClassSet, List.mem_eraseDups, List.mem_flatMap, matching, List.mem_filter,
    decide_eq_true_eq]
  constructor
  · rintro ⟨m, hm, hc, hname⟩
    exact ⟨hc, m, hm, hname⟩
  · rintro ⟨hc, m, hm, hname⟩
    exact ⟨m, hm, hc, hname⟩

end Jma
