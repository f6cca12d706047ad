import Jma.Attach.Instrumentation
import Mathlib.Data.List.AList

set_option autoImplicit false

/-! # Attach, then detach

`TimeCostTransformer` saves the original bytes of every class it weaves, under the name of the
class; `ResetTransformer` hands out what is saved under the name of the class it is asked about.
With one class loader that is a round trip. -/

namespace Jma

variable (weave : Weave)

/-- What `agentmain` does to the classes: a new `TimeCostTransformer` for the walk's result is
    registered and the class set retransformed. -/
def Jvm.attach (jvm : Jvm) (inst tct : Nat) (methods : List CMethodInfo)
    (allLoadedClassed : List LoadedClass) : Jvm :=
  ((jvm.newTransformer tct (finalTransClasses methods allLoadedClassed)).addTransformer inst
    (.timeCost tct)).retransformClasses weave (finalClassSet methods allLoadedClassed)

/-- What `checkBootExit` of thread `thread` does to the classes: the `TimeCostTransformer` is
    removed and the class set is retransformed with a `ResetTransformer` registered. -/
def Jvm.detach (jvm : Jvm) (inst tct thread : Nat) (classSet : List LoadedClass) : Jvm :=
  (((jvm.removeTransformer inst (.timeCost tct)).addTransformer inst
    (.reset thread (some tct))).retransformClasses weave classSet).removeTransformer inst
      (.reset thread (some tct))

/-- The last class of `classes` with that internal name that is woven. -/
def lastWoven (methods : List CMethodInfo) (classes : List LoadedClass) (className : String) :
    Option LoadedClass :=
  (classes.filter (fun c => c.className = className ∧
    (TimeCostTransformer.woven weave methods c).isSome)).getLast?

/-- The saved bytes of a transformer, by class name. -/
def Jvm.saved (jvm : Jvm) (tct : Nat) (className : String) : Option Bytes :=
  (jvm.tcts tct).originalClassBytesMap.lookup className

/-- With a single `TimeCostTransformer` registered, retransformation saves the original bytes of the
    last woven class of every name. -/
theorem saved_retransformClasses {jvm : Jvm} {inst tct : Nat} {methods : List CMethodInfo}
    (hreg : jvm.registered = [(inst, .timeCost tct)]) (hnew : jvm.tcts tct = .new methods)
    (classes : List LoadedClass) :
    ((jvm.retransformClasses weave classes).tcts tct).methods = methods ∧
      ∀ className, (jvm.retransformClasses weave classes).saved tct className
        = (lastWoven weave methods classes className).map LoadedClass.bytes := by
  induction classes using List.reverseRecOn with
  | nil =>
      rw [Jvm.retransformClasses, List.foldl_nil, hnew]
      refine ⟨rfl, fun className => ?_⟩
      rw [Jvm.saved, hnew]
      rfl
  | append_singleton classes c ih =>
      obtain ⟨hmethods, hsaved⟩ := ih
      have htct : (jvm.retransformClasses weave (classes ++ [c])).tcts tct
          = (((jvm.retransformClasses weave classes).tcts tct).transform weave c c.bytes).2 := by
        rw [Jvm.retransformClasses_snoc, Jvm.retransformClass]
        simp [hreg, Jvm.runTransformers, Jvm.runTransformer]
      refine ⟨by rw [htct, TimeCostTransformer.methods_transform, hmethods], fun className => ?_⟩
      rw [Jvm.saved, htct, TimeCostTransformer.transform_eq, hmethods]
      by_cases hw : (TimeCostTransformer.woven weave methods c).isSome = true
      · rw [if_pos hw]
        by_cases hname : c.className = className
        · subst hname
          simp [lastWoven, hw]
        · have hrest := hsaved className
          rw [Jvm.saved] at hrest
          simp [lastWoven, hw, hname, AList.lookup_insert_ne (Ne.symm hname), hrest]
      · have hrest := hsaved className
        rw [Jvm.saved] at hrest
        rw [if_neg hw, hrest]
        simp [lastWoven, hw]

/-- With a single `ResetTransformer` registered, retransformation installs what was saved under the
    name of a class, and the original bytes when nothing was. -/
theorem installed_reset {jvm : Jvm} {inst thread tct : Nat}
    (hreg : jvm.registered = [(inst, .reset thread (some tct))]) (classes : List LoadedClass) :
    (jvm.retransformClasses weave classes).tcts = jvm.tcts ∧
      ∀ c ∈ classes, (jvm.retransformClasses weave classes).installed c
        = (jvm.saved tct c.className).getD c.bytes := by
  induction classes using List.reverseRecOn with
  | nil => exact ⟨rfl, by simp⟩
  | append_singleton classes d ih =>
      obtain ⟨htcts, hinst⟩ := ih
      have hstep : jvm.retransformClasses weave (classes ++ [d]) =
          { jvm.retransformClasses weave classes with
            installed := Function.update (jvm.retransformClasses weave classes).installed d
              ((jvm.saved tct d.className).getD d.bytes) } := by
        rw [Jvm.retransformClasses_snoc, Jvm.retransformClass]
        simp [hreg, Jvm.runTransformers, Jvm.runTransformer, htcts, Jvm.saved]
      rw [hstep]
      refine ⟨htcts, fun c hc => ?_⟩
      by_cases hcd : c = d
      · subst hcd
        exact Function.update_self ..
      · rw [List.mem_append, List.mem_singleton] at hc
        exact (Function.update_of_ne hcd ..).trans (hinst c (hc.resolve_right hcd))

/-- **When detaching restores every class.** A loaded class of the class set gets its bytes back iff
    the last class of its name that was woven, if there is one, has the same bytes. -/
theorem detach_restores_iff (weave : Weave) (inst tct thread : Nat) (methods : List CMethodInfo)
    (allLoadedClassed : List LoadedClass) :
    (∀ c ∈ allLoadedClassed,
      ((Jvm.pristine.attach weave inst tct methods allLoadedClassed).detach weave inst tct thread
        (finalClassSet methods allLoadedClassed)).installed c = c.bytes) ↔
    ∀ c ∈ finalClassSet methods allLoadedClassed, ∀ d,
      lastWoven weave (finalTransClasses methods allLoadedClassed)
        (finalClassSet methods allLoadedClassed) c.className = some d → d.bytes = c.bytes := by
  set classSet := finalClassSet methods allLoadedClassed with hset
  set attached := Jvm.pristine.attach weave inst tct methods allLoadedClassed with hattached
  have hreg : attached.registered = [(inst, .timeCost tct)] := by
    rw [hattached, Jvm.attach, Jvm.registered_retransformClasses]
    rfl
  set ready := (Jvm.pristine.newTransformer tct
    (finalTransClasses methods allLoadedClassed)).addTransformer inst (.timeCost tct) with hready
  have hfresh : ready.registered = [(inst, .timeCost tct)] := rfl
  have hnew : ready.tcts tct = .new (finalTransClasses methods allLoadedClassed) :=
    Function.update_self ..
  obtain ⟨-, hsaved⟩ := saved_retransformClasses weave hfresh hnew classSet
  set between := (attached.removeTransformer inst (.timeCost tct)).addTransformer inst
    (.reset thread (some tct)) with hbetween
  have hreset : between.registered = [(inst, .reset thread (some tct))] := by
    simp [hbetween, Jvm.addTransformer, Jvm.removeTransformer, hreg]
  obtain ⟨-, hinstalled⟩ := installed_reset weave hreset classSet
  have hother : ∀ c, c ∉ classSet →
      ((attached.detach weave inst tct thread classSet).installed c = c.bytes) := fun c hc =>
    (Jvm.installed_retransformClasses_of_not_mem weave between hc).trans
      (Jvm.installed_retransformClasses_of_not_mem weave _ hc)
  have hmem : ∀ c ∈ classSet, (attached.detach weave inst tct thread classSet).installed c
      = ((lastWoven weave (finalTransClasses methods allLoadedClassed) classSet c.className).map
          LoadedClass.bytes).getD c.bytes := fun c hc =>
    (hinstalled c hc).trans (congrArg (Option.getD · c.bytes) (hsaved c.className))
  constructor
  · intro h c hc d hd
    have := h c (mem_finalClassSet.1 hc).1
    rw [hmem c hc, hd] at this
    exact this
  · intro h c _
    by_cases hc : c ∈ classSet
    · rw [hmem c hc]
      cases hd : lastWoven weave (finalTransClasses methods allLoadedClassed) classSet
          c.className with
      | none => rfl
      | some d => exact h c hc d hd
    · exact hother c hc

/-! ## Two loaders, one name -/

namespace TwoLoaders

/-- The class `p.A` as two loaders define it. -/
def first : LoadedClass := ⟨1, "p.A", [1]⟩

def second : LoadedClass := ⟨2, "p.A", [2]⟩

/-- Advice put in front of the class file. -/
def weaveByPrefix : Weave := fun c _ => some (0 :: c.bytes)

end TwoLoaders

open TwoLoaders in
/-- Both classes are woven, and the first one gets the bytes of the second. -/
theorem two_loaders_not_restored : ∃ c ∈ [first, second],
    ((Jvm.pristine.attach weaveByPrefix 0 0 [⟨"p/A", "run", "()V"⟩] [first, second]).detach
      weaveByPrefix 0 0 0 (finalClassSet [⟨"p/A", "run", "()V"⟩] [first, second])).installed c
        ≠ c.bytes :=
  ⟨first, by decide, by decide⟩

end Jma
