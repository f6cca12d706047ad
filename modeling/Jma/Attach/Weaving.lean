import Jma.Attach.RoundTrip
import Jma.Hierarchy.CallGraph

set_option autoImplicit false

/-! # Which methods are woven

`transform` compares class and method name only, and leaves out the classes of the JDK by the
beginning of their names. The first is as good as comparing descriptors, because the walk lists
whole classes; the second leaves out more than the JDK. -/

namespace Jma

open MethodHierarchyUtil

/-- What the walk does not look at in a method. -/
structure AccessFlags where
  isNative : Bool
  isAbstract : Bool
  deriving DecidableEq, Repr

/-- What the matcher is shown of a method of `d`; `getName` of an initialiser is the class name. -/
def MethodDescription.of (flags : ClassFile → MethodDecl → AccessFlags) (d : ClassFile)
    (m : MethodDecl) : MethodDescription :=
  ⟨if m.isInit then d.getName else m.name, (flags d m).isNative⟩

/-- The method is no initialiser, not native and not abstract. -/
def isPlain (flags : ClassFile → MethodDecl → AccessFlags) (d : ClassFile) (m : MethodDecl) :
    Bool :=
  !m.isInit && !(flags d m).isNative && !(flags d m).isAbstract

/-- The packages of the JDK. -/
def inJdk (className : String) : Bool :=
  startsWith className "java/" || startsWith className "javax/" || startsWith className "com/sun/"

namespace TimeCostTransformer

/-- The test by which `transform` leaves out the classes of the JDK. -/
def skips (className : String) : Bool :=
  startsWith className "java" || startsWith className "com/sun"

/-- The matcher that `transform` hands to Byte Buddy for `className`, if it comes to that. -/
def adviceMatcher (methods : List CMethodInfo) (className : String) :
    Option (MethodDescription → Bool) :=
  if (methods.map CMethodInfo.cClassName).contains className && !skips className then
    some (matcher methods className)
  else none

theorem woven_eq (weave : Weave) (methods : List CMethodInfo) (c : LoadedClass) :
    woven weave methods c = (adviceMatcher methods c.className).bind (weave c) := by
  unfold woven adviceMatcher skips
  split <;> rfl

end TimeCostTransformer

open TimeCostTransformer

section

variable (methods : List CMethodInfo) (allLoadedClassed : List LoadedClass)

/-- The matcher at work on `c` when `agentmain` retransforms the class set. -/
def matcherOn (c : LoadedClass) : Option (MethodDescription → Bool) :=
  if c ∈ finalClassSet methods allLoadedClassed then
    adviceMatcher (finalTransClasses methods allLoadedClassed) c.className
  else none

/-- Retransforming `c` puts the advice around the method. -/
def Accepted (c : LoadedClass) (target : MethodDescription) : Prop :=
  ∃ p, matcherOn methods allLoadedClassed c = some p ∧ p target = true

/-- What is woven of the loaded classes outside the JDK is what is listed: a plain method is
    accepted exactly when it is listed with its descriptor. -/
def WeavesExactly (U : ClassUniverse) (flags : ClassFile → MethodDecl → AccessFlags) : Prop :=
  ∀ c ∈ allLoadedClassed, ∀ d ∈ U.classes, c.name = d.getName → inJdk d.name = false →
    ∀ m ∈ d.methods, isPlain flags d m = true →
      (Accepted methods allLoadedClassed c (.of flags d m) ↔ .of d.name m ∈ methods)

/-- No loaded class outside the JDK that `transform` leaves out has a plain method that is
    listed. -/
def NoneSkipped (U : ClassUniverse) (flags : ClassFile → MethodDecl → AccessFlags) : Prop :=
  ∀ c ∈ allLoadedClassed, ∀ d ∈ U.classes, c.name = d.getName → inJdk d.name = false →
    skips d.name = true → ∀ m ∈ d.methods, isPlain flags d m = true → .of d.name m ∉ methods

end

/-! ## The bytes after an attach -/

/-- With a single `TimeCostTransformer` registered, retransformation installs what it weaves. -/
theorem installed_timeCost (weave : Weave) {jvm : Jvm} {inst tct : Nat}
    {methods : List CMethodInfo} (hreg : jvm.registered = [(inst, .timeCost tct)])
    (hnew : jvm.tcts tct = .new methods) (classes : List LoadedClass) :
    ∀ c ∈ classes, (jvm.retransformClasses weave classes).installed c
      = (woven weave methods c).getD c.bytes := by
  induction classes using List.reverseRecOn with
  | nil => simp
  | append_singleton classes d ih =>
      intro c hc
      have hmethods := (saved_retransformClasses weave hreg hnew classes).1
      have hstep : (jvm.retransformClasses weave (classes ++ [d])).installed
          = Function.update (jvm.retransformClasses weave classes).installed d
              ((woven weave methods d).getD d.bytes) := by
        rw [Jvm.retransformClasses_snoc, Jvm.retransformClass]
        simp [hreg, Jvm.runTransformers, Jvm.runTransformer, transform_eq, hmethods]
      rw [hstep]
      by_cases hcd : c = d
      · subst hcd
        exact Function.update_self ..
      · rw [List.mem_append, List.mem_singleton] at hc
        exact (Function.update_of_ne hcd ..).trans (ih c (hc.resolve_right hcd))

/-- After an attach a class runs what Byte Buddy makes of it with the matcher at work on it, or its
    own bytes. -/
theorem installed_attach (weave : Weave) (inst tct : Nat) (methods : List CMethodInfo)
    (allLoadedClassed : List LoadedClass) (c : LoadedClass) :
    (Jvm.pristine.attach weave inst tct methods allLoadedClassed).installed c
      = ((matcherOn methods allLoadedClassed c).bind (weave c)).getD c.bytes := by
  unfold Jvm.attach matcherOn
  by_cases hc : c ∈ finalClassSet methods allLoadedClassed
  · rw [if_pos hc, ← woven_eq]
    exact installed_timeCost weave rfl (Function.update_self ..) _ c hc
  · rw [if_neg hc]
    exact Jvm.installed_retransformClasses_of_not_mem weave _ hc

/-! ## What is accepted -/

theorem mem_finalTransClasses {methods : List CMethodInfo} {allLoadedClassed : List LoadedClass}
    {e : CMethodInfo} : e ∈ finalTransClasses methods allLoadedClassed ↔
      e ∈ methods ∧ ∃ c ∈ allLoadedClassed, c.name = replaceAll e.cClassName '/' '.' := by
  simp only [finalTransClasses, List.mem_flatMap, List.mem_map, matching, List.mem_filter,
    decide_eq_true_eq]
  constructor
  · rintro ⟨info, hinfo, c, ⟨hc, hname⟩, rfl⟩
    exact ⟨hinfo, c, hc, hname⟩
  · rintro ⟨he, c, hc, hname⟩
    exact ⟨e, he, c, ⟨hc, hname⟩, rfl⟩

theorem className_eq {c : LoadedClass} {d : ClassFile} (hname : c.name = d.getName) :
    c.className = d.name := by
  rw [LoadedClass.className, hname, d.replaceAll_getName]

/-- A class that no entry names has no matcher. -/
theorem matcherOn_of_not_listed {methods : List CMethodInfo} {allLoadedClassed : List LoadedClass}
    {c : LoadedClass} (h : ∀ e ∈ methods, e.cClassName ≠ c.className) :
    matcherOn methods allLoadedClassed c = none := by
  have hlisted : ((finalTransClasses methods allLoadedClassed).map CMethodInfo.cClassName).contains
      c.className = false := by
    rw [← Bool.not_eq_true, List.contains_iff_mem, List.mem_map]
    rintro ⟨e, he, hclass⟩
    exact h e (mem_finalTransClasses.1 he).1 hclass
  rw [matcherOn, adviceMatcher, hlisted, Bool.false_and, if_neg Bool.false_ne_true, ite_self]

/-- What a matcher accepts of a loaded class: the names that are listed with it. -/
theorem accepted_iff {methods : List CMethodInfo} {allLoadedClassed : List LoadedClass}
    {c : LoadedClass} {d : ClassFile} (hc : c ∈ allLoadedClassed) (hname : c.name = d.getName)
    (target : MethodDescription) :
    Accepted methods allLoadedClassed c target ↔ skips d.name = false ∧ target.isNative = false ∧
      ∃ e ∈ methods, e.cClassName = d.name ∧ e.methodName = target.name := by
  have htrans : ∀ e, e.cClassName = d.name →
      (e ∈ finalTransClasses methods allLoadedClassed ↔ e ∈ methods) := by
    intro e he
    rw [mem_finalTransClasses, he]
    exact and_iff_left ⟨c, hc, hname⟩
  have hclass := className_eq hname
  constructor
  · rintro ⟨p, hp, htarget⟩
    unfold matcherOn adviceMatcher at hp
    split at hp
    · split at hp
      · next hguard =>
          obtain rfl := Option.some.inj hp
          rw [hclass, Bool.and_eq_true, Bool.not_eq_true'] at hguard
          rw [hclass, matcher, Bool.and_eq_true, Bool.not_eq_true', List.contains_iff_mem,
            List.mem_map] at htarget
          obtain ⟨⟨e, he, hmethod⟩, hnative⟩ := htarget
          rw [List.mem_filter, decide_eq_true_eq] at he
          exact ⟨hguard.2, hnative, e, (htrans e he.2).1 he.1, he.2, hmethod⟩
      · cases hp
    · cases hp
  · rintro ⟨hskip, hnative, e, he, heclass, hmethod⟩
    have hset : c ∈ finalClassSet methods allLoadedClassed :=
      mem_finalClassSet.2 ⟨hc, e, he, by rw [hname, heclass, ClassFile.getName]⟩
    have hlisted : ((finalTransClasses methods allLoadedClassed).map
        CMethodInfo.cClassName).contains d.name = true :=
      List.contains_iff_mem.2 (List.mem_map.2 ⟨e, (htrans e heclass).2 he, heclass⟩)
    refine ⟨matcher (finalTransClasses methods allLoadedClassed) d.name, ?_, ?_⟩
    · rw [matcherOn, if_pos hset, hclass, adviceMatcher, hlisted, hskip]
      rfl
    · rw [matcher, Bool.and_eq_true, Bool.not_eq_true', List.contains_iff_mem, List.mem_map]
      exact ⟨⟨e, List.mem_filter.2 ⟨(htrans e heclass).2 he, decide_eq_true heclass⟩, hmethod⟩,
        hnative⟩

/-- When the walk returns, a method of a class, initialisers apart, is listed with any other entry
    of the class. -/
theorem Finished.mem_methods_iff_class {U : ClassUniverse} {fold : Char → Char} {root name : String}
    {w : Walk} (h : Finished U fold root name w) {d : ClassFile} {m : MethodDecl}
    (hd : d ∈ U.classes) (hm : m ∈ d.methods) (hinit : m.isInit = false) :
    .of d.name m ∈ w.methods ↔ ∃ e ∈ w.methods, e.cClassName = d.name := by
  refine ⟨fun hmem => ⟨_, hmem, rfl⟩, ?_⟩
  rintro ⟨e, he, hclass⟩
  rw [h.mem_methods hd hm]
  rcases steps_justified h.steps e he with ⟨c, n, m', hv, -, rfl⟩ | ⟨c, n, s, m', hv, hs, rfl⟩ |
    hcall
  · exact ⟨c, n, hv, Or.inl hclass⟩
  · obtain ⟨cf, hread, hsuper, -⟩ := hs
    have hds : d = s := List.inj_on_of_nodup_map U.distinct hd hsuper.mem hclass.symm
    subst hds
    exact ⟨c, n, hv, Or.inr ⟨cf, hread, hsuper, ClassFile.mem_getDeclaredMethods.2 ⟨hm, hinit⟩⟩⟩
  · exact ⟨e.cClassName, e.methodName, h.visited_of_called hcall, Or.inl hclass⟩

/-- **When the weaver instruments what the walk found.** When the walk returns, the plain methods
    that are accepted of the loaded classes outside the JDK are those that are listed, exactly when
    no such class is left out although one of its plain methods is listed. Whatever Byte Buddy does,
    a class runs what it builds with the matcher at work on that class, and a class that no entry
    names runs its own bytes. -/
theorem weaves_exactly_iff {U : ClassUniverse} {fold : Char → Char} {root name : String} {w : Walk}
    (h : walk U fold root name = .ok w) (flags : ClassFile → MethodDecl → AccessFlags)
    (allLoadedClassed : List LoadedClass) :
    readClassMethodHierarchy U fold root name = .ok w.methods ∧
    (WeavesExactly w.methods allLoadedClassed U flags ↔
      NoneSkipped w.methods allLoadedClassed U flags) ∧
    (∀ (weave : Weave) (inst tct : Nat) (c : LoadedClass),
      (Jvm.pristine.attach weave inst tct w.methods allLoadedClassed).installed c
        = ((matcherOn w.methods allLoadedClassed c).bind (weave c)).getD c.bytes) ∧
    ∀ (weave : Weave) (inst tct : Nat) (c : LoadedClass),
      (∀ e ∈ w.methods, e.cClassName ≠ c.className) →
      (Jvm.pristine.attach weave inst tct w.methods allLoadedClassed).installed c = c.bytes := by
  have hfin := walk_finished h
  have haccepted : ∀ c ∈ allLoadedClassed, ∀ d ∈ U.classes, c.name = d.getName →
      ∀ m ∈ d.methods, isPlain flags d m = true →
        (Accepted w.methods allLoadedClassed c (.of flags d m) ↔
          skips d.name = false ∧ .of d.name m ∈ w.methods) := by
    intro c hc d hd hname m hm hplain
    simp only [isPlain, Bool.and_eq_true, Bool.not_eq_true'] at hplain
    obtain ⟨⟨hinit, hnative⟩, -⟩ := hplain
    have hlisted := hfin.mem_methods_iff_class hd hm hinit
    have htarget : (MethodDescription.of flags d m).name = m.name := by
      rw [MethodDescription.of, hinit, if_neg Bool.false_ne_true]
    rw [accepted_iff hc hname, htarget]
    refine and_congr_right (fun _ => ⟨fun hmatch => ?_, fun hmem => ?_⟩)
    · obtain ⟨-, e, he, hclass, -⟩ := hmatch
      exact hlisted.2 ⟨e, he, hclass⟩
    · exact ⟨hnative, _, hmem, rfl, rfl⟩
  refine ⟨readClassMethodHierarchy_of_walk h, ⟨fun hexact => ?_, fun hnone => ?_⟩,
    fun weave inst tct c => installed_attach weave inst tct _ _ c, fun weave inst tct c hc => ?_⟩
  · intro c hc d hd hname hjdk hskip m hm hplain hmem
    have hnot := (hexact c hc d hd hname hjdk m hm hplain).2 hmem
    rw [haccepted c hc d hd hname m hm hplain, hskip] at hnot
    cases hnot.1
  · intro c hc d hd hname hjdk m hm hplain
    rw [haccepted c hc d hd hname m hm hplain]
    refine and_iff_right_of_imp (fun hmem => ?_)
    rw [← Bool.not_eq_true]
    exact fun hskip => hnone c hc d hd hname hjdk hskip m hm hplain hmem
  · rw [installed_attach, matcherOn_of_not_listed hc]
    rfl

/-! ### A package called `javalib` -/

namespace JavalibDemo

def use : MethodDecl := ⟨"use", "()V", []⟩

def tool : ClassFile where
  name := "javalib/Tool"
  superclass := none
  isInterface := false
  methods := [use]

def helper : ClassFile where
  name := "shop/Helper"
  superclass := none
  isInterface := false
  methods := [⟨"help", "()V", []⟩]

/-- `run` uses the tool, `call` the helper. -/
def main : ClassFile where
  name := "shop/Main"
  superclass := none
  isInterface := false
  methods :=
    [⟨"run", "()V", [{ owner := "javalib/Tool", name := "use", descriptor := "()V" }]⟩,
     ⟨"call", "()V", [{ owner := "shop/Helper", name := "help", descriptor := "()V" }]⟩]

def classPath : ClassUniverse where
  classes := [tool, helper, main]

def mainClass : LoadedClass := ⟨0, "shop.Main", [1]⟩

def helperClass : LoadedClass := ⟨0, "shop.Helper", [2]⟩

def toolClass : LoadedClass := ⟨0, "javalib.Tool", [3]⟩

/-- Every method is an ordinary one. -/
def flags : ClassFile → MethodDecl → AccessFlags := fun _ _ => ⟨false, false⟩

def foundFromRun : List CMethodInfo :=
  [⟨"shop/Main", "run", "()V"⟩, ⟨"javalib/Tool", "use", "()V"⟩, ⟨"shop/Main", "call", "()V"⟩]

def walkFromCall : Walk where
  methods :=
    [⟨"shop/Main", "run", "()V"⟩, ⟨"shop/Main", "call", "()V"⟩, ⟨"shop/Helper", "help", "()V"⟩]
  visited := [("shop/Main", "call"), ("shop/Helper", "help")]
  scanned := [⟨"shop/Main", "call", "()V"⟩, ⟨"shop/Helper", "help", "()V"⟩]

end JavalibDemo

open JavalibDemo

/-- The tool is listed and loaded and lies in no JDK package, but its method is not accepted. -/
theorem javalib_tool_skipped : ∃ methods,
    readClassMethodHierarchy classPath Char.toLower "shop/Main" "run" = .ok methods ∧
      ¬WeavesExactly methods [mainClass, toolClass] classPath flags := by
  refine ⟨foundFromRun, by decide, fun hexact => ?_⟩
  have hiff := hexact toolClass (by decide) tool (by decide) rfl (by decide) use (by decide)
    (by decide)
  obtain ⟨p, hp, -⟩ := hiff.2 (by decide)
  rw [show matcherOn foundFromRun [mainClass, toolClass] toolClass = none by decide] at hp
  cases hp

/-- From `call` exactly what is listed is woven, even with the tool loaded. -/
theorem call_weaves_exactly :
    WeavesExactly walkFromCall.methods [mainClass, helperClass, toolClass] classPath flags := by
  have hwalk : walk classPath Char.toLower "shop/Main" "call" = .ok walkFromCall := by decide
  have hnone : NoneSkipped walkFromCall.methods [mainClass, helperClass, toolClass] classPath
      flags := by
    unfold NoneSkipped
    decide
  exact (weaves_exactly_iff hwalk flags _).2.1.2 hnone

end Jma
