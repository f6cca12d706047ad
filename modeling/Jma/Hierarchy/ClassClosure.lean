import Jma.Hierarchy.Completeness

set_option autoImplicit false

/-! # The result is made of whole classes

A visitor may leave early for every method that is listed already, so what it lists depends on what
was listed before it came. At the end of the walk this no longer shows: with one method of a class
the whole class is in the result, with the methods of its superclasses. -/

namespace Jma

open MethodHierarchyUtil

section

variable (U : ClassUniverse) (fold : Char → Char) (root : String)

/-- The class is `root`, or a scanned body of another class calls one of its methods. -/
def VisitedClass (w : Walk) (c : String) : Prop :=
  c = root ∨ ∃ c' m insn, Declares U c' m ∧ CMethodInfo.of c' m ∈ w.scanned ∧
    Leaves fold c' m insn ∧ insn.owner = c

/-- The class `cName` has a proper superclass of the name `superName`. -/
def HasSuperclass (cName superName : String) : Prop :=
  ∃ c s, U.classReader cName = .ok c ∧ U.Superclass c s ∧ s.name = superName

end

section

variable {U : ClassUniverse} {fold : Char → Char} {root name : String} {w : Walk}

theorem Called.visitedClass {o k : String} (h : Called U fold w o k) :
    VisitedClass U fold root w o := by
  obtain ⟨c, m, insn, hm, -, hs, hl, ho, -⟩ := h
  exact Or.inr ⟨c, m, insn, hm, hs, hl, ho⟩

/-- Every visitor is one for a visited class. -/
theorem steps_visitedClass (h : Relation.ReflTransGen (Step U fold root name) .initial w) :
    ∀ v ∈ w.visited, VisitedClass U fold root w v.1 := by
  intro v hv
  rcases steps_wanted h v hv with ⟨hroot, -⟩ | hcall
  · exact Or.inl hroot
  · exact hcall.visitedClass

/-- Every visited class has a visitor, which has listed it when the walk returns. -/
theorem Finished.listed_of_visitedClass (h : Finished U fold root name w) {c : String}
    (hc : VisitedClass U fold root w c) : Listed U w c := by
  rcases hc with rfl | ⟨c', m, insn, hm, hs, hl, rfl⟩
  · exact h.listed c name h.root
  · exact h.listed insn.owner insn.name (h.followed _ hs c' m insn hm rfl hl).1

/-- An entry comes from a visitor of its class or of a subclass, or from a call. -/
theorem Justified.visitedClass {e : CMethodInfo}
    (hvisited : ∀ v ∈ w.visited, VisitedClass U fold root w v.1) (h : Justified U fold w e) :
    ∃ c, VisitedClass U fold root w c ∧ (e.cClassName = c ∨ HasSuperclass U c e.cClassName) := by
  rcases h with ⟨c, n, m, hv, -, rfl⟩ | ⟨c, n, s, m, hv, hs, rfl⟩ | hcall
  · exact ⟨c, hvisited _ hv, Or.inl rfl⟩
  · obtain ⟨cf, hread, hsuper, -⟩ := hs
    exact ⟨c, hvisited _ hv, Or.inr ⟨cf, s, hread, hsuper, rfl⟩⟩
  · exact ⟨e.cClassName, hcall.visitedClass, Or.inl rfl⟩

/-- **Whole classes.** When the walk returns, every method of a visited class is in the result, and
    every method, initialisers apart, of its superclasses; every call of another class from a
    scanned body has an entry; and there is no entry of another class. -/
theorem result_closed (h : walk U fold root name = .ok w) :
    readClassMethodHierarchy U fold root name = .ok w.methods ∧
    (∀ c, VisitedClass U fold root w c →
      (∀ m, Declares U c m → .of c m ∈ w.methods) ∧
        ∀ s m, SuperMethod U c s m → .of s.name m ∈ w.methods) ∧
    (∀ c m insn, Declares U c m → CMethodInfo.of c m ∈ w.scanned → Leaves fold c m insn →
      ∃ e ∈ w.methods, e.cClassName = insn.owner ∧ e.methodName = insn.name) ∧
    (∀ e ∈ w.methods, ∃ c, VisitedClass U fold root w c ∧
      (e.cClassName = c ∨ HasSuperclass U c e.cClassName)) := by
  have hfin := walk_finished h
  refine ⟨readClassMethodHierarchy_of_walk h, fun c hc => ?_, fun c m insn hm hs hl => ?_,
    fun e he => ?_⟩
  · have hlisted := hfin.listed_of_visitedClass hc
    exact ⟨hlisted.own, hlisted.super⟩
  · exact ⟨_, (hfin.followed _ hs c m insn hm rfl hl).2, rfl, rfl⟩
  · exact (steps_justified hfin.steps e he).visitedClass (steps_visitedClass hfin.steps)

end

open Demo

/-- The whole of `PrintStream` is in the result for `runC`, which calls `println` only. -/
theorem demo_runC_closed :
    VisitedClass classPath Char.toLower "org/dyq/demo/ClassC" walkFromRunC "java/io/PrintStream" ∧
      ∀ m, Declares classPath "java/io/PrintStream" m →
        .of "java/io/PrintStream" m ∈ walkFromRunC.methods := by
  have hwalk : walk classPath Char.toLower "org/dyq/demo/ClassC" "runC" = .ok walkFromRunC := by
    decide +kernel
  have hvisited : VisitedClass classPath Char.toLower "org/dyq/demo/ClassC" walkFromRunC
      "java/io/PrintStream" :=
    Or.inr ⟨"org/dyq/demo/ClassC", runC, println, mem_methodsOf.1 (by decide), by decide,
      ⟨by decide, by decide⟩, rfl⟩
  exact ⟨hvisited, ((result_closed hwalk).2.1 _ hvisited).1⟩

end Jma
