import Jma.Hierarchy.ClassUniverse
import Jma.Lib.Outcome
import Mathlib.Logic.Relation

set_option autoImplicit false

/-! # `readClassMethodHierarchy`

The call-graph walk. A `HierarchyClassVisitor` reads one class file and looks for the methods of one
name; each instruction of such a method that leaves the class creates a nested visitor for the
owner. All visitors share one set, which is there when a visitor throws, too. The recursion is
bounded by `fuel`, the nesting of visitors still allowed. -/

namespace Jma

structure CMethodInfo where
  /-- `java/lang/String`. -/
  cClassName : String
  methodName : String
  /-- `(II)I`. -/
  descriptor : String
  deriving DecidableEq, Repr

/-- `new CMethodInfo(cName, name, descriptor)` for a declared method. -/
def CMethodInfo.of (cName : String) (m : MethodDecl) : CMethodInfo :=
  ⟨cName, m.name, m.descriptor⟩

theorem CMethodInfo.of_injective {cName : String} {c : ClassFile} {m m' : MethodDecl}
    (hm : m ∈ c.methods) (hm' : m' ∈ c.methods) (h : of cName m = of cName m') : m = m' := by
  simp only [of, CMethodInfo.mk.injEq, true_and] at h
  exact ClassFile.eq_of_signature hm hm' h.1 h.2

/-- The state of a walk. `methods` is the shared `LinkedHashSet`; the other two fields only record
    what happened: the visitors created, by class and method name, and the methods whose body was
    scanned. -/
structure Walk where
  methods : List CMethodInfo
  visited : List (String × String)
  scanned : List CMethodInfo
  deriving DecidableEq

namespace Walk

def initial : Walk := ⟨[], [], []⟩

/-- `methods.add(info)`. -/
def add (w : Walk) (info : CMethodInfo) : Walk :=
  if info ∈ w.methods then w else { w with methods := w.methods ++ [info] }

def enter (w : Walk) (cName mName : String) : Walk :=
  { w with visited := w.visited ++ [(cName, mName)] }

def scan (w : Walk) (info : CMethodInfo) : Walk :=
  { w with scanned := w.scanned ++ [info] }

@[simp] theorem mem_add {w : Walk} {info e : CMethodInfo} :
    e ∈ (w.add info).methods ↔ e ∈ w.methods ∨ e = info := by
  unfold add
  split
  · exact ⟨Or.inl, fun h => h.elim id (fun he => he ▸ ‹_›)⟩
  · simp

@[simp] theorem visited_add (w : Walk) (info : CMethodInfo) : (w.add info).visited = w.visited := by
  unfold add
  split <;> rfl

@[simp] theorem scanned_add (w : Walk) (info : CMethodInfo) : (w.add info).scanned = w.scanned := by
  unfold add
  split <;> rfl

@[simp] theorem methods_enter (w : Walk) (cName mName : String) :
    (w.enter cName mName).methods = w.methods := rfl

@[simp] theorem visited_enter (w : Walk) (cName mName : String) :
    (w.enter cName mName).visited = w.visited ++ [(cName, mName)] := rfl

@[simp] theorem scanned_enter (w : Walk) (cName mName : String) :
    (w.enter cName mName).scanned = w.scanned := rfl

@[simp] theorem methods_scan (w : Walk) (info : CMethodInfo) : (w.scan info).methods = w.methods :=
  rfl

@[simp] theorem visited_scan (w : Walk) (info : CMethodInfo) : (w.scan info).visited = w.visited :=
  rfl

@[simp] theorem scanned_scan (w : Walk) (info : CMethodInfo) :
    (w.scan info).scanned = w.scanned ++ [info] := rfl

theorem mem_visited_enter {w : Walk} {cName mName : String} {v : String × String} :
    v ∈ (w.enter cName mName).visited ↔ v ∈ w.visited ∨ v = (cName, mName) := by
  simp

/-- What is scanned after a method was listed and its body scanned. -/
theorem mem_scanned_scan_add {w : Walk} {info e : CMethodInfo} :
    e ∈ ((w.add info).scan info).scanned ↔ e ∈ w.scanned ∨ e = info := by
  simp

@[simp] theorem mem_foldl_add {l : List CMethodInfo} {w : Walk} {e : CMethodInfo} :
    e ∈ (l.foldl add w).methods ↔ e ∈ w.methods ∨ e ∈ l := by
  induction l generalizing w with
  | nil => simp
  | cons info rest ih => rw [List.foldl_cons, ih, mem_add, List.mem_cons, or_assoc]

@[simp] theorem visited_foldl_add (l : List CMethodInfo) (w : Walk) :
    (l.foldl add w).visited = w.visited := by
  induction l generalizing w with
  | nil => rfl
  | cons info rest ih => rw [List.foldl_cons, ih, visited_add]

@[simp] theorem scanned_foldl_add (l : List CMethodInfo) (w : Walk) :
    (l.foldl add w).scanned = w.scanned := by
  induction l generalizing w with
  | nil => rfl
  | cons info rest ih => rw [List.foldl_cons, ih, scanned_add]

end Walk

/-- `AdviceUtil.getAllSuperClasses`: the loop skips interfaces. -/
def AdviceUtil.getAllSuperClasses (clazz : Clazz) : List ClassFile :=
  clazz.superclasses.filter (fun c => !c.isInterface)

/-- Both ways into the universe find the class: `new ClassReader(cName)` and `Class.forName`. -/
def Loadable (U : ClassUniverse) (cName : String) : Prop :=
  (∃ c, U.classReader cName = .ok c) ∧ ∃ clazz, U.forName (replaceAll cName '/' '.') = .ok clazz

namespace HierarchyClassVisitor

variable (U : ClassUniverse) (fold : Char → Char)

/-- The methods that the constructor lists: those declared by the superclasses. -/
def superMethods (clazz : Clazz) : List CMethodInfo :=
  (AdviceUtil.getAllSuperClasses clazz).flatMap (fun aClass =>
    aClass.getDeclaredMethods.map (fun method =>
      ⟨replaceAll aClass.getName '.' '/', method.name, method.descriptor⟩))

/-- The constructor. -/
def init (cName mName : String) (w : Walk) : Outcome Throwable Walk :=
  match U.forName (replaceAll cName '/' '.') with
  | .error e => .throw e w
  | .ok clazz => .ret ((superMethods clazz).foldl Walk.add (w.enter cName mName))

/-- `visitMethodInsn` of the method visitor for a method of `cName` with descriptor `descriptor`.
    The entry added after the nested visit carries the descriptor of the calling method. -/
def visitMethodInsn (nested : String → String → Walk → Outcome Throwable Walk)
    (cName descriptor : String) (w : Walk) (insn : MethodInsn) : Outcome Throwable Walk :=
  if !equalsIgnoreCase fold insn.owner cName then
    (nested insn.owner insn.name w).andThen
      (fun w => .ret (w.add ⟨insn.owner, insn.name, descriptor⟩))
  else .ret w

/-- `visitMethod`, with the pass over the body when it returns a method visitor. -/
def visitMethod (nested : String → String → Walk → Outcome Throwable Walk) (cName mName : String)
    (w : Walk) (m : MethodDecl) : Outcome Throwable Walk :=
  let cMethodInfo := CMethodInfo.of cName m
  -- a listed method gets no method visitor, so its body is not read, sought or not
  if cMethodInfo ∈ w.methods then .ret w
  else if m.name ≠ mName then .ret (w.add cMethodInfo)
  else Outcome.forEach (visitMethodInsn fold nested cName m.descriptor)
    ((w.add cMethodInfo).scan cMethodInfo) m.body

/-- Reading the class `cName` with a new visitor for the methods called `mName`. -/
def accept : Nat → String → String → Walk → Outcome Throwable Walk
  | 0, _, _, w => .throw .outOfFuel w
  | fuel + 1, cName, mName, w =>
      match U.classReader cName with
      | .error e => .throw e w
      | .ok classReader =>
          (init U cName mName w).andThen
            (fun w => Outcome.forEach (visitMethod fold (accept fuel) cName mName) w
              classReader.methods)

section

variable {U fold} {nested : String → String → Walk → Outcome Throwable Walk} {w : Walk}

theorem visitMethodInsn_of_same {cName descriptor : String} {insn : MethodInsn}
    (h : equalsIgnoreCase fold insn.owner cName = true) :
    visitMethodInsn fold nested cName descriptor w insn = .ret w := by
  simp [visitMethodInsn, h]

theorem visitMethodInsn_of_ne {cName descriptor : String} {insn : MethodInsn}
    (h : equalsIgnoreCase fold insn.owner cName = false) :
    visitMethodInsn fold nested cName descriptor w insn =
      (nested insn.owner insn.name w).andThen
        (fun w => .ret (w.add ⟨insn.owner, insn.name, descriptor⟩)) := by
  simp [visitMethodInsn, h]

theorem visitMethod_of_mem {cName mName : String} {m : MethodDecl}
    (h : CMethodInfo.of cName m ∈ w.methods) :
    visitMethod fold nested cName mName w m = .ret w :=
  if_pos h

theorem visitMethod_of_name_ne {cName mName : String} {m : MethodDecl}
    (h : CMethodInfo.of cName m ∉ w.methods) (hname : m.name ≠ mName) :
    visitMethod fold nested cName mName w m = .ret (w.add (.of cName m)) := by
  simp [visitMethod, h, hname]

theorem visitMethod_of_sought {cName : String} {m : MethodDecl}
    (h : CMethodInfo.of cName m ∉ w.methods) :
    visitMethod fold nested cName m.name w m =
      Outcome.forEach (visitMethodInsn fold nested cName m.descriptor)
        ((w.add (.of cName m)).scan (.of cName m)) m.body := by
  simp [visitMethod, h]

theorem accept_of_loadable {fuel : Nat} {cName mName : String} {c : ClassFile} {clazz : Clazz}
    (hread : U.classReader cName = .ok c)
    (hload : U.forName (replaceAll cName '/' '.') = .ok clazz) :
    accept U fold (fuel + 1) cName mName w =
      Outcome.forEach (visitMethod fold (accept U fold fuel) cName mName)
        ((superMethods clazz).foldl Walk.add (w.enter cName mName)) c.methods := by
  simp only [accept, hread, init, hload, Outcome.ret_andThen]

/-- A class that is not found makes its visitor throw at once. -/
theorem accept_of_not_loadable {cName : String} (h : ¬Loadable U cName) :
    ∃ e, ∀ fuel mName w, accept U fold (fuel + 1) cName mName w = .throw e w := by
  cases hread : U.classReader cName with
  | error e => exact ⟨e, fun fuel n w => by simp only [accept, hread]⟩
  | ok cf =>
      cases hload : U.forName (replaceAll cName '/' '.') with
      | error e =>
          refine ⟨e, fun fuel n w => ?_⟩
          simp only [accept, hread, init, hload]
          rfl
      | ok clazz => exact absurd ⟨⟨cf, hread⟩, clazz, hload⟩ h

end

end HierarchyClassVisitor

/-- The methods that class files of the universe declare. -/
def ClassUniverse.declared (U : ClassUniverse) : List CMethodInfo :=
  U.classes.flatMap (fun c => c.methods.map (CMethodInfo.of c.name))

namespace MethodHierarchyUtil

/-- The walk from the methods of `root` called `name`, with the state at a throw. -/
def trace (U : ClassUniverse) (fold : Char → Char) (root name : String) : Outcome Throwable Walk :=
  HierarchyClassVisitor.accept U fold (U.declared.length + 2) root name .initial

/-- The walk from the methods of `root` called `name`. -/
def walk (U : ClassUniverse) (fold : Char → Char) (root name : String) : Except Throwable Walk :=
  (trace U fold root name).toExcept

/-- `readClassMethodHierarchy(root, name)`. -/
def readClassMethodHierarchy (U : ClassUniverse) (fold : Char → Char) (root name : String) :
    Except Throwable (List CMethodInfo) :=
  (walk U fold root name).map Walk.methods

theorem walk_eq_ok {U : ClassUniverse} {fold : Char → Char} {root name : String} {w : Walk} :
    walk U fold root name = .ok w ↔
      (trace U fold root name).thrown = none ∧ (trace U fold root name).state = w :=
  Outcome.toExcept_eq_ok

theorem readClassMethodHierarchy_of_walk {U : ClassUniverse} {fold : Char → Char}
    {root name : String} {w : Walk} (h : walk U fold root name = .ok w) :
    readClassMethodHierarchy U fold root name = .ok w.methods := by
  rw [readClassMethodHierarchy, h]
  rfl

end MethodHierarchyUtil

end Jma
