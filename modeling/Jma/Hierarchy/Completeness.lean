import Jma.Hierarchy.CodeOrder

set_option autoImplicit false

/-! # Is every called method found?

The walk is meant to list every method that a chain of calls reaches from the entry. It misses the
calls made by a method of a class that was already listed, and those made by methods that are only
called from inside their own class. What it finds are the methods of the classes that are opened:
the root, and the classes called from bodies that are read. -/

namespace Jma

open MethodHierarchyUtil

/-! ## The demo -/

namespace Demo

def object : ClassFile where
  name := "java/lang/Object"
  superclass := none
  isInterface := false
  methods := [⟨"<init>", "()V", []⟩]

/-- `Object.<init>`, which every constructor starts with. -/
def superInit : MethodInsn where
  owner := "java/lang/Object"
  name := "<init>"
  descriptor := "()V"

def printlnMethod : MethodDecl := ⟨"println", "(Ljava/lang/String;)V", []⟩

def printStream : ClassFile where
  name := "java/io/PrintStream"
  superclass := some "java/lang/Object"
  isInterface := false
  methods := [⟨"<init>", "()V", [superInit]⟩, printlnMethod]

def println : MethodInsn where
  owner := "java/io/PrintStream"
  name := "println"
  descriptor := "(Ljava/lang/String;)V"

def runC : MethodDecl := ⟨"runC", "()V", [println]⟩

/-- `ClassC` with the call of `println` in `runC`. -/
def classC : ClassFile where
  name := "org/dyq/demo/ClassC"
  superclass := some "java/lang/Object"
  isInterface := false
  methods := [⟨"<init>", "()V", [superInit]⟩, runC]

/-- `ClassB` with the constructor and `runB1`. -/
def classB : ClassFile where
  name := "org/dyq/demo/ClassB"
  superclass := some "org/dyq/demo/ClassC"
  isInterface := false
  methods :=
    [⟨"<init>", "()V", [{ owner := "org/dyq/demo/ClassC", name := "<init>", descriptor := "()V" }]⟩,
     ⟨"runB1", "()V", [println]⟩]

/-- `runA` calls `runA1`, the constructor of `ClassB` and `runB1`. -/
def runA : MethodDecl where
  name := "runA"
  descriptor := "()V"
  body :=
    [{ owner := "org/dyq/demo/ClassA", name := "runA1", descriptor := "()V" },
     { owner := "org/dyq/demo/ClassB", name := "<init>", descriptor := "()V" },
     { owner := "org/dyq/demo/ClassB", name := "runB1", descriptor := "()V" }]

def runA1 : MethodDecl := ⟨"runA1", "()V", [println]⟩

def classA : ClassFile where
  name := "org/dyq/demo/ClassA"
  superclass := some "java/lang/Object"
  isInterface := false
  methods := [⟨"<init>", "()V", [superInit]⟩, runA, runA1]

/-- The demo program, without its pool, its sleeps and its other methods. -/
def classPath : ClassUniverse where
  classes := [object, printStream, classC, classB, classA]

/-- The set returned for `runA`: the bodies of `runA1` and `runB1` were not scanned. -/
def foundFromRunA : List CMethodInfo :=
  [⟨"org/dyq/demo/ClassA", "<init>", "()V"⟩, ⟨"org/dyq/demo/ClassA", "runA", "()V"⟩,
   ⟨"org/dyq/demo/ClassC", "runC", "()V"⟩, ⟨"org/dyq/demo/ClassB", "<init>", "()V"⟩,
   ⟨"org/dyq/demo/ClassC", "<init>", "()V"⟩, ⟨"java/lang/Object", "<init>", "()V"⟩,
   ⟨"org/dyq/demo/ClassB", "runB1", "()V"⟩, ⟨"org/dyq/demo/ClassA", "runA1", "()V"⟩]

/-- The walk from `runC`. -/
def walkFromRunC : Walk where
  methods :=
    [⟨"org/dyq/demo/ClassC", "<init>", "()V"⟩, ⟨"org/dyq/demo/ClassC", "runC", "()V"⟩,
     ⟨"java/io/PrintStream", "<init>", "()V"⟩,
     ⟨"java/io/PrintStream", "println", "(Ljava/lang/String;)V"⟩,
     ⟨"java/io/PrintStream", "println", "()V"⟩]
  visited := [("org/dyq/demo/ClassC", "runC"), ("java/io/PrintStream", "println")]
  scanned :=
    [⟨"org/dyq/demo/ClassC", "runC", "()V"⟩,
     ⟨"java/io/PrintStream", "println", "(Ljava/lang/String;)V"⟩]

end Demo

/-! ## What the walk finds -/

section

variable (U : ClassUniverse) (fold : Char → Char) (root name : String)

/-- An opened class declares the method `m` of `d`, or has it listed because `d` is a superclass. -/
def InOpened (d : ClassFile) (m : MethodDecl) : Prop :=
  ∃ c n, Opened U fold root name c n ∧ (c = d.name ∨ SuperMethod U c d m)

/-- The walk follows the call `insn`, in the method `m` of `c`, to the method `m'` of `d`: the body
    of `m` is read, the call leaves the class, and no initialiser of a superclass is called. -/
def FollowedTo (c : ClassFile) (m : MethodDecl) (insn : MethodInsn) (d : ClassFile)
    (m' : MethodDecl) : Prop :=
  Read U fold root name c.name m ∧ Leaves fold c.name m insn ∧
    (d.name = insn.owner ∨ m'.isInit = false)

/-- What is asked for, and each call of a reachable method that the walk does not follow, is a
    method of a class that is opened all the same. -/
structure Covered : Prop where
  entry : ∀ c m, U.classReader root = .ok c → m ∈ c.methods → m.name = name →
    InOpened U fold root name c m
  calls : ∀ c m insn o d m', U.Reachable root name c m → insn ∈ m.body →
    U.find? insn.owner = some o → U.Resolves insn.name insn.descriptor o d m' →
      ¬FollowedTo U fold root name c m insn d m' → InOpened U fold root name d m'

end

section

variable {U : ClassUniverse} {fold : Char → Char} {root name : String} {w : Walk}

theorem FollowedTo.inOpened {c o d : ClassFile} {m m' : MethodDecl} {insn : MethodInsn}
    (h : FollowedTo U fold root name c m insn d m') (ho : U.find? insn.owner = some o)
    (hres : U.Resolves insn.name insn.descriptor o d m') : InOpened U fold root name d m' := by
  obtain ⟨hread, hl, hd⟩ := h
  have hopened : Opened U fold root name insn.owner insn.name :=
    Or.inr ⟨c.name, m, insn, hread, hl, rfl, rfl⟩
  obtain ⟨hmem, hname⟩ := ClassUniverse.mem_of_find? ho
  refine ⟨insn.owner, insn.name, hopened, ?_⟩
  rcases hres.eq_or_superclass with rfl | hsuper
  · exact Or.inl hname.symm
  · refine hd.imp Eq.symm (fun hinit => ⟨o, ?_, hsuper, ?_⟩)
    · rw [← hname]
      exact ClassUniverse.classReader_name hmem
    · exact ClassFile.mem_getDeclaredMethods.2 ⟨(hres.declared hmem).2, hinit⟩

/-- Then every reachable method is one of an opened class. -/
theorem covered_iff : Covered U fold root name ↔
    ∀ d m, U.Reachable root name d m → InOpened U fold root name d m := by
  constructor
  · intro h d m hreach
    cases hreach with
    | root hc hm hname => exact h.entry _ _ hc hm hname
    | call hreach hinsn ho hres =>
        by_contra hnot
        exact hnot (h.calls _ _ _ _ _ _ hreach hinsn ho hres
          (fun hfollowed => hnot (hfollowed.inOpened ho hres)))
  · intro h
    exact ⟨fun c m hc hm hname => h c m (.root hc hm hname),
      fun c m insn o d m' hreach hinsn ho hres _ => h d m' (hreach.call hinsn ho hres)⟩

theorem mem_methods_iff (h : walk U fold root name = .ok w) {d : ClassFile} {m : MethodDecl}
    (hd : d ∈ U.classes) (hm : m ∈ d.methods) :
    .of d.name m ∈ w.methods ↔ InOpened U fold root name d m := by
  simp only [(walk_finished h).mem_methods hd hm, InOpened, visited_iff_opened h]

/-- **What the walk finds.** The result is complete exactly when the methods asked for, and those
    that reachable methods call where the walk does not follow, are methods of classes that are
    opened all the same. Where each requested body is `Isolated`, the opened classes are the
    requested ones. -/
theorem complete_iff_covered (h : walk U fold root name = .ok w) :
    readClassMethodHierarchy U fold root name = .ok w.methods ∧
    (Complete U root name w.methods ↔ Covered U fold root name) ∧
    (Isolated U fold root name → (Covered U fold root name ↔ Closed U fold root name)) := by
  refine ⟨readClassMethodHierarchy_of_walk h, ?_, fun hiso => ?_⟩
  · rw [covered_iff]
    constructor
    · intro hcomplete d m hreach
      obtain ⟨hd, hm⟩ := hreach.declared
      exact (mem_methods_iff h hd hm).1 (hcomplete d m hreach)
    · intro hall d m hreach
      obtain ⟨hd, hm⟩ := hreach.declared
      exact (mem_methods_iff h hd hm).2 (hall d m hreach)
  · simp only [covered_iff, Closed, InOpened, hiso.opened_iff h]

end

section

open Demo

/-- The demo's own entry: `runA` calls `runA1`, which calls `println`, and `println` is not
    found. -/
theorem demo_not_complete : ∃ methods,
    readClassMethodHierarchy classPath Char.toLower "org/dyq/demo/ClassA" "runA" = .ok methods ∧
      ¬Complete classPath "org/dyq/demo/ClassA" "runA" methods := by
  refine ⟨foundFromRunA, by decide +kernel, fun hcomplete => ?_⟩
  have hrunA : classPath.Reachable "org/dyq/demo/ClassA" "runA" classA runA :=
    .root (by decide) (by decide) rfl
  have hrunA1 : classPath.Reachable "org/dyq/demo/ClassA" "runA" classA runA1 :=
    hrunA.call List.mem_cons_self (o := classA) (by decide) (.here (by decide) rfl rfl)
  have hprintln : classPath.Reachable "org/dyq/demo/ClassA" "runA" printStream printlnMethod :=
    hrunA1.call List.mem_cons_self (o := printStream) (by decide) (.here (by decide) rfl rfl)
  exact absurd (hcomplete _ _ hprintln) (by decide)

end

open OrderDemo

/-- From `first` all that is reachable is found, though `Main` is opened under two names. -/
theorem order_first_complete :
    readClassMethodHierarchy classPath Char.toLower "demo/Main" "first"
        = .ok walkFromFirst.methods ∧
      Complete classPath "demo/Main" "first" walkFromFirst.methods := by
  have hwalk : walk classPath Char.toLower "demo/Main" "first" = .ok walkFromFirst := by decide
  obtain ⟨hfound, hcomplete, -⟩ := complete_iff_covered hwalk
  refine ⟨hfound, hcomplete.2 (covered_iff.2 fun d m hreach => ?_)⟩
  have hreachable : (d, m) ∈ [(main [first, second], first), (helper, help),
      (main [first, second], second), (leaf, leafMethod)] :=
    hreach.mem_of_callsWithin (by decide) (by decide)
  have hopened : ∀ x ∈ [(main [first, second], first), (helper, help),
      (main [first, second], second), (leaf, leafMethod)],
      ∃ v ∈ walkFromFirst.visited, v.1 = x.1.name := by decide
  obtain ⟨v, hv, hname⟩ := hopened _ hreachable
  exact ⟨v.1, v.2, (visited_iff_opened hwalk).1 hv, Or.inl hname⟩

end Jma
