import Jma.JavaString
import Mathlib.Data.List.Nodup

set_option autoImplicit false

/-! # The classes the call-graph walk reads

A class universe is what the class path of the target JVM holds: class files with their declared
methods, each method body reduced to its invoke instructions. `forName` and `classReader` are the
two ways into it, reflection by binary name and ASM by internal name; `Resolves` and `Reachable` say
what the instructions mean, without any reference to the walk.

The class files implement no interfaces, and every type that a method's descriptor names can be
loaded. So a class is loaded, and its methods are listed, whenever its superclasses are there. -/

namespace Jma

/-- An invoke instruction; `owner` is an internal name. -/
structure MethodInsn where
  owner : String
  name : String
  descriptor : String
  internal : '.' ∉ owner.toList := by decide
  deriving DecidableEq

/-- A declared method with the invoke instructions of its body, in code order. -/
structure MethodDecl where
  name : String
  descriptor : String
  body : List MethodInsn
  deriving DecidableEq

namespace MethodDecl

/-- Constructors and class initialisers, which `Class.getDeclaredMethods` leaves out. -/
def isInit (m : MethodDecl) : Bool := m.name == "<init>" || m.name == "<clinit>"

/-- What identifies a method inside its class. -/
def signature (m : MethodDecl) : String × String := (m.name, m.descriptor)

end MethodDecl

/-- A class file. `superclass` is what `Class.getSuperclass` returns: `none` for `java/lang/Object`
    and for interfaces. No class file declares two methods of one name and descriptor. -/
structure ClassFile where
  /-- The internal name, `java/lang/String`. -/
  name : String
  superclass : Option String
  isInterface : Bool
  /-- The declared methods, in class-file order. -/
  methods : List MethodDecl
  internal : '.' ∉ name.toList := by decide
  distinct : (methods.map MethodDecl.signature).Nodup := by decide
  deriving DecidableEq

namespace ClassFile

/-- `Class.getName`: `java.lang.String`. -/
def getName (c : ClassFile) : String := replaceAll c.name '/' '.'

/-- `Class.getDeclaredMethods`, taken to list the methods in class-file order. -/
def getDeclaredMethods (c : ClassFile) : List MethodDecl := c.methods.filter (fun m => !m.isInit)

theorem mem_getDeclaredMethods {c : ClassFile} {m : MethodDecl} :
    m ∈ c.getDeclaredMethods ↔ m ∈ c.methods ∧ m.isInit = false := by
  simp [getDeclaredMethods]

theorem replaceAll_getName (c : ClassFile) : replaceAll c.getName '.' '/' = c.name :=
  replaceAll_cancel c.internal

/-- A declared method is determined by its name and descriptor. -/
theorem eq_of_signature {c : ClassFile} {m m' : MethodDecl} (hm : m ∈ c.methods)
    (hm' : m' ∈ c.methods) (hname : m.name = m'.name) (hdesc : m.descriptor = m'.descriptor) :
    m = m' :=
  List.inj_on_of_nodup_map c.distinct hm hm' (Prod.ext hname hdesc)

end ClassFile

/-- A finite class path; a class is found under one name. -/
structure ClassUniverse where
  classes : List ClassFile
  distinct : (classes.map ClassFile.name).Nodup := by decide

/-- What the walk can throw. -/
inductive Throwable where
  /-- `new ClassReader` finds no resource of that name. -/
  | ioException
  | classNotFoundException
  /-- A superclass is missing while a class is linked. -/
  | noClassDefFoundError
  | classCircularityError
  /-- A superclass is an interface. -/
  | incompatibleClassChangeError
  /-- Not a throwable of the code: the bound on the nesting of visitors is used up. -/
  | outOfFuel
  deriving DecidableEq, Repr

/-- A loaded class: its file and the chain of `Class.getSuperclass`, nearest first. -/
structure Clazz where
  file : ClassFile
  superclasses : List ClassFile

namespace ClassUniverse

def find? (U : ClassUniverse) (name : String) : Option ClassFile :=
  U.classes.find? (fun c => c.name = name)

/-- `new ClassReader(className)`: reads the resource `className.replace('.', '/') + ".class"`. -/
def classReader (U : ClassUniverse) (className : String) : Except Throwable ClassFile :=
  match U.find? (replaceAll className '.' '/') with
  | some c => .ok c
  | none => .error .ioException

/-- The superclasses that the JVM links when it loads `c`, nearest first. A chain that is longer
    than the universe has classes runs in a circle. -/
def linkSuperclasses (U : ClassUniverse) : Nat → ClassFile → Except Throwable (List ClassFile)
  | 0, _ => .error .classCircularityError
  | fuel + 1, c =>
      match c.superclass with
      | none => .ok []
      | some name =>
          match U.find? name with
          | none => .error .noClassDefFoundError
          | some s =>
              if s.isInterface then .error .incompatibleClassChangeError
              else (U.linkSuperclasses fuel s).map (s :: ·)

/-- `Class.forName(className)`, by binary name. Besides the class it needs only superclasses, as
    no class file implements an interface. -/
def forName (U : ClassUniverse) (className : String) : Except Throwable Clazz :=
  match U.classes.find? (fun c => c.getName = className) with
  | none => .error .classNotFoundException
  | some c => (U.linkSuperclasses U.classes.length c).map (Clazz.mk c)

/-! ## Looking up a class -/

theorem mem_of_find? {U : ClassUniverse} {name : String} {c : ClassFile}
    (h : U.find? name = some c) : c ∈ U.classes ∧ c.name = name :=
  ⟨List.mem_of_find?_eq_some h, by simpa using List.find?_some h⟩

theorem find?_of_mem {U : ClassUniverse} {c : ClassFile} (h : c ∈ U.classes) :
    U.find? c.name = some c := by
  cases hf : U.find? c.name with
  | none => exact absurd (decide_eq_true rfl) (List.find?_eq_none.1 hf c h)
  | some c' =>
      obtain ⟨hmem, hname⟩ := mem_of_find? hf
      rw [List.inj_on_of_nodup_map U.distinct hmem h hname]

theorem classReader_eq_ok {U : ClassUniverse} {className : String} {c : ClassFile} :
    U.classReader className = .ok c ↔ U.find? (replaceAll className '.' '/') = some c := by
  unfold classReader
  cases U.find? (replaceAll className '.' '/') <;> simp

theorem mem_of_classReader {U : ClassUniverse} {className : String} {c : ClassFile}
    (h : U.classReader className = .ok c) : c ∈ U.classes ∧ c.name = replaceAll className '.' '/' :=
  mem_of_find? (classReader_eq_ok.1 h)

/-- A class of the universe is read back under its own name. -/
theorem classReader_name {U : ClassUniverse} {c : ClassFile} (h : c ∈ U.classes) :
    U.classReader c.name = .ok c := by
  rw [classReader_eq_ok, replaceAll_of_not_mem c.internal, find?_of_mem h]

/-- Reflection finds the class that ASM reads. -/
theorem find?_getName (U : ClassUniverse) (className : String) :
    U.classes.find? (fun c => c.getName = replaceAll className '/' '.')
      = U.find? (replaceAll className '.' '/') := by
  unfold find?
  congr 1
  funext c
  rw [decide_eq_decide, ClassFile.getName]
  constructor
  · intro h
    rw [← c.replaceAll_getName, ClassFile.getName, h, replaceAll_replaceAll]
  · intro h
    rw [h, replaceAll_replaceAll]

/-- `U.Superclass c s`: `s` is a proper superclass of `c`. -/
inductive Superclass (U : ClassUniverse) : ClassFile → ClassFile → Prop
  | direct {c s : ClassFile} {name : String} (hname : c.superclass = some name)
      (hs : U.find? name = some s) : Superclass U c s
  | further {c s t : ClassFile} {name : String} (hname : c.superclass = some name)
      (hs : U.find? name = some s) (ht : Superclass U s t) : Superclass U c t

theorem Superclass.mem {U : ClassUniverse} {c t : ClassFile} (h : U.Superclass c t) :
    t ∈ U.classes := by
  induction h with
  | direct _ hs => exact (mem_of_find? hs).1
  | further _ _ _ ih => exact ih

/-- What linking returns are the proper superclasses, and no interface is among them. -/
theorem mem_linkSuperclasses {U : ClassUniverse} {fuel : Nat} {c : ClassFile}
    {chain : List ClassFile} (h : U.linkSuperclasses fuel c = .ok chain) :
    ∀ t, (t ∈ chain ↔ U.Superclass c t) ∧ (t ∈ chain → t.isInterface = false) := by
  induction fuel generalizing c chain with
  | zero => simp [linkSuperclasses] at h
  | succ fuel ih =>
      rw [linkSuperclasses] at h
      cases hsuper : c.superclass with
      | none =>
          rw [hsuper] at h
          cases h
          refine fun t => ⟨⟨fun ht => absurd ht (List.not_mem_nil), fun ht => ?_⟩, by simp⟩
          cases ht <;> simp_all
      | some name =>
          simp only [hsuper] at h
          cases hs : U.find? name with
          | none => simp [hs] at h
          | some s =>
              simp only [hs] at h
              by_cases hi : s.isInterface = true
              · simp [hi] at h
              · rw [if_neg hi] at h
                cases hrest : U.linkSuperclasses fuel s with
                | error e => simp [hrest, Except.map] at h
                | ok rest =>
                    simp only [hrest, Except.map, Except.ok.injEq] at h
                    subst h
                    intro t
                    obtain ⟨hmem, hclass⟩ := ih hrest t
                    refine ⟨?_, ?_⟩
                    · rw [List.mem_cons, hmem]
                      constructor
                      · rintro (rfl | ht)
                        · exact .direct hsuper hs
                        · exact .further hsuper hs ht
                      · rintro (⟨hname, hs'⟩ | ⟨hname, hs', ht⟩)
                        · exact Or.inl (by simp_all)
                        · exact Or.inr (by simp_all)
                    · intro ht
                      rcases List.mem_cons.1 ht with rfl | ht
                      · simpa using hi
                      · exact hclass ht

/-- A class that loads is the one ASM reads under the same name, with its superclasses. -/
theorem forName_eq_ok {U : ClassUniverse} {className : String} {clazz : Clazz}
    (h : U.forName (replaceAll className '/' '.') = .ok clazz) :
    U.classReader className = .ok clazz.file ∧
      (∀ t, t ∈ clazz.superclasses ↔ U.Superclass clazz.file t) ∧
      ∀ t ∈ clazz.superclasses, t.isInterface = false := by
  rw [forName, find?_getName] at h
  cases hf : U.find? (replaceAll className '.' '/') with
  | none => simp [hf] at h
  | some c =>
      simp only [hf] at h
      cases hlink : U.linkSuperclasses U.classes.length c with
      | error e => simp [hlink, Except.map] at h
      | ok chain =>
          simp only [hlink, Except.map, Except.ok.injEq] at h
          subst h
          exact ⟨classReader_eq_ok.2 hf, fun t => (mem_linkSuperclasses hlink t).1,
            fun t => (mem_linkSuperclasses hlink t).2⟩

/-! ## What the instructions mean -/

/-- `U.Resolves name descriptor c d m`: looking for a method of that name and descriptor in `c` and
    then in its superclasses finds `m`, declared by `d`. -/
inductive Resolves (U : ClassUniverse) (name descriptor : String) :
    ClassFile → ClassFile → MethodDecl → Prop
  | here {c : ClassFile} {m : MethodDecl} (hm : m ∈ c.methods) (hname : m.name = name)
      (hdesc : m.descriptor = descriptor) : Resolves U name descriptor c c m
  | super {c s d : ClassFile} {m : MethodDecl} {superName : String}
      (hnot : ∀ m ∈ c.methods, ¬(m.name = name ∧ m.descriptor = descriptor))
      (hname : c.superclass = some superName) (hs : U.find? superName = some s)
      (h : Resolves U name descriptor s d m) : Resolves U name descriptor c d m

/-- `U.Reachable root name d m`: a chain of invoke instructions leads from a method called `name` of
    the class `root` to the method `m` declared by `d`. -/
inductive Reachable (U : ClassUniverse) (root name : String) : ClassFile → MethodDecl → Prop
  | root {c : ClassFile} {m : MethodDecl} (hc : U.classReader root = .ok c) (hm : m ∈ c.methods)
      (hname : m.name = name) : Reachable U root name c m
  | call {c o d : ClassFile} {m m' : MethodDecl} {insn : MethodInsn}
      (h : Reachable U root name c m) (hinsn : insn ∈ m.body)
      (ho : U.find? insn.owner = some o)
      (hres : U.Resolves insn.name insn.descriptor o d m') : Reachable U root name d m'

theorem Resolves.declared {U : ClassUniverse} {name descriptor : String} {c d : ClassFile}
    {m : MethodDecl} (h : U.Resolves name descriptor c d m) (hc : c ∈ U.classes) :
    d ∈ U.classes ∧ m ∈ d.methods := by
  induction h with
  | here hm _ _ => exact ⟨hc, hm⟩
  | super _ _ hs _ ih => exact ih (mem_of_find? hs).1

/-- A reachable method is a method of the class that declares it. -/
theorem Reachable.declared {U : ClassUniverse} {root name : String} {d : ClassFile}
    {m : MethodDecl} (h : U.Reachable root name d m) : d ∈ U.classes ∧ m ∈ d.methods := by
  cases h with
  | root hc hm _ => exact ⟨(mem_of_classReader hc).1, hm⟩
  | call _ _ ho hres => exact hres.declared (mem_of_find? ho).1

/-- What is not found in the class is found in a superclass. -/
theorem Resolves.eq_or_superclass {U : ClassUniverse} {name descriptor : String} {c d : ClassFile}
    {m : MethodDecl} (h : U.Resolves name descriptor c d m) : d = c ∨ U.Superclass c d := by
  induction h with
  | here _ _ _ => exact Or.inl rfl
  | super _ hname hs _ ih =>
      rcases ih with rfl | ih
      · exact Or.inr (.direct hname hs)
      · exact Or.inr (.further hname hs ih)

/-- Where the class itself has such a method, the search ends there. -/
theorem Resolves.eq_of_mem {U : ClassUniverse} {c d : ClassFile} {m m' : MethodDecl}
    (h : U.Resolves m.name m.descriptor c d m') (hm : m ∈ c.methods) : d = c ∧ m' = m := by
  cases h with
  | here hm' hname hdesc => exact ⟨rfl, ClassFile.eq_of_signature hm' hm hname hdesc⟩
  | super hnot _ _ _ => exact absurd ⟨rfl, rfl⟩ (hnot m hm)

/-- Each class that `m` calls has the called method itself, and it is in `l`. -/
def CallsWithin (U : ClassUniverse) (l : List (ClassFile × MethodDecl)) (m : MethodDecl) : Prop :=
  ∀ insn ∈ m.body, ∀ c ∈ U.classes, c.name = insn.owner →
    ∃ m' ∈ c.methods, m'.name = insn.name ∧ m'.descriptor = insn.descriptor ∧ (c, m') ∈ l

instance (U : ClassUniverse) (l : List (ClassFile × MethodDecl)) (m : MethodDecl) :
    Decidable (U.CallsWithin l m) := by
  unfold CallsWithin
  infer_instance

/-- What contains the methods asked for, and all that its methods call, contains every reachable
    method. -/
theorem Reachable.mem_of_callsWithin {U : ClassUniverse} {root name : String} {d : ClassFile}
    {m : MethodDecl} {l : List (ClassFile × MethodDecl)} (h : U.Reachable root name d m)
    (hroot : ∀ c ∈ U.classes, c.name = replaceAll root '.' '/' → ∀ m ∈ c.methods, m.name = name →
      (c, m) ∈ l)
    (hcalls : ∀ x ∈ l, U.CallsWithin l x.2) : (d, m) ∈ l := by
  induction h with
  | root hc hm hname =>
      obtain ⟨hmem, hcname⟩ := mem_of_classReader hc
      exact hroot _ hmem hcname _ hm hname
  | call _ hinsn ho hres ih =>
      obtain ⟨hmem, howner⟩ := mem_of_find? ho
      obtain ⟨m', hm', hname, hdesc, hl⟩ := hcalls _ ih _ hinsn _ hmem howner
      rw [← hname, ← hdesc] at hres
      obtain ⟨rfl, rfl⟩ := hres.eq_of_mem hm'
      exact hl

end ClassUniverse

end Jma
