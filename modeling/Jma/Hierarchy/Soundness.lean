import Jma.Hierarchy.ReadBodies

set_option autoImplicit false

/-! # Does every entry exist?

Two of the three places that list a method list one that a class file declares. The third, after a
call, puts the descriptor of the calling method next to the name of the called one. -/

namespace Jma

open MethodHierarchyUtil

/-- The named class, or a superclass of it, declares a method of exactly this name and
    descriptor. -/
def IsDeclared (U : ClassUniverse) (e : CMethodInfo) : Prop :=
  ∃ c m, U.classReader e.cClassName = .ok c ∧ m.name = e.methodName ∧
    m.descriptor = e.descriptor ∧ (m ∈ c.methods ∨ ∃ s, U.Superclass c s ∧ m ∈ s.methods)

/-- What is listed after the call `insn` from the method `m`. -/
def callEntry (m : MethodDecl) (insn : MethodInsn) : CMethodInfo :=
  ⟨insn.owner, insn.name, m.descriptor⟩

section

variable (U : ClassUniverse) (fold : Char → Char)

/-- The owner of the call `insn`, or a superclass of it, declares a method with the name of the
    called method and the descriptor of the calling one, `m`. -/
def Fits (m : MethodDecl) (insn : MethodInsn) : Prop :=
  ∃ c m', U.classReader insn.owner = .ok c ∧ m'.name = insn.name ∧ m'.descriptor = m.descriptor ∧
    (m' ∈ c.methods ∨ ∃ s, U.Superclass c s ∧ m' ∈ s.methods)

/-- The entry was listed after a call from a scanned body. -/
def ListedByCall (w : Walk) (e : CMethodInfo) : Prop :=
  ∃ c m insn, Declares U c m ∧ CMethodInfo.of c m ∈ w.scanned ∧ Leaves fold c m insn ∧
    e = callEntry m insn

end

section

variable {U : ClassUniverse} {fold : Char → Char} {root name : String} {w : Walk}

theorem Declares.isDeclared {c : String} {m : MethodDecl} (h : Declares U c m) :
    IsDeclared U (.of c m) := by
  obtain ⟨cf, hread, hm⟩ := h
  exact ⟨cf, m, hread, rfl, rfl, Or.inl hm⟩

theorem SuperMethod.isDeclared {c : String} {s : ClassFile} {m : MethodDecl}
    (h : SuperMethod U c s m) : IsDeclared U (.of s.name m) := by
  obtain ⟨cf, -, hsuper, hm⟩ := h
  exact (declares_name hsuper.mem (ClassFile.mem_getDeclaredMethods.1 hm).1).isDeclared

theorem ListedByCall.mono {w' : Walk} {e : CMethodInfo} (hle : Walk.Le w w')
    (h : ListedByCall U fold w e) : ListedByCall U fold w' e := by
  obtain ⟨c, m, insn, hm, hs, hl, he⟩ := h
  exact ⟨c, m, insn, hm, hle.scanned hs, hl, he⟩

/-- Every entry exists or was listed after a call. -/
def Accounted (U : ClassUniverse) (fold : Char → Char) (w : Walk) : Prop :=
  ∀ e ∈ w.methods, IsDeclared U e ∨ ListedByCall U fold w e

theorem Accounted.add {info : CMethodInfo} (h : Accounted U fold w)
    (hinfo : IsDeclared U info ∨ ListedByCall U fold w info) : Accounted U fold (w.add info) := by
  intro e he
  rcases Walk.mem_add.1 he with he | rfl
  · exact (h e he).imp_right (ListedByCall.mono (w.le_add _))
  · exact hinfo.imp_right (ListedByCall.mono (w.le_add _))

theorem walkInvariant_accounted : WalkInvariant U fold root name (Accounted U fold) where
  enter _ _ hw e he := (hw e he).imp_right (ListedByCall.mono (Walk.le_enter _ _ _))
  super _ hs hw := hw.add (Or.inl hs.isDeclared)
  list _ hm hw := hw.add (Or.inl hm.isDeclared)
  scan _ hm _ hw e he :=
    (hw.add (Or.inl hm.isDeclared) e he).imp_right (ListedByCall.mono (Walk.le_scan _ _))
  call _ hm hs hl hw := hw.add (Or.inr ⟨_, _, _, hm, hs, hl, rfl⟩)

theorem isDeclared_callEntry {m : MethodDecl} {insn : MethodInsn} :
    IsDeclared U (callEntry m insn) ↔ Fits U m insn := Iff.rfl

/-- **When every entry exists.** When the walk returns, every entry exists exactly when every call
    from a body that is read names a method that its owner also has with the descriptor of the
    calling method. It is enough that this holds of every requested body, and where each requested
    body is `Isolated` it is necessary, too. -/
theorem all_declared_iff (h : walk U fold root name = .ok w) :
    readClassMethodHierarchy U fold root name = .ok w.methods ∧
    ((∀ e ∈ w.methods, IsDeclared U e) ↔ ReadCalls U fold root name (Fits U)) ∧
    (RequestedCalls U fold root name (Fits U) → ∀ e ∈ w.methods, IsDeclared U e) ∧
    (Isolated U fold root name →
      ((∀ e ∈ w.methods, IsDeclared U e) ↔ RequestedCalls U fold root name (Fits U))) := by
  have hfin := walk_finished h
  have haccounted : Accounted U fold w :=
    walkInvariant_accounted.walk (fun _ he => absurd he List.not_mem_nil) h
  have hread : (∀ e ∈ w.methods, IsDeclared U e) ↔ ReadCalls U fold root name (Fits U) := by
    rw [← scannedCalls_iff_readCalls h]
    constructor
    · intro hdecl c m insn hm hs hl
      exact isDeclared_callEntry.1 (hdecl _ (hfin.followed _ hs c m insn hm rfl hl).2)
    · intro hfits e he
      rcases haccounted e he with hdecl | ⟨c, m, insn, hm, hs, hl, rfl⟩
      · exact hdecl
      · exact isDeclared_callEntry.2 (hfits c m insn hm hs hl)
  exact ⟨readClassMethodHierarchy_of_walk h, hread, fun hfits => hread.2 hfits.readCalls,
    fun hiso => hread.trans (hiso.readCalls_iff h)⟩

end

/-! ### A greeter -/

namespace GreeterDemo

def greet : MethodDecl := ⟨"greet", "()V", []⟩

def greeter : ClassFile where
  name := "hello/Greeter"
  superclass := none
  isInterface := false
  methods := [greet]

def callGreet : MethodInsn where
  owner := "hello/Greeter"
  name := "greet"
  descriptor := "()V"

/-- `main` takes the arguments of the program, `run` nothing; both call `greet`. -/
def main : ClassFile where
  name := "hello/Main"
  superclass := none
  isInterface := false
  methods := [⟨"main", "([Ljava/lang/String;)V", [callGreet]⟩, ⟨"run", "()V", [callGreet]⟩]

def classPath : ClassUniverse where
  classes := [greeter, main]

/-- What is listed after the call from `main`. -/
def greetWithArguments : CMethodInfo := ⟨"hello/Greeter", "greet", "([Ljava/lang/String;)V"⟩

def walkFromRun : Walk where
  methods :=
    [⟨"hello/Main", "main", "([Ljava/lang/String;)V"⟩, ⟨"hello/Main", "run", "()V"⟩,
     ⟨"hello/Greeter", "greet", "()V"⟩]
  visited := [("hello/Main", "run"), ("hello/Greeter", "greet")]
  scanned := [⟨"hello/Main", "run", "()V"⟩, ⟨"hello/Greeter", "greet", "()V"⟩]

theorem not_isDeclared : ¬IsDeclared classPath greetWithArguments := by
  rintro ⟨c, m, hread, -, hdesc, hm⟩
  have hc : c = greeter := by
    rw [show classPath.classReader greetWithArguments.cClassName = .ok greeter by decide] at hread
    exact (Except.ok.inj hread).symm
  subst hc
  rcases hm with hm | ⟨s, hs, -⟩
  · have hnone : ∀ m ∈ greeter.methods, m.descriptor ≠ greetWithArguments.descriptor := by decide
    exact hnone m hm hdesc
  · cases hs with
    | direct hname _ => cases hname
    | further hname _ _ => cases hname

end GreeterDemo

open GreeterDemo

/-- The walk from `main` lists `greet` with the arguments of `main`, which `Greeter` does not
    have. -/
theorem greet_with_arguments_listed : ∃ methods,
    readClassMethodHierarchy classPath Char.toLower "hello/Main" "main" = .ok methods ∧
      ¬∀ e ∈ methods, IsDeclared classPath e := by
  refine ⟨[⟨"hello/Main", "main", "([Ljava/lang/String;)V"⟩, ⟨"hello/Greeter", "greet", "()V"⟩,
    greetWithArguments, ⟨"hello/Main", "run", "()V"⟩], by decide, fun hdecl => ?_⟩
  exact not_isDeclared (hdecl greetWithArguments (by decide))

/-- From `run` every entry exists. -/
theorem run_all_declared :
    readClassMethodHierarchy classPath Char.toLower "hello/Main" "run" = .ok walkFromRun.methods ∧
      ∀ e ∈ walkFromRun.methods, IsDeclared classPath e := by
  have hwalk : walk classPath Char.toLower "hello/Main" "run" = .ok walkFromRun := by decide
  obtain ⟨hresult, hiff, -⟩ := all_declared_iff hwalk
  refine ⟨hresult, hiff.2 (fun c m insn hread hl => ?_)⟩
  have hentry : ∀ info ∈ walkFromRun.scanned, ∀ m ∈ classPath.methodsOf info.cClassName,
      .of info.cClassName m = info → ∀ insn ∈ m.body,
        callEntry m insn = .of "hello/Greeter" greet := by decide
  have hs := (scanned_iff_read hwalk hread.declares).2 hread
  rw [← isDeclared_callEntry, hentry _ hs m (mem_methodsOf.2 hread.declares) rfl insn hl.1]
  exact Declares.isDeclared ⟨greeter, by decide, by decide⟩

end Jma
