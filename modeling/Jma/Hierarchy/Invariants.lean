import Jma.Hierarchy.CallGraph

set_option autoImplicit false

/-! # Invariants of the walk

`WalkInvariant` is what has to be checked of a property of walks, once per thing that a visitor
does, and `accept_keepsInvariants` is the rule: such a property holds when a visitor is done,
whether it returns or throws. -/

namespace Jma

open HierarchyClassVisitor MethodHierarchyUtil

/-! ## The rule for invariants -/

/-- What has to be checked of a property of walks: that it is kept by each thing that a visitor
    does, with what is known at that moment. -/
structure WalkInvariant (U : ClassUniverse) (fold : Char → Char) (root name : String)
    (P : Walk → Prop) : Prop where
  enter : ∀ {w c n}, Loadable U c → Wanted U fold root name w c n → P w → P (w.enter c n)
  super : ∀ {w c n s m}, (c, n) ∈ w.visited → SuperMethod U c s m → P w → P (w.add (.of s.name m))
  list : ∀ {w c n m}, (c, n) ∈ w.visited → Declares U c m → P w → P (w.add (.of c m))
  scan : ∀ {w c m}, (c, m.name) ∈ w.visited → Declares U c m → CMethodInfo.of c m ∉ w.methods →
    P w → P ((w.add (.of c m)).scan (.of c m))
  call : ∀ {w c m insn}, (c, m.name) ∈ w.visited → Declares U c m →
    CMethodInfo.of c m ∈ w.scanned → Leaves fold c m insn → P w →
      P (w.add ⟨insn.owner, insn.name, m.descriptor⟩)

section

variable {U : ClassUniverse} {fold : Char → Char} {root name : String} {P Q : Walk → Prop}

/-- Two properties are kept together when each is. -/
theorem WalkInvariant.and (hP : WalkInvariant U fold root name P)
    (hQ : WalkInvariant U fold root name Q) :
    WalkInvariant U fold root name (fun w => P w ∧ Q w) where
  enter hc hwant hw := ⟨hP.enter hc hwant hw.1, hQ.enter hc hwant hw.2⟩
  super hv hs hw := ⟨hP.super hv hs hw.1, hQ.super hv hs hw.2⟩
  list hv hm hw := ⟨hP.list hv hm hw.1, hQ.list hv hm hw.2⟩
  scan hv hm hnew hw := ⟨hP.scan hv hm hnew hw.1, hQ.scan hv hm hnew hw.2⟩
  call hv hm hs hl hw := ⟨hP.call hv hm hs hl hw.1, hQ.call hv hm hs hl hw.2⟩

/-- A visitor stays recorded. -/
theorem walkInvariant_visited (v : String × String) :
    WalkInvariant U fold root name (fun w => v ∈ w.visited) where
  enter _ _ hw := by simp [hw]
  super _ _ hw := by simpa using hw
  list _ _ hw := by simpa using hw
  scan _ _ _ hw := by simpa using hw
  call _ _ _ _ hw := by simpa using hw

/-- A scanned body stays scanned. -/
theorem walkInvariant_scanned (info : CMethodInfo) :
    WalkInvariant U fold root name (fun w => info ∈ w.scanned) where
  enter _ _ hw := hw
  super _ _ hw := by simpa using hw
  list _ _ hw := by simpa using hw
  scan _ _ _ hw := by simp [hw]
  call _ _ _ _ hw := by simpa using hw

/-- The constructor keeps the property, and leaves the visitor recorded. -/
theorem WalkInvariant.init (h : WalkInvariant U fold root name P) {c n : String} {cf : ClassFile}
    {clazz : Clazz} (hread : U.classReader c = .ok cf)
    (hload : U.forName (replaceAll c '/' '.') = .ok clazz) {w : Walk}
    (hwant : Wanted U fold root name w c n) (hw : P w) :
    P ((superMethods clazz).foldl Walk.add (w.enter c n)) ∧
      (c, n) ∈ ((superMethods clazz).foldl Walk.add (w.enter c n)).visited := by
  have hadd : ∀ (l : List CMethodInfo) (w : Walk), (∀ e ∈ l, e ∈ superMethods clazz) →
      P w ∧ (c, n) ∈ w.visited →
      P (l.foldl Walk.add w) ∧ (c, n) ∈ (l.foldl Walk.add w).visited := by
    intro l
    induction l with
    | nil => exact fun w _ hw => hw
    | cons e rest ih =>
        intro w hl hw
        obtain ⟨s, m, hs, rfl⟩ := (mem_superMethods hload).1 (hl e (by simp))
        exact ih _ (fun e he => hl e (by simp [he]))
          ⟨h.super hw.2 hs hw.1, by simpa using hw.2⟩
  exact hadd _ _ (fun _ he => he)
    ⟨h.enter ⟨⟨cf, hread⟩, clazz, hload⟩ hwant hw, by simp⟩

/-- What is assumed of nested visitors: they keep every property that has been checked. -/
def KeepsInvariants (U : ClassUniverse) (fold : Char → Char) (root name : String)
    (nested : String → String → Walk → Outcome Throwable Walk) : Prop :=
  ∀ P, WalkInvariant U fold root name P → ∀ c n w, Wanted U fold root name w c n → P w →
    P (nested c n w).state

/-- What the pass over the body of `m`, a method of `c`, keeps besides `P`. -/
def InBody (P : Walk → Prop) (c : String) (m : MethodDecl) (w : Walk) : Prop :=
  P w ∧ (c, m.name) ∈ w.visited ∧ CMethodInfo.of c m ∈ w.scanned

/-- One instruction of a body, given what nested visitors keep. -/
theorem WalkInvariant.visitMethodInsn (h : WalkInvariant U fold root name P)
    {nested : String → String → Walk → Outcome Throwable Walk}
    (hnested : KeepsInvariants U fold root name nested)
    {c : String} {m : MethodDecl} (hm : Declares U c m) {insn : MethodInsn}
    (hinsn : insn ∈ m.body) {w : Walk} (hw : InBody P c m w) :
    InBody P c m (visitMethodInsn fold nested c m.descriptor w insn).state := by
  by_cases heq : equalsIgnoreCase fold insn.owner c = true
  · rw [visitMethodInsn_of_same heq]
    exact hw
  · rw [Bool.not_eq_true] at heq
    rw [visitMethodInsn_of_ne heq]
    have hwant : Wanted U fold root name w insn.owner insn.name :=
      Or.inr ⟨c, m, insn, hm, hw.2.1, hw.2.2, ⟨hinsn, heq⟩, rfl, rfl⟩
    have hafter : InBody P c m (nested insn.owner insn.name w).state :=
      hnested _ (h.and ((walkInvariant_visited _).and (walkInvariant_scanned _))) _ _ _ hwant hw
    by_cases hthrow : (nested insn.owner insn.name w).thrown = none
    · rw [Outcome.andThen_of_none hthrow]
      obtain ⟨hP, hv, hs⟩ := hafter
      exact ⟨h.call hv hm hs ⟨hinsn, heq⟩ hP, by simpa using hv, by simpa using hs⟩
    · rw [Outcome.andThen_of_some hthrow]
      exact hafter

/-- One method of a class file, given what nested visitors keep. -/
theorem WalkInvariant.visitMethod (h : WalkInvariant U fold root name P)
    {nested : String → String → Walk → Outcome Throwable Walk}
    (hnested : KeepsInvariants U fold root name nested)
    {c n : String} {m : MethodDecl} (hm : Declares U c m) {w : Walk}
    (hw : P w ∧ (c, n) ∈ w.visited) :
    P (visitMethod fold nested c n w m).state ∧
      (c, n) ∈ (visitMethod fold nested c n w m).state.visited := by
  by_cases hmem : CMethodInfo.of c m ∈ w.methods
  · rw [visitMethod_of_mem hmem]
    exact hw
  by_cases hn : m.name = n
  · subst hn
    rw [visitMethod_of_sought hmem]
    obtain ⟨hP, hv, -⟩ := Outcome.forEach_invariant (P := InBody P c m)
      (fun w' insn hinsn hw' => h.visitMethodInsn hnested hm hinsn hw')
      (l := m.body) (s := (w.add (.of c m)).scan (.of c m))
      ⟨h.scan hw.2 hm hmem hw.1, by simpa using hw.2, by simp⟩
    exact ⟨hP, hv⟩
  · rw [visitMethod_of_name_ne hmem hn]
    exact ⟨h.list hw.2 hm hw.1, by simpa using hw.2⟩

/-- **The rule for invariants.** What each thing that a visitor does keeps holds when the visitor is
    done, whether it returns or throws. -/
theorem accept_keepsInvariants (fuel : Nat) :
    KeepsInvariants U fold root name (accept U fold fuel) := by
  induction fuel with
  | zero => exact fun P _ c n w _ hw => hw
  | succ fuel ih =>
      intro P hP c n w hwant hw
      by_cases hload : Loadable U c
      · obtain ⟨⟨cf, hread⟩, clazz, hload⟩ := hload
        rw [accept_of_loadable hread hload]
        have hmethod : ∀ w' m, m ∈ cf.methods → P w' ∧ (c, n) ∈ w'.visited →
            P (visitMethod fold (accept U fold fuel) c n w' m).state ∧
              (c, n) ∈ (visitMethod fold (accept U fold fuel) c n w' m).state.visited :=
          fun w' m hm hw' => hP.visitMethod ih ⟨cf, hread, hm⟩ hw'
        exact (Outcome.forEach_invariant (P := fun w => P w ∧ (c, n) ∈ w.visited) hmethod
          (hP.init hread hload hwant hw)).1
      · obtain ⟨e, he⟩ := accept_of_not_loadable hload
        rw [he fuel n w]
        exact hw

theorem WalkInvariant.trace (h : WalkInvariant U fold root name P) (hinit : P .initial) :
    P (MethodHierarchyUtil.trace U fold root name).state :=
  accept_keepsInvariants _ P h root name .initial (Or.inl ⟨rfl, rfl⟩) hinit

theorem WalkInvariant.walk (h : WalkInvariant U fold root name P) (hinit : P .initial) {w : Walk}
    (hwalk : MethodHierarchyUtil.walk U fold root name = .ok w) : P w := by
  obtain ⟨-, rfl⟩ := walk_eq_ok.1 hwalk
  exact h.trace hinit

/-! ## What every walk keeps -/

/-- A visitor is only created for a class that is found. -/
theorem walkInvariant_loadable :
    WalkInvariant U fold root name (fun w => ∀ v ∈ w.visited, Loadable U v.1) where
  enter hc _ hw v hv := by
    rcases Walk.mem_visited_enter.1 hv with hv | rfl
    · exact hw v hv
    · exact hc
  super _ _ hw := by simpa using hw
  list _ _ hw := by simpa using hw
  scan _ _ _ hw := by simpa using hw
  call _ _ _ _ hw := by simpa using hw

/-! ## What holds of the calls -/

/-- Every call of another class from a scanned body has the property `P`. -/
def ScannedCalls (U : ClassUniverse) (fold : Char → Char) (w : Walk)
    (P : MethodDecl → MethodInsn → Prop) : Prop :=
  ∀ c m insn, Declares U c m → CMethodInfo.of c m ∈ w.scanned → Leaves fold c m insn → P m insn

/-- Every call of another class from a requested body has the property `P`. -/
def RequestedCalls (U : ClassUniverse) (fold : Char → Char) (root name : String)
    (P : MethodDecl → MethodInsn → Prop) : Prop :=
  ∀ c m insn, Requested U fold root name c m.name → Declares U c m → Leaves fold c m insn → P m insn

end

end Jma
