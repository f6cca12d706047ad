import Jma.Hierarchy.Walk

set_option autoImplicit false

/-! # What a walk does, step by step

The recursion of the visitors is taken apart once. `Step` lists the five things that can happen to
the state of a walk, with what is known at that moment; `Extends` adds what a visitor guarantees
when it returns. `accept_extends` proves that every visitor that returns has made only such steps,
and everything later is an induction over `Step` or a field of `Extends`. -/

namespace Jma

open HierarchyClassVisitor

/-- The methods of the class file read under the name `cName`. -/
def ClassUniverse.methodsOf (U : ClassUniverse) (cName : String) : List MethodDecl :=
  match U.classReader cName with
  | .ok c => c.methods
  | .error _ => []

/-- The class file read under the name `cName` declares `m`. -/
def Declares (U : ClassUniverse) (cName : String) (m : MethodDecl) : Prop :=
  ∃ c, U.classReader cName = .ok c ∧ m ∈ c.methods

theorem mem_methodsOf {U : ClassUniverse} {cName : String} {m : MethodDecl} :
    m ∈ U.methodsOf cName ↔ Declares U cName m := by
  unfold ClassUniverse.methodsOf Declares
  cases U.classReader cName <;> simp

/-- `m` is a method, not an initialiser, that a proper superclass `s` of `cName` declares. -/
def SuperMethod (U : ClassUniverse) (cName : String) (s : ClassFile) (m : MethodDecl) : Prop :=
  ∃ c, U.classReader cName = .ok c ∧ U.Superclass c s ∧ m ∈ s.getDeclaredMethods

/-- `insn` is an instruction of `m` whose owner is not the class itself. -/
def Leaves (fold : Char → Char) (cName : String) (m : MethodDecl) (insn : MethodInsn) : Prop :=
  insn ∈ m.body ∧ equalsIgnoreCase fold insn.owner cName = false

theorem Declares.unique {U : ClassUniverse} {c c' : String} {m m' : MethodDecl}
    (h : Declares U c m) (h' : Declares U c' m') (he : CMethodInfo.of c m = CMethodInfo.of c' m') :
    c = c' ∧ m = m' := by
  obtain ⟨cf, hc, hm⟩ := h
  obtain ⟨cf', hc', hm'⟩ := h'
  have hcc : c = c' := congrArg CMethodInfo.cClassName he
  subst hcc
  rw [hc, Except.ok.injEq] at hc'
  subst hc'
  exact ⟨rfl, CMethodInfo.of_injective hm hm' he⟩

/-- The constructor lists the methods of the proper superclasses. -/
theorem mem_superMethods {U : ClassUniverse} {cName : String} {clazz : Clazz}
    (h : U.forName (replaceAll cName '/' '.') = .ok clazz) {e : CMethodInfo} :
    e ∈ superMethods clazz ↔ ∃ s m, SuperMethod U cName s m ∧ e = .of s.name m := by
  obtain ⟨hfile, hsuper, hclass⟩ := ClassUniverse.forName_eq_ok h
  simp only [superMethods, AdviceUtil.getAllSuperClasses, List.mem_flatMap, List.mem_filter,
    List.mem_map, ClassFile.replaceAll_getName]
  constructor
  · rintro ⟨s, ⟨hs, -⟩, m, hm, rfl⟩
    exact ⟨s, m, ⟨clazz.file, hfile, (hsuper s).1 hs, hm⟩, rfl⟩
  · rintro ⟨s, m, ⟨c, hc, hs, hm⟩, rfl⟩
    rw [hfile, Except.ok.injEq] at hc
    subst hc
    have hmem := (hsuper s).2 hs
    exact ⟨s, ⟨hmem, by simp [hclass s hmem]⟩, m, hm, rfl⟩

/-! ## Steps -/

section

variable (U : ClassUniverse) (fold : Char → Char) (root name : String)

/-- A body that was scanned for a visitor calls a method `k` of another class `o`. -/
def Called (w : Walk) (o k : String) : Prop :=
  ∃ c m insn, Declares U c m ∧ (c, m.name) ∈ w.visited ∧ CMethodInfo.of c m ∈ w.scanned ∧
    Leaves fold c m insn ∧ insn.owner = o ∧ insn.name = k

/-- What a visitor is created for: the request of the walk, or a call. -/
def Wanted (w : Walk) (c n : String) : Prop := (c = root ∧ n = name) ∨ Called U fold w c n

/-- The five things that happen to the state. -/
inductive Step : Walk → Walk → Prop
  | enter {w : Walk} {c n : String} (hwant : Wanted U fold root name w c n) : Step w (w.enter c n)
  | super {w : Walk} {c n : String} {s : ClassFile} {m : MethodDecl} (hv : (c, n) ∈ w.visited)
      (hs : SuperMethod U c s m) : Step w (w.add (.of s.name m))
  | list {w : Walk} {c n : String} {m : MethodDecl} (hv : (c, n) ∈ w.visited)
      (hm : Declares U c m) (hne : m.name ≠ n) : Step w (w.add (.of c m))
  | scan {w : Walk} {c : String} {m : MethodDecl} (hv : (c, m.name) ∈ w.visited)
      (hm : Declares U c m) (hnew : CMethodInfo.of c m ∉ w.methods) :
      Step w ((w.add (.of c m)).scan (.of c m))
  | call {w : Walk} {o k descriptor : String} (hcall : Called U fold w o k)
      (hlisted : ∀ m, Declares U o m → CMethodInfo.of o m ∈ w.methods) :
      Step w (w.add ⟨o, k, descriptor⟩)

/-- All that a visitor for `c` lists on its own: the methods of the class and of its
    superclasses. -/
structure Listed (w : Walk) (c : String) : Prop where
  own : ∀ m, Declares U c m → CMethodInfo.of c m ∈ w.methods
  super : ∀ s m, SuperMethod U c s m → CMethodInfo.of s.name m ∈ w.methods

/-- Every instruction of the method `info` that leaves its class was followed. -/
def Followed (w : Walk) (info : CMethodInfo) : Prop :=
  ∀ c m insn, Declares U c m → info = .of c m → Leaves fold c m insn →
    (insn.owner, insn.name) ∈ w.visited ∧ ⟨insn.owner, insn.name, m.descriptor⟩ ∈ w.methods

/-- What lies between two states of a walk, whenever every visitor created in between has returned:
    these visitors listed what they list, and the bodies scanned in between were followed. -/
structure Extends (w w' : Walk) : Prop where
  steps : Relation.ReflTransGen (Step U fold root name) w w'
  listed : ∀ c n, (c, n) ∈ w'.visited → (c, n) ∈ w.visited ∨ Listed U w' c
  followed : ∀ info ∈ w'.scanned, info ∈ w.scanned ∨ Followed U fold w' info

end

section

variable {U : ClassUniverse} {fold : Char → Char} {root name : String}

/-- Nothing is ever removed. -/
structure Walk.Le (w w' : Walk) : Prop where
  methods : w.methods ⊆ w'.methods
  visited : w.visited ⊆ w'.visited
  scanned : w.scanned ⊆ w'.scanned

theorem Walk.Le.refl (w : Walk) : Walk.Le w w :=
  ⟨List.Subset.refl _, List.Subset.refl _, List.Subset.refl _⟩

theorem Walk.Le.trans {w₁ w₂ w₃ : Walk} (h : Walk.Le w₁ w₂) (h' : Walk.Le w₂ w₃) :
    Walk.Le w₁ w₃ :=
  ⟨List.Subset.trans h.methods h'.methods, List.Subset.trans h.visited h'.visited,
    List.Subset.trans h.scanned h'.scanned⟩

theorem Walk.le_add (w : Walk) (info : CMethodInfo) : Walk.Le w (w.add info) :=
  ⟨fun _ he => mem_add.2 (Or.inl he), by simp, by simp⟩

theorem Walk.le_enter (w : Walk) (c n : String) : Walk.Le w (w.enter c n) :=
  ⟨by simp, by simp, by simp⟩

theorem Walk.le_scan (w : Walk) (info : CMethodInfo) : Walk.Le w (w.scan info) :=
  ⟨by simp, by simp, by simp⟩

theorem Step.le {w w' : Walk} (h : Step U fold root name w w') : Walk.Le w w' := by
  cases h with
  | enter _ => exact w.le_enter _ _
  | super _ _ => exact w.le_add _
  | list _ _ _ => exact w.le_add _
  | scan _ _ _ => exact (w.le_add _).trans (Walk.le_scan _ _)
  | call _ _ => exact w.le_add _

theorem steps_le {w w' : Walk} (h : Relation.ReflTransGen (Step U fold root name) w w') :
    Walk.Le w w' := by
  induction h with
  | refl => exact Walk.Le.refl w
  | tail _ hstep ih => exact ih.trans hstep.le

theorem Extends.le {w w' : Walk} (h : Extends U fold root name w w') : Walk.Le w w' :=
  steps_le h.steps

theorem Called.mono {w w' : Walk} {o k : String} (hle : Walk.Le w w') (h : Called U fold w o k) :
    Called U fold w' o k := by
  obtain ⟨c, m, insn, hm, hv, hs, hl⟩ := h
  exact ⟨c, m, insn, hm, hle.visited hv, hle.scanned hs, hl⟩

theorem Wanted.mono {w w' : Walk} {c n : String} (hle : Walk.Le w w')
    (h : Wanted U fold root name w c n) : Wanted U fold root name w' c n :=
  h.imp_right (Called.mono hle)

theorem Listed.mono {w w' : Walk} {c : String} (hle : Walk.Le w w') (h : Listed U w c) :
    Listed U w' c :=
  ⟨fun m hm => hle.methods (h.own m hm), fun s m hs => hle.methods (h.super s m hs)⟩

theorem Followed.mono {w w' : Walk} {info : CMethodInfo} (hle : Walk.Le w w')
    (h : Followed U fold w info) : Followed U fold w' info :=
  fun c m insn hm he hl =>
    ⟨hle.visited (h c m insn hm he hl).1, hle.methods (h c m insn hm he hl).2⟩

theorem Extends.refl (w : Walk) : Extends U fold root name w w :=
  ⟨.refl, fun _ _ h => Or.inl h, fun _ h => Or.inl h⟩

theorem Extends.trans {w₁ w₂ w₃ : Walk} (h : Extends U fold root name w₁ w₂)
    (h' : Extends U fold root name w₂ w₃) : Extends U fold root name w₁ w₃ where
  steps := h.steps.trans h'.steps
  listed c n hv := by
    rcases h'.listed c n hv with hv | hl
    · exact (h.listed c n hv).imp_right (Listed.mono h'.le)
    · exact Or.inr hl
  followed info hs := by
    rcases h'.followed info hs with hs | hf
    · exact (h.followed info hs).imp_right (Followed.mono h'.le)
    · exact Or.inr hf

/-- A step that creates no visitor and scans nothing. -/
theorem Extends.of_step_add {w : Walk} {info : CMethodInfo}
    (h : Step U fold root name w (w.add info)) : Extends U fold root name w (w.add info) :=
  ⟨.single h, by simp only [Walk.visited_add]; exact fun _ _ hv => Or.inl hv,
    by simp only [Walk.scanned_add]; exact fun _ hs => Or.inl hs⟩

/-! ## One visitor -/

/-- What a nested visitor promises when it returns. -/
def Promises (U : ClassUniverse) (fold : Char → Char) (root name : String)
    (nested : String → String → Walk → Outcome Throwable Walk) : Prop :=
  ∀ c n w, Wanted U fold root name w c n → (nested c n w).thrown = none →
    Extends U fold root name w (nested c n w).state ∧ (c, n) ∈ (nested c n w).state.visited ∧
      Listed U (nested c n w).state c

theorem visitMethodInsn_extends {nested : String → String → Walk → Outcome Throwable Walk}
    (hnested : Promises U fold root name nested) {c : String} {m : MethodDecl} {insn : MethodInsn}
    {w : Walk} (hm : Declares U c m) (hinsn : insn ∈ m.body) (hv : (c, m.name) ∈ w.visited)
    (hs : CMethodInfo.of c m ∈ w.scanned)
    (h : (visitMethodInsn fold nested c m.descriptor w insn).thrown = none) :
    Extends U fold root name w (visitMethodInsn fold nested c m.descriptor w insn).state ∧
      (Leaves fold c m insn →
        (insn.owner, insn.name) ∈
          (visitMethodInsn fold nested c m.descriptor w insn).state.visited ∧
        ⟨insn.owner, insn.name, m.descriptor⟩ ∈
          (visitMethodInsn fold nested c m.descriptor w insn).state.methods) := by
  by_cases heq : equalsIgnoreCase fold insn.owner c = true
  · rw [visitMethodInsn_of_same heq]
    exact ⟨Extends.refl w, fun hl => absurd heq (by simp [hl.2])⟩
  · rw [Bool.not_eq_true] at heq
    rw [visitMethodInsn_of_ne heq] at h ⊢
    obtain ⟨hreturns, -⟩ := Outcome.thrown_andThen.1 h
    rw [Outcome.andThen_of_none hreturns, Outcome.state_ret]
    have hcall : Called U fold w insn.owner insn.name :=
      ⟨c, m, insn, hm, hv, hs, ⟨hinsn, heq⟩, rfl, rfl⟩
    obtain ⟨hext, hvis, hlist⟩ := hnested _ _ _ (Or.inr hcall) hreturns
    generalize (nested insn.owner insn.name w).state = w₁ at *
    have hadd : Step U fold root name w₁ (w₁.add ⟨insn.owner, insn.name, m.descriptor⟩) :=
      .call (hcall.mono hext.le) hlist.own
    exact ⟨hext.trans (.of_step_add hadd), fun _ => ⟨by simpa using hvis, by simp⟩⟩

theorem visitMethod_extends {nested : String → String → Walk → Outcome Throwable Walk}
    (hnested : Promises U fold root name nested) {c n : String} {m : MethodDecl} {w : Walk}
    (hm : Declares U c m) (hv : (c, n) ∈ w.visited)
    (h : (visitMethod fold nested c n w m).thrown = none) :
    Extends U fold root name w (visitMethod fold nested c n w m).state ∧
      CMethodInfo.of c m ∈ (visitMethod fold nested c n w m).state.methods := by
  by_cases hmem : CMethodInfo.of c m ∈ w.methods
  · rw [visitMethod_of_mem hmem]
    exact ⟨Extends.refl w, hmem⟩
  · by_cases hn : m.name = n
    · subst hn
      rw [visitMethod_of_sought hmem] at h ⊢
      -- the state in which the body is scanned
      set w₁ := (w.add (.of c m)).scan (.of c m) with hw₁
      have hscan : Step U fold root name w w₁ := .scan hv hm hmem
      obtain ⟨hext, hbody⟩ := Outcome.forEach_rule Extends.refl Extends.trans
        (P := fun w => (c, m.name) ∈ w.visited ∧ CMethodInfo.of c m ∈ w.scanned)
        (Q := fun insn w => Leaves fold c m insn → (insn.owner, insn.name) ∈ w.visited ∧
          ⟨insn.owner, insn.name, m.descriptor⟩ ∈ w.methods)
        (fun hR hP => ⟨hR.le.visited hP.1, hR.le.scanned hP.2⟩)
        (fun hR hQ hl => ⟨hR.le.visited (hQ hl).1, hR.le.methods (hQ hl).2⟩)
        (fun s insn hinsn hP hreturns =>
          visitMethodInsn_extends hnested hm hinsn hP.1 hP.2 hreturns)
        ⟨by simpa [hw₁] using hv, by simp [hw₁]⟩ h
      refine ⟨⟨.head hscan hext.steps, fun c' n' hv' => ?_, fun info hs => ?_⟩,
        hext.le.methods (by simp [hw₁])⟩
      · simpa [hw₁] using hext.listed c' n' hv'
      · rcases hext.followed info hs with hs | hf
        · rw [hw₁, Walk.mem_scanned_scan_add] at hs
          refine hs.imp_right (fun hinfo c' m' insn hm' he hl => ?_)
          obtain ⟨rfl, rfl⟩ := hm.unique hm' (hinfo ▸ he)
          exact hbody insn hl.1 hl
        · exact Or.inr hf
    · rw [visitMethod_of_name_ne hmem hn]
      exact ⟨.of_step_add (.list hv hm hn), by simp⟩

/-- The constructor is one visitor created and its superclass methods listed. -/
theorem enter_spec {c n : String} {w : Walk} {clazz : Clazz}
    (hwant : Wanted U fold root name w c n)
    (hload : U.forName (replaceAll c '/' '.') = .ok clazz) :
    Relation.ReflTransGen (Step U fold root name) w
        ((superMethods clazz).foldl Walk.add (w.enter c n)) ∧
      ∀ s m, SuperMethod U c s m →
        CMethodInfo.of s.name m ∈ ((superMethods clazz).foldl Walk.add (w.enter c n)).methods := by
  have hadd : ∀ (l : List CMethodInfo) (w₁ : Walk), (c, n) ∈ w₁.visited →
      (∀ e ∈ l, e ∈ superMethods clazz) →
      Relation.ReflTransGen (Step U fold root name) w₁ (l.foldl Walk.add w₁) := by
    intro l
    induction l with
    | nil => exact fun w₁ _ _ => .refl
    | cons e rest ih =>
        intro w₁ hv hl
        obtain ⟨s, m, hs, rfl⟩ := (mem_superMethods hload).1 (hl e (by simp))
        exact .head (.super hv hs) (ih (w₁.add (.of s.name m)) (by simpa using hv)
          (fun e he => hl e (by simp [he])))
  refine ⟨.head (.enter hwant) (hadd _ _ (by simp) (fun _ he => he)), fun s m hs => ?_⟩
  exact Walk.mem_foldl_add.2 (Or.inr ((mem_superMethods hload).2 ⟨s, m, hs, rfl⟩))

/-- A visitor that returns has found its class. -/
theorem loadable_of_returns {fuel : Nat} {c n : String} {w : Walk}
    (h : (accept U fold (fuel + 1) c n w).thrown = none) : Loadable U c := by
  by_contra hload
  obtain ⟨e, he⟩ := accept_of_not_loadable hload
  rw [he fuel n w] at h
  cases h

/-- **A visitor that returns has made only these steps, and keeps its promise.** -/
theorem accept_extends (fuel : Nat) : Promises U fold root name (accept U fold fuel) := by
  induction fuel with
  | zero =>
      intro c n w _ h
      cases h
  | succ fuel ih =>
      intro c n w hwant h
      obtain ⟨⟨cf, hread⟩, clazz, hload⟩ := loadable_of_returns h
      rw [accept_of_loadable hread hload] at h ⊢
      obtain ⟨hsteps, hsuper⟩ := enter_spec hwant hload
      have hvis : ((superMethods clazz).foldl Walk.add (w.enter c n)).visited
          = w.visited ++ [(c, n)] := by simp
      have hscan : ((superMethods clazz).foldl Walk.add (w.enter c n)).scanned = w.scanned := by
        simp
      -- the state after the constructor
      generalize (superMethods clazz).foldl Walk.add (w.enter c n) = w₁ at *
      obtain ⟨hext, hown⟩ := Outcome.forEach_rule Extends.refl Extends.trans
        (P := fun w => (c, n) ∈ w.visited) (Q := fun m w => CMethodInfo.of c m ∈ w.methods)
        (fun hR hP => hR.le.visited hP) (fun hR hQ => hR.le.methods hQ)
        (fun s m hm hP hreturns => visitMethod_extends ih ⟨cf, hread, hm⟩ hP hreturns)
        (by simp [hvis]) h
      generalize Outcome.state (Outcome.forEach (visitMethod fold (accept U fold fuel) c n) w₁
        cf.methods) = w' at *
      have hlisted : Listed U w' c := by
        refine ⟨fun m hm => ?_, fun s m hs => hext.le.methods (hsuper s m hs)⟩
        obtain ⟨cf', hread', hm⟩ := hm
        rw [hread, Except.ok.injEq] at hread'
        subst hread'
        exact hown m hm
      refine ⟨⟨hsteps.trans hext.steps, fun c' n' hv => ?_, fun info hs => ?_⟩,
        hext.le.visited (by simp [hvis]), hlisted⟩
      · rcases hext.listed c' n' hv with hv | hl
        · rw [hvis, List.mem_append, List.mem_singleton, Prod.mk.injEq] at hv
          exact hv.imp_right (fun he : c' = c ∧ n' = n => he.1.symm ▸ hlisted)
        · exact Or.inr hl
      · rw [← hscan]
        exact hext.followed info hs

end

end Jma
