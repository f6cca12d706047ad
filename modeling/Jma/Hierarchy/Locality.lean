import Jma.Hierarchy.CodeOrder
import Jma.Hierarchy.Nesting

set_option autoImplicit false

/-! # The walk depends only on the classes it visits

The class path of the target JVM holds far more than a walk reads. What it reads are the files of
the classes it visits and, to list their methods, of the superclasses. On any other class path with
these files the walk does the same. -/

namespace Jma

open MethodHierarchyUtil

namespace ClassUniverse

variable {U U' : ClassUniverse}

/-! ## The chain of superclasses -/

/-- `U.Chain c chain`: these are the superclasses of `c`, nearest first; none is an interface. -/
inductive Chain (U : ClassUniverse) : ClassFile → List ClassFile → Prop
  | top {c : ClassFile} (hname : c.superclass = none) : Chain U c []
  | link {c s : ClassFile} {name : String} {chain : List ClassFile}
      (hname : c.superclass = some name) (hs : U.find? name = some s)
      (hclass : s.isInterface = false) (h : Chain U s chain) : Chain U c (s :: chain)

/-- Linking finds the chain if it is not longer than allowed. -/
theorem linkSuperclasses_eq_ok {n : Nat} {c : ClassFile} {chain : List ClassFile} :
    U.linkSuperclasses n c = .ok chain ↔ U.Chain c chain ∧ chain.length < n := by
  induction n generalizing c chain with
  | zero => simp [linkSuperclasses]
  | succ n ih =>
      cases hname : c.superclass with
      | none =>
          simp only [linkSuperclasses, hname]
          constructor
          · rintro ⟨⟩
            exact ⟨.top hname, Nat.succ_pos n⟩
          · rintro ⟨h, -⟩
            cases h with
            | top _ => rfl
            | link hname' _ _ _ => simp [hname] at hname'
      | some name =>
          have hlink : U.Chain c chain ↔ ∃ s rest, U.find? name = some s ∧ s.isInterface = false ∧
              U.Chain s rest ∧ chain = s :: rest := by
            constructor
            · intro h
              cases h with
              | top hname' => simp [hname] at hname'
              | link hname' hs hclass h =>
                  rw [hname, Option.some.injEq] at hname'
                  exact ⟨_, _, hname' ▸ hs, hclass, h, rfl⟩
            · rintro ⟨s, rest, hs, hclass, h, rfl⟩
              exact .link hname hs hclass h
          rw [hlink]
          simp only [linkSuperclasses, hname]
          cases hs : U.find? name with
          | none => simp
          | some s =>
              by_cases hclass : s.isInterface = true
              · simp [hclass]
              · simp only [hclass, Bool.false_eq_true, if_false, Option.some.injEq]
                constructor
                · intro h
                  cases hrest : U.linkSuperclasses n s with
                  | error e => simp [hrest, Except.map] at h
                  | ok rest =>
                      simp only [hrest, Except.map, Except.ok.injEq] at h
                      subst h
                      obtain ⟨hchain, hlt⟩ := ih.1 hrest
                      exact ⟨⟨s, rest, rfl, by simpa using hclass, hchain, rfl⟩,
                        Nat.succ_lt_succ hlt⟩
                · rintro ⟨⟨_, rest, rfl, -, hchain, rfl⟩, hlt⟩
                  rw [ih.2 ⟨hchain, Nat.lt_of_succ_lt_succ hlt⟩]
                  rfl

theorem Chain.unique {c : ClassFile} {chain chain' : List ClassFile} (h : U.Chain c chain)
    (h' : U.Chain c chain') : chain = chain' := by
  induction h generalizing chain' with
  | top hname =>
      cases h' with
      | top _ => rfl
      | link hname' _ _ _ => simp [hname] at hname'
  | link hname hs _ _ ih =>
      cases h' with
      | top hname' => simp [hname] at hname'
      | link hname' hs' _ h' =>
          rw [hname, Option.some.injEq] at hname'
          rw [← hname', hs, Option.some.injEq] at hs'
          subst hs'
          rw [ih h']

/-- A class in a chain has a shorter chain. -/
theorem Chain.exists_shorter {c d : ClassFile} {chain : List ClassFile} (h : U.Chain c chain)
    (hd : d ∈ chain) : ∃ chain', U.Chain d chain' ∧ chain'.length < chain.length := by
  induction h with
  | top _ => cases hd
  | link _ _ _ h ih =>
      rcases List.mem_cons.1 hd with rfl | hd
      · exact ⟨_, h, Nat.lt_succ_self _⟩
      · obtain ⟨chain', hchain', hlt⟩ := ih hd
        exact ⟨chain', hchain', Nat.lt_succ_of_lt hlt⟩

/-- No class comes twice, as a chain that ends does not run in a circle. -/
theorem Chain.nodup {c : ClassFile} {chain : List ClassFile} (h : U.Chain c chain) :
    (c :: chain).Nodup := by
  induction h with
  | top _ => exact List.nodup_singleton _
  | link hname hs hclass h ih =>
      refine List.nodup_cons.2 ⟨fun hmem => ?_, ih⟩
      have hwhole := Chain.link hname hs hclass h
      obtain ⟨chain', hchain', hlt⟩ := hwhole.exists_shorter hmem
      rw [hwhole.unique hchain'] at hlt
      exact Nat.lt_irrefl _ hlt

theorem Chain.transfer {c : ClassFile} {chain : List ClassFile} (h : U.Chain c chain)
    (hmem : ∀ s ∈ chain, s ∈ U'.classes) : U'.Chain c chain := by
  induction h with
  | top hname => exact .top hname
  | link hname hs hclass _ ih =>
      obtain ⟨-, rfl⟩ := mem_of_find? hs
      exact .link hname (find?_of_mem (hmem _ (List.mem_cons_self ..))) hclass
        (ih (fun t ht => hmem t (List.mem_cons_of_mem _ ht)))

/-! ## Two class paths with the same files for a class -/

/-- The file of the class and those of its superclasses are on the other class path, too. -/
def Carries (U U' : ClassUniverse) (cName : String) : Prop :=
  ∀ c, U.classReader cName = .ok c → c ∈ U'.classes ∧ ∀ s, U.Superclass c s → s ∈ U'.classes

theorem Carries.classReader {cName : String} {c : ClassFile} (h : U.Carries U' cName)
    (hread : U.classReader cName = .ok c) : U'.classReader cName = .ok c := by
  obtain ⟨-, hname⟩ := mem_of_classReader hread
  rw [classReader_eq_ok, ← hname]
  exact find?_of_mem (h c hread).1

theorem Carries.forName {cName : String} {clazz : Clazz} (h : U.Carries U' cName)
    (hload : U.forName (replaceAll cName '/' '.') = .ok clazz) :
    U'.forName (replaceAll cName '/' '.') = .ok clazz := by
  obtain ⟨hread, hsuper, -⟩ := forName_eq_ok hload
  obtain ⟨hfile, hsupers⟩ := h clazz.file hread
  have hmem : ∀ s ∈ clazz.superclasses, s ∈ U'.classes := fun s hs => hsupers s ((hsuper s).1 hs)
  obtain ⟨hchain, -⟩ : U.Chain clazz.file clazz.superclasses ∧
      clazz.superclasses.length < U.classes.length := by
    rw [← linkSuperclasses_eq_ok]
    rw [ClassUniverse.forName, find?_getName, classReader_eq_ok.1 hread] at hload
    cases hlink : U.linkSuperclasses U.classes.length clazz.file with
    | error e => simp [hlink, Except.map] at hload
    | ok chain =>
        simp only [hlink, Except.map, Except.ok.injEq] at hload
        rw [← hload]
  have hchain' : U'.Chain clazz.file clazz.superclasses := hchain.transfer hmem
  -- the class and its chain are different classes of the other class path
  have hlen : (clazz.file :: clazz.superclasses).length ≤ U'.classes.length := by
    refine hchain'.nodup.length_le_of_subset (fun c hc => ?_)
    rcases List.mem_cons.1 hc with rfl | hc
    · exact hfile
    · exact hmem c hc
  rw [ClassUniverse.forName, find?_getName, classReader_eq_ok.1 (h.classReader hread)]
  show (U'.linkSuperclasses U'.classes.length clazz.file).map (Clazz.mk clazz.file) = _
  rw [linkSuperclasses_eq_ok.2 ⟨hchain', hlen⟩]
  rfl

end ClassUniverse

/-! ## The visitors -/

section

open HierarchyClassVisitor

variable {U U' : ClassUniverse} {fold : Char → Char}

/-- The classes visited so far are found on the other class path. -/
def CarriesAll (U U' : ClassUniverse) (w : Walk) : Prop := ∀ v ∈ w.visited, U.Carries U' v.1

/-- The other visitor does the same, if this one returns and everything that it has visited is
    there. -/
def Copies (U U' : ClassUniverse)
    (nested nested' : String → String → Walk → Outcome Throwable Walk) : Prop :=
  ∀ {c n w}, (nested c n w).thrown = none → CarriesAll U U' (nested c n w).state →
    CarriesAll U U' w ∧ nested' c n w = nested c n w

theorem visitMethodInsn_copies {nested nested' : String → String → Walk → Outcome Throwable Walk}
    (hnested : Copies U U' nested nested') {c descriptor : String} {w : Walk} {insn : MethodInsn}
    (h : (visitMethodInsn fold nested c descriptor w insn).thrown = none)
    (hw' : CarriesAll U U' (visitMethodInsn fold nested c descriptor w insn).state) :
    CarriesAll U U' w ∧ visitMethodInsn fold nested' c descriptor w insn
      = visitMethodInsn fold nested c descriptor w insn := by
  by_cases heq : equalsIgnoreCase fold insn.owner c = true
  · rw [visitMethodInsn_of_same heq] at hw'
    exact ⟨hw', by rw [visitMethodInsn_of_same heq, visitMethodInsn_of_same heq]⟩
  · rw [Bool.not_eq_true] at heq
    rw [visitMethodInsn_of_ne heq] at h hw'
    obtain ⟨hreturns, -⟩ := Outcome.thrown_andThen.1 h
    rw [Outcome.andThen_of_none hreturns] at hw'
    obtain ⟨hw, hsame⟩ := hnested hreturns (by simpa [CarriesAll] using hw')
    exact ⟨hw, by rw [visitMethodInsn_of_ne heq, visitMethodInsn_of_ne heq, hsame]⟩

theorem visitMethod_copies {nested nested' : String → String → Walk → Outcome Throwable Walk}
    (hnested : Copies U U' nested nested') {c n : String} {w : Walk} {m : MethodDecl}
    (h : (visitMethod fold nested c n w m).thrown = none)
    (hw' : CarriesAll U U' (visitMethod fold nested c n w m).state) :
    CarriesAll U U' w ∧ visitMethod fold nested' c n w m = visitMethod fold nested c n w m := by
  by_cases hmem : CMethodInfo.of c m ∈ w.methods
  · rw [visitMethod_of_mem hmem] at hw'
    exact ⟨hw', by rw [visitMethod_of_mem hmem, visitMethod_of_mem hmem]⟩
  by_cases hn : m.name = n
  · subst hn
    rw [visitMethod_of_sought hmem] at h hw'
    obtain ⟨hw, hbody⟩ := Outcome.forEach_copy (visitMethodInsn_copies hnested) h hw'
    exact ⟨by simpa [CarriesAll] using hw,
      by rw [visitMethod_of_sought hmem, visitMethod_of_sought hmem, hbody]⟩
  · rw [visitMethod_of_name_ne hmem hn] at hw'
    exact ⟨by simpa [CarriesAll] using hw',
      by rw [visitMethod_of_name_ne hmem hn, visitMethod_of_name_ne hmem hn]⟩

/-- A visitor that returns does the same on the other class path. -/
theorem accept_copies (fuel : Nat) :
    Copies U U' (accept U fold fuel) (accept U' fold fuel) := by
  induction fuel with
  | zero =>
      intro c n w h
      cases h
  | succ fuel ih =>
      intro c n w h hw'
      obtain ⟨⟨cf, hread⟩, clazz, hload⟩ := loadable_of_returns h
      rw [accept_of_loadable hread hload] at h hw' ⊢
      obtain ⟨hw₁, hloop⟩ := Outcome.forEach_copy (visitMethod_copies ih) h hw'
      -- the class itself has been visited
      have hcarries : U.Carries U' c := hw₁ (c, n) (by simp)
      refine ⟨fun v hv => hw₁ v (by simp [hv]), ?_⟩
      rw [accept_of_loadable (hcarries.classReader hread) (hcarries.forName hload), hloop]

end

/-- **The walk depends only on the classes it visits.** If a walk returns, it returns the same on
    every class path with the files of the classes it has visited and of their superclasses,
    whatever else is there or is missing. The classes have no interfaces to be loaded with them. -/
theorem walk_of_carries {U U' : ClassUniverse} {fold : Char → Char} {root name : String}
    {w : Walk} (h : walk U fold root name = .ok w)
    (hcarries : ∀ c n, (c, n) ∈ w.visited → U.Carries U' c) :
    walk U' fold root name = .ok w ∧
      readClassMethodHierarchy U' fold root name = readClassMethodHierarchy U fold root name := by
  obtain ⟨hreturns, rfl⟩ := walk_eq_ok.1 h
  have hcopy : HierarchyClassVisitor.accept U' fold (U.declared.length + 2) root name .initial
      = trace U fold root name :=
    (accept_copies _ hreturns (fun v hv => hcarries v.1 v.2 hv)).2
  -- the other class path may allow visitors to nest deeper, or less deep
  have hfuel := trace_ne_outOfFuel U' fold root name
  have hsame : trace U' fold root name = trace U fold root name := by
    rw [← hcopy]
    rcases Nat.le_total (U.declared.length + 2) (U'.declared.length + 2) with hle | hle
    · exact accept_eq_of_le (by rw [hcopy, hreturns]; simp) hle
    · exact (accept_eq_of_le hfuel hle).symm
  have hwalk : walk U' fold root name = .ok (trace U fold root name).state :=
    walk_eq_ok.2 ⟨hsame ▸ hreturns, by rw [hsame]⟩
  exact ⟨hwalk, by rw [readClassMethodHierarchy, readClassMethodHierarchy, hwalk, h]⟩

/-! ### A class that is not there -/

namespace OrderDemo

theorem distinct_signatures : ([first, second].map MethodDecl.signature).Nodup := by decide

/-- `first`, which the walk from `second` lists, calls a class that is missing. -/
def withoutHelper : ClassUniverse where
  classes := [main [first, second] distinct_signatures, leaf]

theorem carries_withoutHelper {cName : String} {c : ClassFile}
    (hread : classPath.classReader cName = .ok c) (hc : c ∈ withoutHelper.classes)
    (htop : c.superclass = none) : classPath.Carries withoutHelper cName := by
  intro c' hc'
  rw [hread, Except.ok.injEq] at hc'
  subst hc'
  refine ⟨hc, fun s hs => ?_⟩
  cases hs with
  | direct hname _ => simp [htop] at hname
  | further hname _ _ => simp [htop] at hname

end OrderDemo

open OrderDemo

/-- From `second` the walk does not visit `Helper`, and finds the same without it. -/
theorem second_without_helper :
    readClassMethodHierarchy withoutHelper Char.toLower "demo/Main" "second"
      = readClassMethodHierarchy classPath Char.toLower "demo/Main" "second" := by
  have hwalk : walk classPath Char.toLower "demo/Main" "second"
      = .ok (walkFromSecond foundFromSecond) := by
    decide
  refine (walk_of_carries hwalk fun c n hv => ?_).2
  simp only [walkFromSecond, List.mem_cons, Prod.mk.injEq, List.not_mem_nil, or_false] at hv
  rcases hv with ⟨rfl, rfl⟩ | ⟨rfl, rfl⟩
  · exact carries_withoutHelper (c := main [first, second]) (by decide) (by decide) rfl
  · exact carries_withoutHelper (c := leaf) (by decide) (by decide) rfl

end Jma
