import Jma.Hierarchy.Steps

set_option autoImplicit false

/-! # The nesting of visitors is bounded

A body is scanned only when its method has just entered the set, so a nested visitor starts with
fewer declared methods missing from the set than the visitor around it. The fuel of
`readClassMethodHierarchy` is therefore never used up, and the model of the walk is the walk. -/

namespace Jma

open HierarchyClassVisitor

variable {U : ClassUniverse} {fold : Char → Char}

/-- How many declared methods are not in the set. -/
def unlisted (U : ClassUniverse) (w : Walk) : Nat :=
  (U.declared.filter (fun info => info ∉ w.methods)).length

theorem unlisted_le {w w' : Walk} (h : w.methods ⊆ w'.methods) : unlisted U w' ≤ unlisted U w := by
  refine (List.monotone_filter_right _ (fun info hinfo => ?_)).length_le
  simp only [decide_eq_true_eq] at hinfo ⊢
  exact fun hmem => hinfo (h hmem)

/-- Listing a declared method that was not in the set leaves fewer. -/
theorem unlisted_add_lt {w : Walk} {info : CMethodInfo} (hdecl : info ∈ U.declared)
    (hnew : info ∉ w.methods) : unlisted U (w.add info) < unlisted U w := by
  unfold unlisted
  have hfilter : U.declared.filter (fun e => e ∉ (w.add info).methods)
      = (U.declared.filter (fun e => e ∉ w.methods)).filter (fun e => e ≠ info) := by
    rw [List.filter_filter]
    refine List.filter_congr (fun e _ => ?_)
    simp [and_comm]
  rw [hfilter, List.length_filter_lt_length_iff_exists]
  exact ⟨info, List.mem_filter.2 ⟨hdecl, by simpa using hnew⟩, by simp⟩

/-- A class read under its internal name declares its methods in the universe. -/
theorem Declares.mem_declared {c : String} {m : MethodDecl} (h : Declares U c m)
    (hc : '.' ∉ c.toList) : CMethodInfo.of c m ∈ U.declared := by
  obtain ⟨cf, hread, hm⟩ := h
  obtain ⟨hmem, hname⟩ := ClassUniverse.mem_of_classReader hread
  rw [replaceAll_of_not_mem hc] at hname
  exact List.mem_flatMap.2 ⟨cf, hmem, List.mem_map.2 ⟨m, hm, by rw [hname]⟩⟩

/-- Whatever name a visitor is created for, it only adds. -/
theorem accept_le {fuel : Nat} {c n : String} {w : Walk}
    (h : (accept U fold fuel c n w).thrown = none) :
    w.methods ⊆ (accept U fold fuel c n w).state.methods := by
  have hwant : Wanted U fold c n w c n := Or.inl ⟨rfl, rfl⟩
  exact (accept_extends fuel c n w hwant h).1.le.methods

theorem visitMethodInsn_le {fuel : Nat} {c descriptor : String} {w : Walk} {insn : MethodInsn}
    (h : (visitMethodInsn fold (accept U fold fuel) c descriptor w insn).thrown = none) :
    w.methods ⊆ (visitMethodInsn fold (accept U fold fuel) c descriptor w insn).state.methods := by
  by_cases heq : equalsIgnoreCase fold insn.owner c = true
  · rw [visitMethodInsn_of_same heq]
    exact List.Subset.refl _
  · rw [visitMethodInsn_of_ne (by simpa using heq)] at h ⊢
    obtain ⟨hreturns, -⟩ := Outcome.thrown_andThen.1 h
    rw [Outcome.andThen_of_none hreturns]
    exact List.Subset.trans (accept_le hreturns) (Walk.le_add _ _).methods

/-- The classes and their superclasses are found or not, but nothing nests. -/
theorem classReader_ne_outOfFuel (c : String) : U.classReader c ≠ .error .outOfFuel := by
  unfold ClassUniverse.classReader
  split <;> simp

theorem linkSuperclasses_ne_outOfFuel (fuel : Nat) (c : ClassFile) :
    U.linkSuperclasses fuel c ≠ .error .outOfFuel := by
  induction fuel generalizing c with
  | zero => simp [ClassUniverse.linkSuperclasses]
  | succ fuel ih =>
      rw [ClassUniverse.linkSuperclasses]
      split
      · simp
      · split
        · simp
        · next s _ =>
            split
            · simp
            · intro h
              cases hrest : U.linkSuperclasses fuel s with
              | error e =>
                  rw [hrest] at h
                  exact ih s (hrest.trans h)
              | ok rest =>
                  rw [hrest] at h
                  cases h

theorem forName_ne_outOfFuel (c : String) : U.forName c ≠ .error .outOfFuel := by
  unfold ClassUniverse.forName
  split
  · simp
  · next cf _ =>
      intro h
      cases hlink : U.linkSuperclasses U.classes.length cf with
      | error e =>
          simp only [hlink, Except.map, Except.error.injEq] at h
          exact linkSuperclasses_ne_outOfFuel _ _ (by rw [hlink, h])
      | ok chain =>
          rw [hlink] at h
          cases h

/-- A visitor of a class that is not found does not run out: it creates no other visitor. -/
theorem accept_ne_outOfFuel_of_not_loadable {fuel : Nat} {c n : String} {w : Walk}
    (hload : ¬Loadable U c) : (accept U fold (fuel + 1) c n w).thrown ≠ some .outOfFuel := by
  unfold accept init
  cases hread : U.classReader c with
  | error e =>
      intro h
      exact classReader_ne_outOfFuel c (hread.trans (congrArg Except.error (Option.some.inj h)))
  | ok cf =>
      cases hname : U.forName (replaceAll c '/' '.') with
      | error e =>
          intro h
          exact forName_ne_outOfFuel _ (hname.trans (congrArg Except.error (Option.some.inj h)))
      | ok clazz => exact absurd ⟨⟨cf, hread⟩, clazz, hname⟩ hload

/-- One visitor: as long as the nested visitors that it may create do not run out. -/
theorem accept_succ_ne_outOfFuel {fuel bound : Nat} {c n : String} {w : Walk}
    (hbound : unlisted U w ≤ bound)
    (hnested : ∀ m w', Declares U c m → CMethodInfo.of c m ∉ w'.methods → unlisted U w' ≤ bound →
      ∀ insn ∈ m.body, ∀ w'', unlisted U w'' ≤ unlisted U (w'.add (.of c m)) →
        (accept U fold fuel insn.owner insn.name w'').thrown ≠ some .outOfFuel) :
    (accept U fold (fuel + 1) c n w).thrown ≠ some .outOfFuel := by
  by_cases hload : Loadable U c
  · obtain ⟨⟨cf, hread⟩, clazz, hload⟩ := hload
    rw [accept_of_loadable hread hload]
    have hwant : Wanted U fold c n w c n := Or.inl ⟨rfl, rfl⟩
    have hsteps := (enter_spec hwant hload).1
    refine Outcome.forEach_thrown_ne (P := fun w => unlisted U w ≤ bound ∧ (c, n) ∈ w.visited)
      ?_ ?_ ⟨(unlisted_le (steps_le hsteps).methods).trans hbound, by simp⟩
    · -- only a sought body that was not listed creates visitors, and it is listed then
      rintro w' m hm ⟨hP, -⟩
      have hdecl : Declares U c m := ⟨cf, hread, hm⟩
      by_cases hmem : CMethodInfo.of c m ∈ w'.methods
      · simp [visitMethod_of_mem hmem]
      by_cases hn : m.name = n
      · subst hn
        rw [visitMethod_of_sought hmem]
        refine Outcome.forEach_thrown_ne
          (P := fun w₂ => unlisted U w₂ ≤ unlisted U (w'.add (.of c m)))
          (fun w₂ insn hinsn hle => ?_) (fun w₂ insn _ hle hstep => ?_) (unlisted_le (by simp))
        · by_cases heq : equalsIgnoreCase fold insn.owner c = true
          · simp [visitMethodInsn_of_same heq]
          · rw [visitMethodInsn_of_ne (by simpa using heq)]
            have hthis := hnested m w' hdecl hmem hP insn hinsn w₂ hle
            by_cases hreturns : (accept U fold fuel insn.owner insn.name w₂).thrown = none
            · simp [Outcome.andThen_of_none hreturns]
            · rwa [Outcome.andThen_of_some hreturns]
        · exact (unlisted_le (visitMethodInsn_le hstep)).trans hle
      · simp [visitMethod_of_name_ne hmem hn]
    · rintro w' m hm ⟨hP, hv⟩ hstep
      have hpromises : Promises U fold c n (accept U fold fuel) := accept_extends fuel
      have hext := (visitMethod_extends hpromises ⟨cf, hread, hm⟩ hv hstep).1
      exact ⟨(unlisted_le hext.le.methods).trans hP, hext.le.visited hv⟩
  · exact accept_ne_outOfFuel_of_not_loadable hload

/-- A visitor of a class under its internal name needs no more nesting than methods are missing. -/
theorem accept_ne_outOfFuel {fuel : Nat} {c n : String} {w : Walk} (hc : '.' ∉ c.toList)
    (hfuel : unlisted U w < fuel) : (accept U fold fuel c n w).thrown ≠ some .outOfFuel := by
  induction fuel generalizing c n w with
  | zero => exact absurd hfuel (Nat.not_lt_zero _)
  | succ fuel ih =>
      refine accept_succ_ne_outOfFuel (Nat.lt_succ_iff.1 hfuel) ?_
      intro m w' hdecl hnew hle insn _ w'' hle'
      refine ih insn.internal ?_
      have hlt := unlisted_add_lt (hdecl.mem_declared hc) hnew
      omega

namespace MethodHierarchyUtil

/-- **The walk never runs out of fuel.** -/
theorem trace_ne_outOfFuel (U : ClassUniverse) (fold : Char → Char) (root name : String) :
    (trace U fold root name).thrown ≠ some .outOfFuel := by
  have hbound : unlisted U .initial ≤ U.declared.length := List.length_filter_le _ _
  refine accept_succ_ne_outOfFuel hbound ?_
  intro m w' _ _ hle insn _ w'' hle'
  refine accept_ne_outOfFuel insn.internal ?_
  have hadd : unlisted U (w'.add (.of root m)) ≤ unlisted U w' := unlisted_le (w'.le_add _).methods
  omega

theorem readClassMethodHierarchy_ne_outOfFuel (U : ClassUniverse) (fold : Char → Char)
    (root name : String) : readClassMethodHierarchy U fold root name ≠ .error .outOfFuel := by
  unfold readClassMethodHierarchy walk
  intro h
  cases hout : (trace U fold root name).toExcept with
  | error e =>
      rw [hout] at h
      cases h
      exact trace_ne_outOfFuel U fold root name (Outcome.toExcept_eq_error.1 hout)
  | ok w =>
      rw [hout] at h
      cases h

end MethodHierarchyUtil

end Jma
