import Jma.Hierarchy.CallOrder
import Jma.Hierarchy.Invariants

set_option autoImplicit false

/-! # A walk scans the bodies that are read

The visitors meet the places of the tree in order. `Upto D` ties the state of a walk to the places
`D` that it has met; a visitor that returns has met its own place and all below it. A visitor that
throws stops somewhere in between, and has scanned only bodies that are read. -/

namespace Jma

open HierarchyClassVisitor MethodHierarchyUtil

section

variable (U : ClassUniverse) (fold : Char → Char) (root name : String)

/-- The state of a walk that has met the places in `D`. -/
structure Upto (D : List Nat → Prop) (w : Walk) : Prop where
  /-- What a place mentions is listed, unless it is skipped. -/
  mentioned : ∀ p e, D p → Mentions U fold root name p e →
    Skipped U fold root name p ∨ Reached U fold root name p ∧ e ∈ w.methods
  /-- What is listed of a class is mentioned by a place that is reached. -/
  listed : ∀ c m, Declares U c m → .of c m ∈ w.methods →
    ∃ p, D p ∧ Mentions U fold root name p (.of c m) ∧ Reached U fold root name p
  /-- A sought body is scanned, unless it is skipped. -/
  scanned : ∀ α k c m, Sought U fold root name α k c m → D (α ++ [k + 1]) →
    Skipped U fold root name (α ++ [k + 1] ++ [0]) ∨ .of c m ∈ w.scanned

/-- Only bodies that are read have been scanned. -/
def ScannedRead (w : Walk) : Prop :=
  ∀ c m, Declares U c m → .of c m ∈ w.scanned → Read U fold root name c m

/-- What a visitor at `α` does to a walk that has come there. -/
def FollowsOrder (nested : String → String → Walk → Outcome Throwable Walk) : Prop :=
  ∀ α c n w, VisitorAt U fold root name α c n → Reached U fold root name α →
    Upto U fold root name (· < α) w → ScannedRead U fold root name w →
    ScannedRead U fold root name (nested c n w).state ∧
      ((nested c n w).thrown = none →
        Upto U fold root name (fun p => p < α ∨ α <+: p) (nested c n w).state)

end

section

variable {U : ClassUniverse} {fold : Char → Char} {root name : String} {D D' : List Nat → Prop}
  {w w' : Walk}

/-! ## Meeting more places -/

/-- Nothing else is mentioned by the places met. -/
theorem Upto.widen (h : Upto U fold root name D w) (hD : ∀ p, D p → D' p)
    (hnew : ∀ p e, D' p → Mentions U fold root name p e → D p) : Upto U fold root name D' w where
  mentioned p e hp hmention := h.mentioned p e (hnew p e hp hmention) hmention
  listed c m hm hmem := by
    obtain ⟨p, hp, hmention, hreached⟩ := h.listed c m hm hmem
    exact ⟨p, hD p hp, hmention, hreached⟩
  scanned α k c m hsought hp := h.scanned α k c m hsought (hnew _ _ hp hsought.mentions)

/-- The places met say what they mention, and what is listed is mentioned by them. -/
theorem Upto.meet (h : Upto U fold root name D w) (hle : Walk.Le w w') (hD : ∀ p, D p → D' p)
    (hnew : ∀ p e, D' p → Mentions U fold root name p e →
      D p ∨ Skipped U fold root name p ∨ Reached U fold root name p ∧ e ∈ w'.methods)
    (hlisted : ∀ c m, Declares U c m → .of c m ∈ w'.methods → .of c m ∈ w.methods ∨
      ∃ p, D' p ∧ Mentions U fold root name p (.of c m) ∧ Reached U fold root name p)
    (hscanned : ∀ α k c m, Sought U fold root name α k c m → D' (α ++ [k + 1]) →
      D (α ++ [k + 1]) ∨ Skipped U fold root name (α ++ [k + 1] ++ [0]) ∨ .of c m ∈ w'.scanned) :
    Upto U fold root name D' w' where
  mentioned p e hp hmention := by
    rcases hnew p e hp hmention with hp | hnew
    · exact (h.mentioned p e hp hmention).imp_right (And.imp_right (fun he => hle.methods he))
    · exact hnew
  listed c m hm hmem := by
    rcases hlisted c m hm hmem with hmem | hnew
    · obtain ⟨p, hp, hmention, hreached⟩ := h.listed c m hm hmem
      exact ⟨p, hD p hp, hmention, hreached⟩
    · exact hnew
  scanned α k c m hsought hp := by
    rcases hscanned α k c m hsought hp with hp | hnew
    · exact (h.scanned α k c m hsought hp).imp_right (fun hs => hle.scanned hs)
    · exact hnew

/-- The first mention of a method that is not listed is not reached. -/
theorem Upto.skipped_of_not_mem (h : Upto U fold root name D w) {p : List Nat} {e : CMethodInfo}
    (hp : D p) (hmention : Mentions U fold root name p e) (he : e ∉ w.methods) :
    Skipped U fold root name p :=
  (h.mentioned p e hp hmention).resolve_right (fun hlisted => he hlisted.2)

/-! ## The constructor -/

theorem Upto.constructor {α : List Nat} {c n : String} {clazz : Clazz}
    (h : Upto U fold root name (· < α) w) (hα : VisitorAt U fold root name α c n)
    (hreached : Reached U fold root name α)
    (hload : U.forName (replaceAll c '/' '.') = .ok clazz) :
    Upto U fold root name (· < α ++ [1]) ((superMethods clazz).foldl Walk.add (w.enter c n)) := by
  -- besides the visitor, which mentions nothing, the places met are below its constructor
  have hplaces : ∀ p e, p < α ++ [1] → Mentions U fold root name p e → p < α ∨ p = α ++ [0] := by
    intro p e hp hmention
    rcases Paths.lt_append_succ.1 hp with hp | hp
    · rcases Paths.lt_append_zero.1 hp with hp | rfl
      · exact Or.inl hp
      · exact absurd hmention hα.not_mentions
    · rcases hα.mentions_below hmention hp with rfl | ⟨k, _, _, _, hk, -⟩
      · exact Or.inr rfl
      · exact absurd hk (Nat.succ_ne_zero k).symm
  have hsuper : ∀ s m, SuperMethod U c s m →
      .of s.name m ∈ ((superMethods clazz).foldl Walk.add (w.enter c n)).methods :=
    fun s m hs => Walk.mem_foldl_add.2 (Or.inr ((mem_superMethods hload).2 ⟨s, m, hs, rfl⟩))
  refine h.meet ⟨fun e he => by simp [he], by simp, by simp⟩
    (fun p hp => Paths.lt_append_succ.2 (Or.inl (Paths.lt_append_zero.2 (Or.inl hp)))) ?_ ?_ ?_
  · intro p e hp hmention
    rcases hplaces p e hp hmention with hp | rfl
    · exact Or.inl hp
    · rcases hα.mentions_part hmention with ⟨-, s, m, hs, rfl⟩ | ⟨k, _, hk, -⟩
      · exact Or.inr (Or.inr ⟨hreached.part hα 0, hsuper s m hs⟩)
      · exact absurd hk (Nat.succ_ne_zero k).symm
  · intro c' m hm hmem
    rcases Walk.mem_foldl_add.1 hmem with hmem | hmem
    · exact Or.inl hmem
    · obtain ⟨s, m', hs, he⟩ := (mem_superMethods hload).1 hmem
      rw [he]
      exact Or.inr ⟨α ++ [0], Paths.lt_append_succ.2 (Or.inr (List.prefix_refl _)), .super hα hs,
        hreached.part hα 0⟩
  · intro β k c' m hsought hp
    rcases hplaces _ _ hp hsought.mentions with hp | hp
    · exact Or.inl hp
    · exact absurd (List.append_inj' hp rfl).2 (by simp)

/-! ## A method -/

/-- What is below a method is the method itself or in its body, if it is sought. -/
theorem VisitorAt.method_place {α p : List Nat} {c n : String} {k : Nat} {m : MethodDecl}
    {e : CMethodInfo} (h : VisitorAt U fold root name α c n) (hm : (U.methodsOf c)[k]? = some m)
    (hmention : Mentions U fold root name p e) (hle : α ++ [k + 1] <+: p) :
    p = α ++ [k + 1] ∧ e = .of c m ∨
      m.name = n ∧ ∃ j insn, m.body[j]? = some insn ∧
        equalsIgnoreCase fold insn.owner c = false ∧ α ++ [k + 1] ++ [j] <+: p := by
  rcases h.mentions_below hmention hle with rfl | ⟨k', j, m', insn, hk, hsought, hname, hinsn⟩
  · rcases h.mentions_part hmention with ⟨hk, -⟩ | ⟨k', m', hk, hm', he⟩
    · exact absurd hk (Nat.succ_ne_zero k)
    · rw [Nat.add_right_cancel_iff] at hk
      subst hk
      rw [hm, Option.some.injEq] at hm'
      exact Or.inl ⟨rfl, hm' ▸ he⟩
  · rw [Nat.add_right_cancel_iff] at hk
    subst hk
    rw [← Option.some.inj (hm.symm.trans hsought.2)] at hname hinsn
    exact Or.inr ⟨hname, j, insn, hinsn⟩

/-- A method that is listed already: its body is skipped, if it is sought. -/
theorem Upto.method_of_mem {α : List Nat} {c n : String} {k : Nat} {m : MethodDecl}
    (h : Upto U fold root name (· < α ++ [k + 1]) w) (hα : VisitorAt U fold root name α c n)
    (hreached : Reached U fold root name α) (hm : (U.methodsOf c)[k]? = some m)
    (hmem : .of c m ∈ w.methods) : Upto U fold root name (· < α ++ [k + 2]) w := by
  have hdecl : Declares U c m := mem_methodsOf.1 (List.mem_of_getElem? hm)
  have hskipped : m.name = n → ∀ j, Skipped U fold root name (α ++ [k + 1] ++ [j]) := by
    rintro rfl j
    obtain ⟨q, hq, hmention, hq'⟩ := h.listed c m hdecl hmem
    exact Sought.skipped ⟨hα, hm⟩ hq hmention hq' j
  refine h.meet (Walk.Le.refl w) (fun p hp => Paths.lt_append_succ.2 (Or.inl hp)) ?_
    (fun _ _ _ hmem => Or.inl hmem) ?_
  · intro p e hp hmention
    rcases Paths.lt_append_succ.1 hp with hp | hp
    · exact Or.inl hp
    · rcases hα.method_place hm hmention hp with ⟨rfl, rfl⟩ | ⟨hname, j, _, -, -, hbelow⟩
      · exact Or.inr (Or.inr ⟨hreached.part hα _, hmem⟩)
      · exact Or.inr (Or.inl ((hskipped hname j).below hbelow))
  · intro β k' c' m' hsought hp
    rcases Paths.lt_append_succ.1 hp with hp | hp
    · exact Or.inl hp
    · rcases hα.method_place hm hsought.mentions hp with ⟨hp, he⟩ | ⟨hname, j, _, -, -, hbelow⟩
      · obtain ⟨rfl, rfl⟩ := hsought.declares.unique hdecl he
        obtain ⟨rfl, hk⟩ := List.append_inj' hp rfl
        rw [hp]
        exact Or.inr (Or.inl (hskipped (hα.unique hsought.1).2.symm 0))
      · exact Or.inr (Or.inl ((hskipped hname j).below (hbelow.trans (List.prefix_append _ _))))

/-- What listing a new method changes. -/
theorem Upto.list {α : List Nat} {c n : String} {k : Nat} {m : MethodDecl}
    (h : Upto U fold root name (· < α ++ [k + 1]) w) (hα : VisitorAt U fold root name α c n)
    (hreached : Reached U fold root name α) (hm : (U.methodsOf c)[k]? = some m)
    (hle : Walk.Le w w') (hmem : ∀ e, e ∈ w'.methods ↔ e ∈ w.methods ∨ e = .of c m)
    (hscan : m.name = n → .of c m ∈ w'.scanned) :
    Upto U fold root name (· < α ++ [k + 1] ++ [0]) w' := by
  have hdecl : Declares U c m := mem_methodsOf.1 (List.mem_of_getElem? hm)
  refine h.meet hle (fun p hp => Paths.lt_append_zero.2 (Or.inl hp)) ?_ ?_ ?_
  · intro p e hp hmention
    rcases Paths.lt_append_zero.1 hp with hp | rfl
    · exact Or.inl hp
    · rcases hα.method_place hm hmention (List.prefix_refl _) with
        ⟨-, rfl⟩ | ⟨-, j, _, -, -, hbelow⟩
      · exact Or.inr (Or.inr ⟨hreached.part hα _, (hmem _).2 (Or.inr rfl)⟩)
      · exact absurd hbelow.length_le (by simp)
  · intro c' m' hm' he
    rcases (hmem _).1 he with he | he
    · exact Or.inl he
    · rw [he]
      exact Or.inr ⟨_, Paths.lt_append_zero.2 (Or.inr rfl), .own hα hm, hreached.part hα _⟩
  · intro β k' c' m' hsought hp
    rcases Paths.lt_append_zero.1 hp with hp | hp
    · exact Or.inl hp
    · obtain ⟨rfl, hk⟩ := List.append_inj' hp rfl
      simp only [List.cons.injEq, Nat.add_right_cancel_iff, and_true] at hk
      subst hk
      obtain ⟨rfl, hname⟩ := hα.unique hsought.1
      rw [← Option.some.inj (hm.symm.trans hsought.2)] at hname ⊢
      exact Or.inr (Or.inr (hscan hname.symm))

/-- Below an instruction something is mentioned only if it leaves the class. -/
theorem Sought.leaves_of_mentions {α p : List Nat} {k j : Nat} {c : String} {m : MethodDecl}
    {e : CMethodInfo} (h : Sought U fold root name α k c m)
    (hmention : Mentions U fold root name p e) (hle : α ++ [k + 1] ++ [j] <+: p) :
    ∃ insn, m.body[j]? = some insn ∧ equalsIgnoreCase fold insn.owner c = false := by
  rcases h.1.method_place h.2 hmention ((List.prefix_append _ _).trans hle) with ⟨rfl, -⟩ |
    ⟨-, j', insn, hinsn, hne, hle'⟩
  · exact absurd hle.length_le (by simp)
  · have hsame : α ++ [k + 1] ++ [j] = α ++ [k + 1] ++ [j'] :=
      (List.prefix_of_prefix_length_le hle hle' (by simp)).eq_of_length (by simp)
    have hj : j = j' := by simpa using hsame
    exact ⟨insn, hj ▸ hinsn, hne⟩

/-- The entry added after a call is listed already, if it is declared. -/
theorem Upto.call {β : List Nat} {o k : String} (descriptor : String)
    (h : Upto U fold root name (fun p => p < β ∨ β <+: p) w)
    (hβ : VisitorAt U fold root name β o k) (hreached : Reached U fold root name β) :
    Upto U fold root name (fun p => p < β ∨ β <+: p) (w.add ⟨o, k, descriptor⟩) := by
  refine h.meet (w.le_add _) (fun _ hp => hp) (fun _ _ hp _ => Or.inl hp) ?_
    (fun _ _ _ _ _ hp => Or.inl hp)
  intro c m hm hmem
  rcases Walk.mem_add.1 hmem with hmem | he
  · exact Or.inl hmem
  · obtain rfl : c = o := congrArg CMethodInfo.cClassName he
    obtain ⟨i, hi⟩ := List.getElem?_of_mem (mem_methodsOf.2 hm)
    exact Or.inr ⟨β ++ [i + 1], Or.inr (List.prefix_append _ _), .own hβ hi, hreached.part hβ _⟩

/-- One instruction, given what nested visitors do. -/
theorem FollowsOrder.insn {nested : String → String → Walk → Outcome Throwable Walk}
    (hnested : FollowsOrder U fold root name nested) {α : List Nat} {k j : Nat} {c : String}
    {m : MethodDecl} {insn : MethodInsn} (hsought : Sought U fold root name α k c m)
    (hreached : Reached U fold root name (α ++ [k + 1] ++ [j])) (hinsn : m.body[j]? = some insn)
    (h : Upto U fold root name (· < α ++ [k + 1] ++ [j]) w)
    (hread : ScannedRead U fold root name w) :
    ScannedRead U fold root name (visitMethodInsn fold nested c m.descriptor w insn).state ∧
      ((visitMethodInsn fold nested c m.descriptor w insn).thrown = none →
        Upto U fold root name (· < α ++ [k + 1] ++ [j + 1])
          (visitMethodInsn fold nested c m.descriptor w insn).state) := by
  by_cases heq : equalsIgnoreCase fold insn.owner c = true
  · rw [visitMethodInsn_of_same heq]
    refine ⟨hread, fun _ => h.widen (fun p hp => Paths.lt_append_succ.2 (Or.inl hp)) ?_⟩
    intro p e hp hmention
    rcases Paths.lt_append_succ.1 hp with hp | hp
    · exact hp
    · obtain ⟨insn', hinsn', hne⟩ := hsought.leaves_of_mentions hmention hp
      rw [hinsn, Option.some.injEq] at hinsn'
      rw [hinsn', hne] at heq
      cases heq
  · rw [Bool.not_eq_true] at heq
    rw [visitMethodInsn_of_ne heq]
    have hβ : VisitorAt U fold root name (α ++ [k + 1] ++ [j]) insn.owner insn.name :=
      .call hsought.1 hsought.2 hinsn heq
    obtain ⟨hread', hreturns⟩ := hnested _ _ _ w hβ hreached h hread
    by_cases hthrown : (nested insn.owner insn.name w).thrown = none
    · rw [Outcome.andThen_of_none hthrown]
      refine ⟨fun c' m' hm' hs => hread' c' m' hm' (by simpa using hs), fun _ => ?_⟩
      refine ((hreturns hthrown).call m.descriptor hβ hreached).widen
        (fun p hp => Paths.lt_append_succ.2 hp) (fun p _ hp _ => Paths.lt_append_succ.1 hp)
    · rw [Outcome.andThen_of_some hthrown]
      exact ⟨hread', fun h => absurd h hthrown⟩

/-- The pass over a body. -/
theorem FollowsOrder.body {nested : String → String → Walk → Outcome Throwable Walk}
    (hnested : FollowsOrder U fold root name nested) {α : List Nat} {k : Nat} {c : String}
    {m : MethodDecl} (hsought : Sought U fold root name α k c m)
    (hreached : ∀ j, Reached U fold root name (α ++ [k + 1] ++ [j]))
    (h : Upto U fold root name (· < α ++ [k + 1] ++ [0]) w)
    (hread : ScannedRead U fold root name w) :
    ScannedRead U fold root name
        (Outcome.forEach (visitMethodInsn fold nested c m.descriptor) w m.body).state ∧
      ((Outcome.forEach (visitMethodInsn fold nested c m.descriptor) w m.body).thrown = none →
        Upto U fold root name (· < α ++ [k + 2])
          (Outcome.forEach (visitMethodInsn fold nested c m.descriptor) w m.body).state) := by
  have hstep : ∀ j insn w, m.body[j]? = some insn →
      Upto U fold root name (· < α ++ [k + 1] ++ [j]) w ∧ ScannedRead U fold root name w →
      ScannedRead U fold root name (visitMethodInsn fold nested c m.descriptor w insn).state ∧
        ((visitMethodInsn fold nested c m.descriptor w insn).thrown = none →
          Upto U fold root name (· < α ++ [k + 1] ++ [j + 1])
              (visitMethodInsn fold nested c m.descriptor w insn).state ∧
            ScannedRead U fold root name
              (visitMethodInsn fold nested c m.descriptor w insn).state) := by
    intro j insn w hinsn hw
    obtain ⟨hread', hupto⟩ :=
      hnested.insn hsought (hreached j) hinsn hw.1 hw.2
    exact ⟨hread', fun hthrown => ⟨hupto hthrown, hread'⟩⟩
  obtain ⟨hread', hdone⟩ := Outcome.forEach_counted hstep (fun _ hw => hw.2) ⟨h, hread⟩
  refine ⟨hread', fun hthrown => (hdone hthrown).1.widen (fun p hp => ?_) ?_⟩
  · exact Paths.lt_append_succ.2 (Paths.lt_or_below_of_child hp)
  · -- no instruction comes after the last one
    intro p e hp hmention
    by_contra hn
    rcases Paths.lt_append_succ.1 hp with hp | hp
    · exact hn (Paths.lt_child hp _)
    · obtain ⟨i, hlen, hi⟩ := Paths.child_of_below hp hn
      obtain ⟨insn, hinsn, -⟩ := hsought.leaves_of_mentions hmention hi
      rw [List.getElem?_eq_none hlen] at hinsn
      cases hinsn

/-- One method of a class file, given what nested visitors do. -/
theorem FollowsOrder.method {nested : String → String → Walk → Outcome Throwable Walk}
    (hnested : FollowsOrder U fold root name nested) {α : List Nat} {k : Nat} {c n : String}
    {m : MethodDecl} (hα : VisitorAt U fold root name α c n)
    (hreached : Reached U fold root name α) (hm : (U.methodsOf c)[k]? = some m)
    (h : Upto U fold root name (· < α ++ [k + 1]) w) (hread : ScannedRead U fold root name w) :
    ScannedRead U fold root name (visitMethod fold nested c n w m).state ∧
      ((visitMethod fold nested c n w m).thrown = none →
        Upto U fold root name (· < α ++ [k + 2]) (visitMethod fold nested c n w m).state) := by
  by_cases hmem : .of c m ∈ w.methods
  · rw [visitMethod_of_mem hmem]
    exact ⟨hread, fun _ => h.method_of_mem hα hreached hm hmem⟩
  by_cases hn : m.name = n
  · subst hn
    rw [visitMethod_of_sought hmem]
    have hsought : Sought U fold root name α k c m := ⟨hα, hm⟩
    have hbody : ∀ j, Reached U fold root name (α ++ [k + 1] ++ [j]) :=
      hreached.body hsought (fun q hq hmention => h.skipped_of_not_mem hq hmention hmem)
    refine hnested.body hsought hbody (h.list hα hreached hm
      ((w.le_add _).trans (Walk.le_scan _ _)) (by simp) (by simp)) (fun c' m' hm' hs => ?_)
    rcases Walk.mem_scanned_scan_add.1 hs with hs | he
    · exact hread c' m' hm' hs
    · obtain ⟨rfl, rfl⟩ := hm'.unique hsought.declares he
      exact ⟨α, k, hsought, hbody 0⟩
  · rw [visitMethod_of_name_ne hmem hn]
    refine ⟨fun c' m' hm' hs => hread c' m' hm' (by simpa using hs), fun _ => ?_⟩
    refine (h.list hα hreached hm (w.le_add _) (by simp) (fun hname => absurd hname hn)).widen
      (fun p hp => Paths.lt_append_succ.2 (Paths.lt_or_below_of_child hp)) ?_
    -- the body of a method that is not sought holds no visitors
    intro p e hp hmention
    rcases Paths.lt_append_succ.1 hp with hp | hp
    · exact Paths.lt_child hp 0
    · rcases hα.method_place hm hmention hp with ⟨rfl, -⟩ | ⟨hname, -⟩
      · exact Paths.lt_append_zero.2 (Or.inr rfl)
      · exact absurd hname hn

/-- **The visitors follow the order.** -/
theorem accept_followsOrder (fuel : Nat) :
    FollowsOrder U fold root name (accept U fold fuel) := by
  induction fuel with
  | zero => exact fun α c n w _ _ _ hread => ⟨hread, fun h => nomatch h⟩
  | succ fuel ih =>
      intro α c n w hα hreached h hread
      by_cases hload : Loadable U c
      · obtain ⟨⟨cf, hfile⟩, clazz, hload⟩ := hload
        rw [accept_of_loadable hfile hload]
        have hmethods : U.methodsOf c = cf.methods := by
          rw [ClassUniverse.methodsOf, hfile]
        have hstep : ∀ k m w, cf.methods[k]? = some m →
            Upto U fold root name (· < α ++ [k + 1]) w ∧ ScannedRead U fold root name w →
            ScannedRead U fold root name (visitMethod fold (accept U fold fuel) c n w m).state ∧
              ((visitMethod fold (accept U fold fuel) c n w m).thrown = none →
                Upto U fold root name (· < α ++ [k + 1 + 1])
                    (visitMethod fold (accept U fold fuel) c n w m).state ∧
                  ScannedRead U fold root name
                    (visitMethod fold (accept U fold fuel) c n w m).state) := by
          intro k m w hm hw
          obtain ⟨hread', hupto⟩ := ih.method hα hreached (hmethods ▸ hm) hw.1 hw.2
          exact ⟨hread', fun hthrown => ⟨hupto hthrown, hread'⟩⟩
        obtain ⟨hread', hdone⟩ := Outcome.forEach_counted hstep (fun _ hw => hw.2)
          ⟨h.constructor hα hreached hload,
            fun c' m' hm' hs => hread c' m' hm' (by simpa using hs)⟩
        refine ⟨hread', fun hthrown => (hdone hthrown).1.widen
          (fun p hp => Paths.lt_or_below_of_child hp) ?_⟩
        -- no method comes after the last one
        intro p e hp hmention
        by_contra hn
        rcases hp with hp | hp
        · exact hn (Paths.lt_child hp _)
        · obtain ⟨i, hlen, hi⟩ := Paths.child_of_below hp hn
          have hle := hα.part_le hmention hi
          rw [hmethods] at hle
          exact absurd (hlen.trans hle) (Nat.not_succ_le_self _)
      · obtain ⟨e, he⟩ := accept_of_not_loadable hload
        rw [he fuel n w]
        exact ⟨hread, fun h => nomatch h⟩

/-! ## What a walk scans -/

/-- The walk as a whole: it starts before the first place, and has met all of them when it
    returns. -/
theorem trace_followsOrder : ScannedRead U fold root name (trace U fold root name).state ∧
    ((trace U fold root name).thrown = none →
      Upto U fold root name (fun _ => True) (trace U fold root name).state) := by
  have hstart : Upto U fold root name (· < []) .initial :=
    ⟨by simp, by simp [Walk.initial], by simp⟩
  have hnone : ScannedRead U fold root name .initial := by simp [ScannedRead, Walk.initial]
  obtain ⟨hread, hupto⟩ :=
    accept_followsOrder _ [] root name .initial .root reached_nil hstart hnone
  exact ⟨hread, fun hreturns => (hupto hreturns).widen (fun _ _ => trivial)
    (fun _ _ _ _ => Or.inr List.nil_prefix)⟩

/-- **A walk scans only bodies that are read**, also when it throws. -/
theorem read_of_scanned {c : String} {m : MethodDecl} (hm : Declares U c m)
    (hs : .of c m ∈ (trace U fold root name).state.scanned) : Read U fold root name c m :=
  trace_followsOrder.1 c m hm hs

/-- **A walk that returns has scanned exactly the bodies that are read.** -/
theorem scanned_iff_read (h : walk U fold root name = .ok w) {c : String} {m : MethodDecl}
    (hm : Declares U c m) : .of c m ∈ w.scanned ↔ Read U fold root name c m := by
  obtain ⟨hreturns, rfl⟩ := walk_eq_ok.1 h
  refine ⟨read_of_scanned hm, fun ⟨α, k, hsought, hreached⟩ => ?_⟩
  exact ((trace_followsOrder.2 hreturns).scanned α k c m hsought trivial).resolve_left
    hreached.not_skipped

/-- A read body is requested. -/
theorem VisitorAt.requested {α : List Nat} {c n : String} (h : VisitorAt U fold root name α c n) :
    Requested U fold root name c n := by
  induction h with
  | root => exact .root
  | call _ hm hinsn hne ih =>
      exact ih.call (mem_methodsOf.1 (List.mem_of_getElem? hm)) ⟨List.mem_of_getElem? hinsn, hne⟩

theorem Read.requested {c : String} {m : MethodDecl} (h : Read U fold root name c m) :
    Requested U fold root name c m.name := by
  obtain ⟨α, k, hsought, -⟩ := h
  exact hsought.1.requested

end

/-! ## Calls and classes -/

section

variable (U : ClassUniverse) (fold : Char → Char) (root name : String)

/-- Every call of another class from a body that is read has the property `P`. -/
def ReadCalls (P : MethodDecl → MethodInsn → Prop) : Prop :=
  ∀ c m insn, Read U fold root name c m → Leaves fold c m insn → P m insn

/-- A body that is read calls a method `k` of another class `o`. -/
def ReadCall (o k : String) : Prop :=
  ∃ c m insn, Read U fold root name c m ∧ Leaves fold c m insn ∧ insn.owner = o ∧ insn.name = k

/-- The root request, or a call from a body that is read. -/
def Opened (c n : String) : Prop := (c = root ∧ n = name) ∨ ReadCall U fold root name c n

end

section

variable {U : ClassUniverse} {fold : Char → Char} {root name : String} {w : Walk}
  {P : MethodDecl → MethodInsn → Prop}

theorem RequestedCalls.readCalls (h : RequestedCalls U fold root name P) :
    ReadCalls U fold root name P :=
  fun c m insn hread hl => h c m insn hread.requested hread.declares hl

theorem ReadCalls.scannedCalls (h : ReadCalls U fold root name P) :
    ScannedCalls U fold (trace U fold root name).state P :=
  fun c m insn hm hs hl => h c m insn (read_of_scanned hm hs) hl

theorem scannedCalls_iff_readCalls (h : walk U fold root name = .ok w) :
    ScannedCalls U fold w P ↔ ReadCalls U fold root name P := by
  constructor
  · intro hcalls c m insn hread hl
    exact hcalls c m insn hread.declares ((scanned_iff_read h hread.declares).2 hread) hl
  · intro hcalls c m insn hm hs hl
    exact hcalls c m insn ((scanned_iff_read h hm).1 hs) hl

/-- The calls that are read, for a walk that is known. -/
theorem readCall_iff (h : walk U fold root name = .ok w) {o k : String} :
    ReadCall U fold root name o k ↔
      ∃ info ∈ w.scanned, ∃ m ∈ U.methodsOf info.cClassName, .of info.cClassName m = info ∧
        ∃ insn ∈ m.body, equalsIgnoreCase fold insn.owner info.cClassName = false ∧
          insn.owner = o ∧ insn.name = k := by
  constructor
  · rintro ⟨c, m, insn, hread, hl, ho, hk⟩
    exact ⟨.of c m, (scanned_iff_read h hread.declares).2 hread, m, mem_methodsOf.2 hread.declares,
      rfl, insn, hl.1, hl.2, ho, hk⟩
  · rintro ⟨info, hs, m, hm, hinfo, insn, hinsn, hne, ho, hk⟩
    rw [mem_methodsOf] at hm
    exact ⟨info.cClassName, m, insn, (scanned_iff_read h hm).1 (hinfo.symm ▸ hs), ⟨hinsn, hne⟩,
      ho, hk⟩

theorem visited_iff_opened (h : walk U fold root name = .ok w) {c n : String} :
    (c, n) ∈ w.visited ↔ Opened U fold root name c n := by
  have hfin := walk_finished h
  constructor
  · intro hv
    rcases steps_wanted hfin.steps _ hv with hroot | ⟨c', m, insn, hm, -, hs, hl, ho, hk⟩
    · exact Or.inl hroot
    · exact Or.inr ⟨c', m, insn, (scanned_iff_read h hm).1 hs, hl, ho, hk⟩
  · rintro (⟨rfl, rfl⟩ | ⟨c', m, insn, hread, hl, rfl, rfl⟩)
    · exact hfin.root
    · have hs := (scanned_iff_read h hread.declares).2 hread
      exact (hfin.followed _ hs c' m insn hread.declares rfl hl).1

/-- Where each requested body is `Isolated`, those that call another class are all read. -/
theorem Isolated.read (hiso : Isolated U fold root name) (h : walk U fold root name = .ok w)
    {c : String} {m : MethodDecl} {insn : MethodInsn} (hreq : Requested U fold root name c m.name)
    (hm : Declares U c m) (hl : Leaves fold c m insn) : Read U fold root name c m :=
  (scanned_iff_read h hm).1 ((walk_finished h).scanned_of_requested hiso hreq hm hl)

theorem Isolated.readCalls_iff (hiso : Isolated U fold root name)
    (h : walk U fold root name = .ok w) :
    ReadCalls U fold root name P ↔ RequestedCalls U fold root name P :=
  ⟨fun hcalls c m insn hreq hm hl => hcalls c m insn (hiso.read h hreq hm hl) hl,
    RequestedCalls.readCalls⟩

theorem Isolated.opened_iff (hiso : Isolated U fold root name)
    (h : walk U fold root name = .ok w) {c n : String} :
    Opened U fold root name c n ↔ Requested U fold root name c n := by
  rw [← visited_iff_opened h]
  exact ⟨(walk_finished h).requested, (walk_finished h).visited_of_requested hiso⟩

end

end Jma
