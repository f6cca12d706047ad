import Jma.Hierarchy.ReadBodies

set_option autoImplicit false

/-! # Can valid code make the walk throw?

`visitMethodInsn` opens a class file for whatever owner an instruction names, and gives up the walk
when there is none. Valid code calls methods of classes that can be found, but also methods of array
types, such as `clone`, and an array type has no class file. -/

namespace Jma

open HierarchyClassVisitor MethodHierarchyUtil

/-- An array type has an internal name that starts with a bracket, `[Ljava/lang/String;`. -/
def isArray (owner : String) : Bool := startsWith owner "["

/-- Each class that an instruction of the universe names as its owner can be found, unless it is an
    array type. -/
def OwnersLoadable (U : ClassUniverse) : Prop :=
  ∀ c ∈ U.classes, ∀ m ∈ c.methods, ∀ insn ∈ m.body, isArray insn.owner = false →
    Loadable U insn.owner

/-- No class file holds an array type. -/
def NoArrayClass (U : ClassUniverse) : Prop := ∀ c ∈ U.classes, isArray c.name = false

instance (U : ClassUniverse) : Decidable (NoArrayClass U) :=
  inferInstanceAs (Decidable (∀ c ∈ U.classes, isArray c.name = false))

section

variable {U : ClassUniverse} {fold : Char → Char} {root name : String}

/-! ## Why a walk throws -/

/-- Nothing has to be known to keep only what visitors record. -/
theorem walkInvariant_true : WalkInvariant U fold root name (fun _ => True) :=
  ⟨fun _ _ _ => trivial, fun _ _ _ => trivial, fun _ _ _ => trivial, fun _ _ _ _ => trivial,
    fun _ _ _ _ _ => trivial⟩

/-- An instruction that throws has made its nested visitor throw. -/
theorem visitMethodInsn_of_thrown {nested : String → String → Walk → Outcome Throwable Walk}
    {c descriptor : String} {w : Walk} {insn : MethodInsn}
    (h : (visitMethodInsn fold nested c descriptor w insn).thrown ≠ none) :
    equalsIgnoreCase fold insn.owner c = false ∧
      visitMethodInsn fold nested c descriptor w insn = nested insn.owner insn.name w := by
  by_cases heq : equalsIgnoreCase fold insn.owner c = true
  · rw [visitMethodInsn_of_same heq] at h
    exact absurd rfl h
  · rw [Bool.not_eq_true] at heq
    rw [visitMethodInsn_of_ne heq] at h ⊢
    refine ⟨heq, Outcome.andThen_of_some (fun hnone => ?_) _⟩
    rw [Outcome.andThen_of_none hnone] at h
    exact h rfl

/-- A method that throws has been scanned up to an instruction that throws. -/
theorem visitMethod_of_thrown {nested : String → String → Walk → Outcome Throwable Walk}
    (hnested : KeepsInvariants U fold root name nested)
    {c n : String} {m : MethodDecl} (hm : Declares U c m) {w : Walk} (hv : (c, n) ∈ w.visited)
    (h : (visitMethod fold nested c n w m).thrown ≠ none) :
    ∃ w' insn, insn ∈ m.body ∧ InBody (fun _ => True) c m w' ∧
      visitMethod fold nested c n w m = visitMethodInsn fold nested c m.descriptor w' insn := by
  by_cases hmem : CMethodInfo.of c m ∈ w.methods
  · rw [visitMethod_of_mem hmem] at h
    exact absurd rfl h
  by_cases hn : m.name = n
  · subst hn
    rw [visitMethod_of_sought hmem] at h ⊢
    obtain ⟨w', insn, hinsn, hw', heq⟩ := Outcome.exists_of_thrown_forEach
      (P := InBody (fun _ => True) c m)
      (fun w' insn hinsn hw' => walkInvariant_true.visitMethodInsn hnested hm hinsn hw')
      ⟨trivial, by simpa using hv, by simp⟩ h
    exact ⟨w', insn, hinsn, hw', heq⟩
  · rw [visitMethod_of_name_ne hmem hn] at h
    exact absurd rfl h

/-- A visitor of a class that is found throws because a nested one does, created for an instruction
    of a scanned body. -/
theorem accept_of_thrown {fuel : Nat} {c n : String} (hload : Loadable U c) {w : Walk}
    (hwant : Wanted U fold root name w c n) (h : (accept U fold (fuel + 1) c n w).thrown ≠ none) :
    ∃ w' m insn, Declares U c m ∧ (c, m.name) ∈ w'.visited ∧ CMethodInfo.of c m ∈ w'.scanned ∧
      Leaves fold c m insn ∧
      accept U fold (fuel + 1) c n w = accept U fold fuel insn.owner insn.name w' := by
  obtain ⟨⟨cf, hread⟩, clazz, hload⟩ := hload
  have hnested : KeepsInvariants U fold root name (accept U fold fuel) :=
    accept_keepsInvariants fuel
  have hmethods : accept U fold (fuel + 1) c n w = Outcome.forEach
      (visitMethod fold (accept U fold fuel) c n)
      ((superMethods clazz).foldl Walk.add (w.enter c n)) cf.methods :=
    accept_of_loadable hread hload
  rw [hmethods] at h
  obtain ⟨w₁, m, hm, ⟨-, hv⟩, heq⟩ := Outcome.exists_of_thrown_forEach
    (P := fun w => True ∧ (c, n) ∈ w.visited)
    (fun w' m hm hw' => walkInvariant_true.visitMethod hnested ⟨cf, hread, hm⟩ hw')
    (walkInvariant_true.init hread hload hwant trivial) h
  rw [heq] at h
  have hdecl : Declares U c m := ⟨cf, hread, hm⟩
  obtain ⟨w₂, insn, hinsn, ⟨-, hv, hs⟩, hbody⟩ := visitMethod_of_thrown hnested hdecl hv h
  rw [hbody] at h
  obtain ⟨hne, hcall⟩ := visitMethodInsn_of_thrown h
  exact ⟨w₂, m, insn, hdecl, hv, hs, ⟨hinsn, hne⟩,
    hmethods.trans (heq.trans (hbody.trans hcall))⟩

/-- A visitor throws because its own class is not found, or one that a scanned body calls, unless it
    is nested too deeply. -/
theorem not_loadable_of_thrown {fuel : Nat} {c n : String} {w : Walk}
    (hwant : Wanted U fold root name w c n) (h : (accept U fold fuel c n w).thrown ≠ none)
    (hfuel : (accept U fold fuel c n w).thrown ≠ some .outOfFuel) :
    ¬Loadable U c ∨ ¬ScannedCalls U fold (accept U fold fuel c n w).state
      (fun _ insn => Loadable U insn.owner) := by
  induction fuel generalizing c n w with
  | zero => exact absurd rfl hfuel
  | succ fuel ih =>
      by_cases hload : Loadable U c
      · obtain ⟨w', m, insn, hm, hv, hs, hl, heq⟩ := accept_of_thrown hload hwant h
        rw [heq] at h hfuel ⊢
        have hcall : Wanted U fold root name w' insn.owner insn.name :=
          Or.inr ⟨c, m, insn, hm, hv, hs, hl, rfl, rfl⟩
        rcases ih hcall h hfuel with hmissing | hstuck
        · have hkept : .of c m ∈ (accept U fold fuel insn.owner insn.name w').state.scanned :=
            accept_keepsInvariants fuel _ (walkInvariant_scanned (.of c m)) _ _ _ hcall hs
          exact Or.inr (fun hcalls => hmissing (hcalls c m insn hm hkept hl))
        · exact Or.inr hstuck
      · exact Or.inl hload

/-- A visitor is recorded only for a class that is found. -/
theorem loadable_of_mem_visited {c n : String}
    (hv : (c, n) ∈ (trace U fold root name).state.visited) : Loadable U c :=
  WalkInvariant.trace (P := fun w => ∀ v ∈ w.visited, Loadable U v.1) walkInvariant_loadable
    (fun _ hv => absurd hv List.not_mem_nil) (c, n) hv

/-- **When a walk returns.** The root is found, and so is every class that a scanned body calls. -/
theorem thrown_trace_eq_none_iff : (trace U fold root name).thrown = none ↔
    Loadable U root ∧
      ScannedCalls U fold (trace U fold root name).state (fun _ insn => Loadable U insn.owner) := by
  constructor
  · intro h
    have hfin := walk_finished (walk_eq_ok.2 ⟨h, rfl⟩)
    refine ⟨loadable_of_mem_visited hfin.root, fun c m insn hm hs hl => ?_⟩
    have hv : (insn.owner, insn.name) ∈ (trace U fold root name).state.visited :=
      (hfin.followed _ hs c m insn hm rfl hl).1
    exact loadable_of_mem_visited hv
  · rintro ⟨hroot, hcalls⟩
    by_contra h
    have hfuel := trace_ne_outOfFuel U fold root name
    have hwant : Wanted U fold root name .initial root name := Or.inl ⟨rfl, rfl⟩
    rcases not_loadable_of_thrown hwant h hfuel with hmissing | hstuck
    · exact hmissing hroot
    · exact hstuck hcalls

/-! ## Calls of array types -/

/-- The owner of an instruction is found unless it is an array type. -/
theorem loadable_iff_not_isArray (howners : OwnersLoadable U) (harray : NoArrayClass U) {c : String}
    {m : MethodDecl} {insn : MethodInsn} (hm : Declares U c m) (hinsn : insn ∈ m.body) :
    Loadable U insn.owner ↔ isArray insn.owner = false := by
  constructor
  · rintro ⟨⟨cf, hread⟩, -⟩
    obtain ⟨hmem, hname⟩ := ClassUniverse.mem_of_classReader hread
    rw [replaceAll_of_not_mem insn.internal] at hname
    rw [← hname]
    exact harray cf hmem
  · intro h
    obtain ⟨cf, hread, hm⟩ := hm
    exact howners cf (ClassUniverse.mem_of_classReader hread).1 m hm insn hinsn h

theorem scannedCalls_loadable_iff (howners : OwnersLoadable U) (harray : NoArrayClass U)
    {w : Walk} : ScannedCalls U fold w (fun _ insn => Loadable U insn.owner) ↔
      ScannedCalls U fold w (fun _ insn => isArray insn.owner = false) := by
  constructor
  · intro h c m insn hm hs hl
    exact (loadable_iff_not_isArray howners harray hm hl.1).1 (h c m insn hm hs hl)
  · intro h c m insn hm hs hl
    exact (loadable_iff_not_isArray howners harray hm hl.1).2 (h c m insn hm hs hl)

theorem returns_iff : (∃ methods, readClassMethodHierarchy U fold root name = .ok methods) ↔
    (trace U fold root name).thrown = none := by
  unfold readClassMethodHierarchy walk Outcome.toExcept
  cases (trace U fold root name).thrown <;> simp [Except.map]

/-- **Which calls make the walk throw.** Where every owner but the array types is found, the walk
    returns exactly when the root is found and no body that is read calls a method of an array type.
    It is enough that no requested body makes such a call, and where each requested body is
    `Isolated` this is necessary, too. -/
theorem walk_returns_iff (howners : OwnersLoadable U) (harray : NoArrayClass U) :
    ((∃ methods, readClassMethodHierarchy U fold root name = .ok methods) ↔
      Loadable U root ∧ ReadCalls U fold root name (fun _ insn => isArray insn.owner = false)) ∧
    (Loadable U root → RequestedCalls U fold root name (fun _ insn => isArray insn.owner = false) →
      ∃ methods, readClassMethodHierarchy U fold root name = .ok methods) ∧
    (Isolated U fold root name →
      ((∃ methods, readClassMethodHierarchy U fold root name = .ok methods) ↔
        Loadable U root ∧
          RequestedCalls U fold root name (fun _ insn => isArray insn.owner = false))) := by
  have hreturns : (∃ methods, readClassMethodHierarchy U fold root name = .ok methods) ↔
      Loadable U root ∧ ReadCalls U fold root name (fun _ insn => isArray insn.owner = false) := by
    rw [returns_iff]
    constructor
    · intro h
      obtain ⟨hroot, hcalls⟩ := thrown_trace_eq_none_iff.1 h
      rw [scannedCalls_loadable_iff howners harray] at hcalls
      exact ⟨hroot, (scannedCalls_iff_readCalls (walk_eq_ok.2 ⟨h, rfl⟩)).1 hcalls⟩
    · rintro ⟨hroot, hcalls⟩
      refine thrown_trace_eq_none_iff.2 ⟨hroot, ?_⟩
      rw [scannedCalls_loadable_iff howners harray]
      exact hcalls.scannedCalls
  refine ⟨hreturns, fun hroot hcalls => hreturns.2 ⟨hroot, hcalls.readCalls⟩, fun hiso => ?_⟩
  constructor
  · intro h
    have hwalk := walk_eq_ok.2 ⟨returns_iff.1 h, rfl⟩
    exact ⟨(hreturns.1 h).1, (hiso.readCalls_iff hwalk).1 (hreturns.1 h).2⟩
  · rintro ⟨hroot, hcalls⟩
    exact hreturns.2 ⟨hroot, hcalls.readCalls⟩

end

/-! ### An enumeration -/

namespace EnumDemo

def values : MethodDecl where
  name := "values"
  descriptor := "()[Lpaint/Color;"
  body := [{ owner := "[Lpaint/Color;", name := "clone", descriptor := "()Ljava/lang/Object;" }]

def ordinal : MethodDecl := ⟨"ordinal", "()I", []⟩

/-- The `values` method that the compiler gives an `enum` clones the array of its constants. -/
def color : ClassFile where
  name := "paint/Color"
  superclass := none
  isInterface := false
  methods := [values, ordinal]

def run : MethodDecl where
  name := "run"
  descriptor := "()V"
  body := [{ owner := "paint/Color", name := "values", descriptor := "()[Lpaint/Color;" }]

def rank : MethodDecl where
  name := "rank"
  descriptor := "()I"
  body := [{ owner := "paint/Color", name := "ordinal", descriptor := "()I" }]

def repaint : MethodDecl where
  name := "repaint"
  descriptor := "()V"
  body :=
    [{ owner := "paint/Color", name := "ordinal", descriptor := "()I" },
     { owner := "paint/Color", name := "values", descriptor := "()[Lpaint/Color;" }]

def canvas : ClassFile where
  name := "paint/Canvas"
  superclass := none
  isInterface := false
  methods := [run, repaint]

def classPath : ClassUniverse where
  classes := [color, canvas]

theorem loadable_color : Loadable classPath "paint/Color" :=
  ⟨⟨color, by decide⟩, ⟨color, []⟩, rfl⟩

theorem loadable_canvas : Loadable classPath "paint/Canvas" :=
  ⟨⟨canvas, by decide⟩, ⟨canvas, []⟩, rfl⟩

theorem ownersLoadable : OwnersLoadable classPath := by
  have howner : ∀ c ∈ classPath.classes, ∀ m ∈ c.methods, ∀ insn ∈ m.body,
      isArray insn.owner = true ∨ insn.owner = "paint/Color" := by decide
  intro c hc m hm insn hinsn h
  rcases howner c hc m hm insn hinsn with harray | hname
  · rw [h] at harray
    cases harray
  · rw [hname]
    exact loadable_color

theorem sought_canvas {k : Nat} {m : MethodDecl}
    (hm : (classPath.methodsOf "paint/Canvas")[k]? = some m) (hname : m.name = "repaint") :
    k = 1 ∧ m = repaint := by
  match k, hm with
  | 0, hm =>
      cases hm
      exact absurd hname (by decide)
  | 1, hm =>
      cases hm
      exact ⟨rfl, rfl⟩

theorem methodsOf_color {k : Nat} {m : MethodDecl}
    (hm : (classPath.methodsOf "paint/Color")[k]? = some m) :
    (k = 0 ∧ m = values) ∨ (k = 1 ∧ m = ordinal) := by
  match k, hm with
  | 0, hm =>
      cases hm
      exact Or.inl ⟨rfl, rfl⟩
  | 1, hm =>
      cases hm
      exact Or.inr ⟨rfl, rfl⟩

theorem methodsOf_array : classPath.methodsOf "[Lpaint/Color;" = [] := by decide

/-- The visitors of `repaint`: two for `Color`, the second of which seeks `values`. -/
theorem visitorAt_repaint {α : List Nat} {c n : String}
    (h : VisitorAt classPath Char.toLower "paint/Canvas" "repaint" α c n) :
    (α = [] ∧ c = "paint/Canvas" ∧ n = "repaint") ∨
      (α = [2, 0] ∧ c = "paint/Color" ∧ n = "ordinal") ∨
      (α = [2, 1] ∧ c = "paint/Color" ∧ n = "values") ∨
      (α = [2, 1, 1, 0] ∧ c = "[Lpaint/Color;") := by
  induction h with
  | root => exact Or.inl ⟨rfl, rfl, rfl⟩
  | @call α c m insn k j _ hm hinsn _ ih =>
      rcases ih with ⟨rfl, rfl, hn⟩ | ⟨rfl, rfl, hn⟩ | ⟨rfl, rfl, hn⟩ | ⟨rfl, rfl⟩
      · obtain ⟨rfl, rfl⟩ := sought_canvas hm hn
        match j, hinsn with
        | 0, hinsn =>
            cases hinsn
            exact Or.inr (Or.inl ⟨rfl, rfl, rfl⟩)
        | 1, hinsn =>
            cases hinsn
            exact Or.inr (Or.inr (Or.inl ⟨rfl, rfl, rfl⟩))
      · obtain ⟨-, rfl⟩ | ⟨-, rfl⟩ := methodsOf_color hm
        · exact absurd hn (by decide)
        · cases hinsn
      · obtain ⟨rfl, rfl⟩ | ⟨-, rfl⟩ := methodsOf_color hm
        · match j, hinsn with
          | 0, hinsn =>
              cases hinsn
              exact Or.inr (Or.inr (Or.inr ⟨rfl, rfl⟩))
        · exact absurd hn (by decide)
      · rw [methodsOf_array] at hm
        cases hm

theorem sought_repaint :
    Sought classPath Char.toLower "paint/Canvas" "repaint" [] 1 "paint/Canvas" repaint :=
  ⟨.root, by decide⟩

/-- The first place that mentions `repaint` is the one where it is sought. -/
theorem reached_repaint (j : Nat) :
    Reached classPath Char.toLower "paint/Canvas" "repaint" ([] ++ [1 + 1] ++ [j]) := by
  refine reached_nil.body sought_repaint (fun q hq hmention => ?_) j
  obtain ⟨β, i, c, n, rfl, hβ⟩ := hmention.exists_part
  rcases visitorAt_repaint hβ with ⟨rfl, rfl, rfl⟩ | ⟨rfl, -⟩ | ⟨rfl, -⟩ | ⟨rfl, -⟩
  · rcases hβ.mentions_part hmention with ⟨-, s, m, ⟨cf, hread, hs, -⟩, -⟩ | ⟨k, m, rfl, hm, he⟩
    · have hcanvas : classPath.classReader "paint/Canvas" = .ok canvas := by decide
      rw [hcanvas, Except.ok.injEq] at hread
      subst hread
      cases hs with
      | direct hname _ => cases hname
      | further hname _ _ => cases hname
    · obtain ⟨rfl, -⟩ := sought_canvas hm (congrArg CMethodInfo.methodName he).symm
      simp at hq
  all_goals simp at hq

/-- `values` is listed with `ordinal`, so its body is not read: no call of an array type is. -/
theorem noArrayCall_repaint : ReadCalls classPath Char.toLower "paint/Canvas" "repaint"
    (fun _ insn => isArray insn.owner = false) := by
  rintro c m insn ⟨α, k, hsought, hreached⟩ hl
  rcases visitorAt_repaint hsought.1 with ⟨rfl, rfl, hn⟩ | ⟨rfl, rfl, hn⟩ | ⟨rfl, rfl, hn⟩ |
    ⟨rfl, rfl⟩
  · obtain ⟨-, rfl⟩ := sought_canvas hsought.2 hn
    have hcalls : ∀ insn ∈ repaint.body, isArray insn.owner = false := by decide
    exact hcalls insn hl.1
  · obtain ⟨-, rfl⟩ | ⟨-, rfl⟩ := methodsOf_color hsought.2
    · exact absurd hn (by decide)
    · exact absurd hl.1 List.not_mem_nil
  · have hskipped := sought_repaint.skipped_in_second_call (reached_repaint 0) rfl (by decide)
      Nat.zero_lt_one hsought 0
    exact absurd hskipped hreached.not_skipped
  · have hnone := hsought.2
    rw [methodsOf_array] at hnone
    cases hnone

end EnumDemo

open EnumDemo

/-- An entry that calls `values` of an `enum`: the walk throws. -/
theorem enum_values_throws :
    OwnersLoadable classPath ∧ NoArrayClass classPath ∧ Loadable classPath "paint/Canvas" ∧
      readClassMethodHierarchy classPath Char.toLower "paint/Canvas" "run" = .error .ioException :=
  ⟨ownersLoadable, by decide, loadable_canvas, by decide⟩

/-- An entry that calls `ordinal`, and then `values`, of the same `enum`: the walk returns. -/
theorem enum_ordinal_returns : ∃ methods,
    readClassMethodHierarchy classPath Char.toLower "paint/Canvas" "repaint" = .ok methods :=
  (walk_returns_iff ownersLoadable (by decide)).1.2 ⟨loadable_canvas, noArrayCall_repaint⟩

end Jma
