import Jma.Hierarchy.Termination
import Jma.Hierarchy.Invariants

set_option autoImplicit false

/-! # The walk terminates

A visitor that scans a body lists its method first, so nested visitors scan fewer and fewer bodies:
the nesting is bounded by the number of declared methods, and no body is scanned a second time. Both
hold of a walk that throws as well, and both depend on the spelling of the root: `agentmain` gives
the internal name, but `new ClassReader` takes the name with dots, too, and then the methods of the
root are listed under two names. -/

namespace Jma

open HierarchyClassVisitor MethodHierarchyUtil

section

variable {U : ClassUniverse} {fold : Char → Char}

/-! ## More fuel makes no difference -/

theorem visitMethodInsn_eq_of_ne {nested nested' : String → String → Walk → Outcome Throwable Walk}
    (hnested : ∀ o k w, (nested o k w).thrown ≠ some .outOfFuel → nested' o k w = nested o k w)
    {c descriptor : String} {w : Walk} {insn : MethodInsn}
    (h : (visitMethodInsn fold nested c descriptor w insn).thrown ≠ some .outOfFuel) :
    visitMethodInsn fold nested' c descriptor w insn
      = visitMethodInsn fold nested c descriptor w insn := by
  by_cases heq : equalsIgnoreCase fold insn.owner c = true
  · rw [visitMethodInsn_of_same heq, visitMethodInsn_of_same heq]
  · rw [Bool.not_eq_true] at heq
    rw [visitMethodInsn_of_ne heq] at h
    rw [visitMethodInsn_of_ne heq, visitMethodInsn_of_ne heq, hnested]
    intro hfuel
    rw [Outcome.andThen_of_some (by simp [hfuel])] at h
    exact h hfuel

theorem visitMethod_eq_of_ne {nested nested' : String → String → Walk → Outcome Throwable Walk}
    (hnested : ∀ o k w, (nested o k w).thrown ≠ some .outOfFuel → nested' o k w = nested o k w)
    {c n : String} {w : Walk} {m : MethodDecl}
    (h : (visitMethod fold nested c n w m).thrown ≠ some .outOfFuel) :
    visitMethod fold nested' c n w m = visitMethod fold nested c n w m := by
  by_cases hmem : CMethodInfo.of c m ∈ w.methods
  · rw [visitMethod_of_mem hmem, visitMethod_of_mem hmem]
  by_cases hn : m.name = n
  · subst hn
    rw [visitMethod_of_sought hmem] at h
    rw [visitMethod_of_sought hmem, visitMethod_of_sought hmem]
    exact Outcome.forEach_eq_of_ne (fun _ _ => visitMethodInsn_eq_of_ne hnested) h
  · rw [visitMethod_of_name_ne hmem hn, visitMethod_of_name_ne hmem hn]

/-- A visitor that does not run out of nesting behaves the same when more is allowed. -/
theorem accept_succ_eq {fuel : Nat} {c n : String} {w : Walk}
    (h : (accept U fold fuel c n w).thrown ≠ some .outOfFuel) :
    accept U fold (fuel + 1) c n w = accept U fold fuel c n w := by
  induction fuel generalizing c n w with
  | zero => exact absurd rfl h
  | succ fuel ih =>
      by_cases hload : Loadable U c
      · obtain ⟨⟨cf, hread⟩, clazz, hload⟩ := hload
        rw [accept_of_loadable hread hload] at h
        rw [accept_of_loadable hread hload, accept_of_loadable hread hload]
        exact Outcome.forEach_eq_of_ne (fun _ _ => visitMethod_eq_of_ne (fun _ _ _ => ih)) h
      · obtain ⟨e, he⟩ := accept_of_not_loadable hload
        rw [he, he]

theorem accept_eq_of_le {fuel fuel' : Nat} {c n : String} {w : Walk}
    (h : (accept U fold fuel c n w).thrown ≠ some .outOfFuel) (hle : fuel ≤ fuel') :
    accept U fold fuel' c n w = accept U fold fuel c n w := by
  induction fuel', hle using Nat.le_induction with
  | base => rfl
  | succ fuel' _ ih => rw [accept_succ_eq (by rwa [ih]), ih]

end

/-! ## No body is scanned twice -/

/-- No method is scanned twice, and what is scanned is listed. -/
structure ScansOnce (w : Walk) : Prop where
  nodup : w.scanned.Nodup
  listed : w.scanned ⊆ w.methods

theorem ScansOnce.add {w : Walk} (h : ScansOnce w) (info : CMethodInfo) :
    ScansOnce (w.add info) where
  nodup := by simpa using h.nodup
  listed e he := by
    rw [Walk.scanned_add] at he
    exact Walk.mem_add.2 (Or.inl (h.listed he))

/-- A method that is scanned has just been listed for the first time. -/
theorem ScansOnce.scan {w : Walk} (h : ScansOnce w) {info : CMethodInfo}
    (hnew : info ∉ w.methods) : ScansOnce ((w.add info).scan info) where
  nodup := by
    rw [Walk.scanned_scan, Walk.scanned_add, List.perm_append_comm.nodup_iff,
      List.singleton_append, List.nodup_cons]
    exact ⟨fun hs => hnew (h.listed hs), h.nodup⟩
  listed e he := by
    rw [Walk.mem_scanned_scan_add] at he
    exact Walk.mem_add.2 (he.imp_left (fun hs => h.listed hs))

theorem walkInvariant_scansOnce {U : ClassUniverse} {fold : Char → Char} {root name : String} :
    WalkInvariant U fold root name ScansOnce where
  enter _ _ hw := ⟨hw.nodup, hw.listed⟩
  super _ _ hw := hw.add _
  list _ _ hw := hw.add _
  scan _ _ hnew hw := hw.scan hnew
  call _ _ _ _ hw := hw.add _

/-! ## Visitors of classes by their internal names -/

/-- The classes visited are spelled as in their class files, and what is scanned is declared
    there. -/
structure Internal (U : ClassUniverse) (w : Walk) : Prop where
  visited : ∀ v ∈ w.visited, '.' ∉ v.1.toList
  scanned : w.scanned ⊆ U.declared

theorem Internal.add {U : ClassUniverse} {w : Walk} (h : Internal U w) (info : CMethodInfo) :
    Internal U (w.add info) :=
  ⟨by simpa using h.visited, by simpa using h.scanned⟩

theorem walkInvariant_internal {U : ClassUniverse} {fold : Char → Char} {root name : String}
    (hroot : '.' ∉ root.toList) : WalkInvariant U fold root name (Internal U) where
  enter _ hwant hw := by
    refine ⟨fun v hv => ?_, hw.scanned⟩
    rcases Walk.mem_visited_enter.1 hv with hv | rfl
    · exact hw.visited v hv
    · rcases hwant with ⟨rfl, -⟩ | ⟨_, _, insn, -, -, -, -, rfl, -⟩
      · exact hroot
      · exact insn.internal
  super _ _ hw := hw.add _
  list _ _ hw := hw.add _
  scan hv hm _ hw := by
    refine ⟨by simpa using hw.visited, fun e he => ?_⟩
    rcases Walk.mem_scanned_scan_add.1 he with he | rfl
    · exact hw.scanned he
    · exact hm.mem_declared (hw.visited _ hv)
  call _ _ _ _ hw := hw.add _

/-- **The walk terminates.** `readClassMethodHierarchy` returns or throws, and allowing more nested
    visitors changes nothing. For a root given by its internal name, which is what `agentmain`
    passes, what is scanned are declared methods, none of them twice, not even in a walk that
    throws; and it never nests more visitors than the universe declares methods, and one more: it is
    the same walk when no others are allowed. -/
theorem walk_terminates (U : ClassUniverse) (fold : Char → Char) (root name : String) :
    readClassMethodHierarchy U fold root name ≠ .error .outOfFuel ∧
    (∀ fuel, U.declared.length + 2 ≤ fuel →
      accept U fold fuel root name .initial = trace U fold root name) ∧
    (trace U fold root name).state.scanned.Nodup ∧
    ('.' ∉ root.toList →
      (trace U fold root name).state.scanned ⊆ U.declared ∧
      accept U fold (U.declared.length + 1) root name .initial = trace U fold root name) := by
  have hfuel := trace_ne_outOfFuel U fold root name
  have honce : ScansOnce (trace U fold root name).state :=
    walkInvariant_scansOnce.trace ⟨List.nodup_nil, by simp [Walk.initial]⟩
  refine ⟨readClassMethodHierarchy_ne_outOfFuel U fold root name,
    fun fuel hle => accept_eq_of_le hfuel hle, honce.nodup, fun hroot => ?_⟩
  have hinternal : Internal U (trace U fold root name).state :=
    (walkInvariant_internal hroot).trace ⟨by simp [Walk.initial], by simp [Walk.initial]⟩
  have hbound : unlisted U .initial < U.declared.length + 1 :=
    Nat.lt_succ_of_le (List.length_filter_le _ _)
  exact ⟨hinternal.scanned,
    (accept_eq_of_le (accept_ne_outOfFuel hroot hbound) (Nat.le_succ _)).symm⟩

/-! ### Mutual recursion -/

namespace MutualDemo

def ping : ClassFile where
  name := "demo/Ping"
  superclass := none
  isInterface := false
  methods := [⟨"ping", "()V", [{ owner := "demo/Pong", name := "pong", descriptor := "()V" }]⟩]

def pong : ClassFile where
  name := "demo/Pong"
  superclass := none
  isInterface := false
  methods := [⟨"pong", "()V", [{ owner := "demo/Ping", name := "ping", descriptor := "()V" }]⟩]

/-- Two methods that call each other. -/
def classPath : ClassUniverse where
  classes := [ping, pong]

end MutualDemo

open MutualDemo

/-- Three nested visitors, for `ping`, `pong` and `ping` again, are enough for two methods. -/
theorem ping_pong_terminates :
    (trace classPath Char.toLower "demo/Ping" "ping").state.scanned ⊆ classPath.declared ∧
      accept classPath Char.toLower 3 "demo/Ping" "ping" .initial
        = trace classPath Char.toLower "demo/Ping" "ping" :=
  (walk_terminates classPath Char.toLower "demo/Ping" "ping").2.2.2 (by decide)

/-- Asked for `ping` of `demo.Ping`, the walk scans its body under both spellings of the class, and
    three nested visitors are not enough for the two methods. -/
theorem dotted_ping_scanned_twice :
    classPath.classReader "demo.Ping" = .ok ping ∧ classPath.classReader "demo/Ping" = .ok ping ∧
    ⟨"demo.Ping", "ping", "()V"⟩ ∈ (trace classPath Char.toLower "demo.Ping" "ping").state.scanned ∧
    ⟨"demo/Ping", "ping", "()V"⟩ ∈ (trace classPath Char.toLower "demo.Ping" "ping").state.scanned ∧
    (accept classPath Char.toLower (classPath.declared.length + 1) "demo.Ping" "ping"
        .initial).thrown = some .outOfFuel := by
  decide

end Jma
