import Jma.Hierarchy.Termination

set_option autoImplicit false

/-! # What the walk finds

`Requested` is the walk with nothing skipped: from the root request, every instruction of a sought
body that leaves its class asks for a method of its owner. A walk never visits more than that
(`Finished.requested`). It may visit less, because one set says both what is listed and what was
explored: a sought body whose method is already listed is not scanned. `Isolated` excludes that. -/

namespace Jma

open HierarchyClassVisitor MethodHierarchyUtil

section

variable (U : ClassUniverse) (fold : Char → Char) (root name : String)

/-- `Requested U fold root name c n`: the root request, or a call from a body sought by a
    request. -/
inductive Requested : String → String → Prop
  | root : Requested root name
  | call {c : String} {m : MethodDecl} {insn : MethodInsn} (h : Requested c m.name)
      (hm : Declares U c m) (hl : Leaves fold c m insn) : Requested insn.owner insn.name

/-- A walk that has returned. -/
structure Finished (w : Walk) : Prop where
  steps : Relation.ReflTransGen (Step U fold root name) .initial w
  root : (root, name) ∈ w.visited
  listed : ∀ c n, (c, n) ∈ w.visited → Listed U w c
  followed : ∀ info ∈ w.scanned, Followed U fold w info

/-- Every method that a chain of calls reaches is in the set. -/
def Complete (methods : List CMethodInfo) : Prop :=
  ∀ d m, U.Reachable root name d m → .of d.name m ∈ methods

/-- Every method that a chain of calls reaches is declared by a requested class, or is listed with a
    requested class because a superclass of it declares the method. -/
def Closed : Prop :=
  ∀ d m, U.Reachable root name d m →
    ∃ c n, Requested U fold root name c n ∧ (c = d.name ∨ SuperMethod U c d m)

/-- A sought body that calls another class belongs to a class that is requested under one method
    name only, and is not listed beforehand as a superclass method of a requested class. -/
def Isolated : Prop :=
  ∀ c m insn, Requested U fold root name c m.name → Declares U c m → Leaves fold c m insn →
    (∀ n, Requested U fold root name c n → n = m.name) ∧
      ∀ c' n s, Requested U fold root name c' n → s.name = c → ¬SuperMethod U c' s m

end

section

variable {U : ClassUniverse} {fold : Char → Char} {root name : String}

theorem walk_finished {w : Walk} (h : walk U fold root name = .ok w) :
    Finished U fold root name w := by
  have hwant : Wanted U fold root name .initial root name := Or.inl ⟨rfl, rfl⟩
  obtain ⟨hreturns, rfl⟩ := walk_eq_ok.1 h
  obtain ⟨hext, hroot, -⟩ := accept_extends _ root name .initial hwant hreturns
  exact ⟨hext.steps, hroot,
    fun c n hv => (hext.listed c n hv).resolve_left (by simp [Walk.initial]),
    fun info hs => (hext.followed info hs).resolve_left (by simp [Walk.initial])⟩

/-! ## The walk asks for nothing else -/

theorem Called.requested {w : Walk} {o k : String}
    (hreq : ∀ v ∈ w.visited, Requested U fold root name v.1 v.2) (h : Called U fold w o k) :
    Requested U fold root name o k := by
  obtain ⟨c, m, insn, hm, hv, -, hl, rfl, rfl⟩ := h
  exact (hreq _ hv).call hm hl

theorem steps_requested {w : Walk}
    (h : Relation.ReflTransGen (Step U fold root name) .initial w) :
    ∀ v ∈ w.visited, Requested U fold root name v.1 v.2 := by
  induction h with
  | refl => simp [Walk.initial]
  | tail _ hstep ih =>
      cases hstep with
      | @enter c n hwant =>
          intro v hv
          rcases Walk.mem_visited_enter.1 hv with hv | rfl
          · exact ih v hv
          · rcases hwant with ⟨rfl, rfl⟩ | hcall
            · exact .root
            · exact hcall.requested ih
      | super _ _ => simpa using ih
      | list _ _ _ => simpa using ih
      | scan _ _ _ => simpa using ih
      | call _ _ => simpa using ih

/-- Every visitor is wanted, still. -/
theorem steps_wanted {w : Walk} (h : Relation.ReflTransGen (Step U fold root name) .initial w) :
    ∀ v ∈ w.visited, Wanted U fold root name w v.1 v.2 := by
  induction h with
  | refl => simp [Walk.initial]
  | tail _ hstep ih =>
      have hkeep := fun v hv => (ih v hv).mono hstep.le
      cases hstep with
      | enter hwant =>
          intro v hv
          rcases Walk.mem_visited_enter.1 hv with hv | rfl
          · exact hkeep v hv
          · exact hwant.mono (Walk.le_enter _ _ _)
      | super _ _ => simpa using hkeep
      | list _ _ _ => simpa using hkeep
      | scan _ _ _ => simpa using hkeep
      | call _ _ => simpa using hkeep

theorem Finished.requested {w : Walk} (h : Finished U fold root name w) {c n : String}
    (hv : (c, n) ∈ w.visited) : Requested U fold root name c n :=
  steps_requested h.steps _ hv

/-- Where an entry of the set comes from. -/
def Justified (U : ClassUniverse) (fold : Char → Char) (w : Walk) (e : CMethodInfo) : Prop :=
  (∃ c n m, (c, n) ∈ w.visited ∧ Declares U c m ∧ e = .of c m) ∨
  (∃ c n s m, (c, n) ∈ w.visited ∧ SuperMethod U c s m ∧ e = .of s.name m) ∨
  Called U fold w e.cClassName e.methodName

theorem Justified.mono {w w' : Walk} {e : CMethodInfo} (hle : Walk.Le w w')
    (h : Justified U fold w e) : Justified U fold w' e := by
  rcases h with ⟨c, n, m, hv, h⟩ | ⟨c, n, s, m, hv, h⟩ | h
  · exact Or.inl ⟨c, n, m, hle.visited hv, h⟩
  · exact Or.inr (Or.inl ⟨c, n, s, m, hle.visited hv, h⟩)
  · exact Or.inr (Or.inr (h.mono hle))

theorem steps_justified {w : Walk}
    (h : Relation.ReflTransGen (Step U fold root name) .initial w) :
    ∀ e ∈ w.methods, Justified U fold w e := by
  induction h with
  | refl => simp [Walk.initial]
  | @tail w w' _ hstep ih =>
      -- every step but `enter` lists one method
      have hadd : ∀ info, (∀ e, e ∈ w'.methods ↔ e ∈ w.methods ∨ e = info) →
          Justified U fold w info → ∀ e ∈ w'.methods, Justified U fold w' e := by
        intro info hmem hinfo e he
        rcases (hmem e).1 he with he | rfl
        · exact (ih e he).mono hstep.le
        · exact hinfo.mono hstep.le
      cases hstep with
      | enter hwant => exact fun e he => (ih e he).mono (w.le_enter _ _)
      | @super c n s m hv hs =>
          exact hadd _ (fun _ => Walk.mem_add) (Or.inr (Or.inl ⟨c, n, s, m, hv, hs, rfl⟩))
      | @list c n m hv hm _ =>
          exact hadd _ (fun _ => Walk.mem_add) (Or.inl ⟨c, n, m, hv, hm, rfl⟩)
      | @scan c m hv hm _ =>
          exact hadd _ (fun _ => Walk.mem_add) (Or.inl ⟨c, m.name, m, hv, hm, rfl⟩)
      | @call o k d hcall _ => exact hadd _ (fun _ => Walk.mem_add) (Or.inr (Or.inr hcall))

/-- A call from a scanned body has its visitor. -/
theorem Finished.visited_of_called {w : Walk} (h : Finished U fold root name w) {o k : String}
    (hcall : Called U fold w o k) : (o, k) ∈ w.visited := by
  obtain ⟨c, m, insn, hm, -, hs, hl, rfl, rfl⟩ := hcall
  exact (h.followed _ hs c m insn hm rfl hl).1

/-- The class that a universe holds under its own name declares its methods. -/
theorem declares_name {d : ClassFile} {m : MethodDecl} (hd : d ∈ U.classes) (hm : m ∈ d.methods) :
    Declares U d.name m :=
  ⟨d, ClassUniverse.classReader_name hd, hm⟩

/-- Which methods are in the set when the walk returns. -/
theorem Finished.mem_methods {w : Walk} (h : Finished U fold root name w) {d : ClassFile}
    {m : MethodDecl} (hd : d ∈ U.classes) (hm : m ∈ d.methods) :
    .of d.name m ∈ w.methods ↔
      ∃ c n, (c, n) ∈ w.visited ∧ (c = d.name ∨ SuperMethod U c d m) := by
  constructor
  · intro hmem
    rcases steps_justified h.steps _ hmem with ⟨c, n, m', hv, -, he⟩ | ⟨c, n, s, m', hv, hs, he⟩ |
      hcall
    · exact ⟨c, n, hv, Or.inl (congrArg CMethodInfo.cClassName he).symm⟩
    · obtain ⟨cf, hread, hsuper, hm'⟩ := hs
      have hname : d.name = s.name := congrArg CMethodInfo.cClassName he
      have hds : d = s := List.inj_on_of_nodup_map U.distinct hd hsuper.mem hname
      subst hds
      have hmm : m = m' :=
        CMethodInfo.of_injective hm (ClassFile.mem_getDeclaredMethods.1 hm').1 he
      subst hmm
      exact ⟨c, n, hv, Or.inr ⟨cf, hread, hsuper, hm'⟩⟩
    · exact ⟨_, _, h.visited_of_called hcall, Or.inl rfl⟩
  · rintro ⟨c, n, hv, rfl | hs⟩
    · exact (h.listed _ n hv).own m (declares_name hd hm)
    · exact (h.listed c n hv).super d m hs

/-! ## The walk asks for everything when nothing is skipped -/

/-- Under `Isolated` a sought body that calls another class is scanned as soon as it is listed. -/
theorem steps_scanned (hiso : Isolated U fold root name) {w : Walk}
    (h : Relation.ReflTransGen (Step U fold root name) .initial w) :
    ∀ c m insn, Requested U fold root name c m.name → Declares U c m → Leaves fold c m insn →
      .of c m ∈ w.methods → .of c m ∈ w.scanned := by
  induction h with
  | refl => simp [Walk.initial]
  | @tail w w' hsteps hstep ih =>
      intro c m insn hreq hm hl hmem
      obtain ⟨hone, hsuper⟩ := hiso c m insn hreq hm hl
      cases hstep with
      | enter _ => exact ih c m insn hreq hm hl hmem
      | @super c' n s m' hv hs =>
          rw [Walk.scanned_add]
          rcases Walk.mem_add.1 hmem with hmem | he
          · exact ih c m insn hreq hm hl hmem
          · -- `m` would be a superclass method of a requested class
            obtain ⟨cf, hread, hsup, hm'⟩ := hs
            have hdecl : Declares U s.name m' :=
              declares_name hsup.mem (ClassFile.mem_getDeclaredMethods.1 hm').1
            obtain ⟨rfl, rfl⟩ := hm.unique hdecl he
            exact absurd ⟨cf, hread, hsup, hm'⟩
              (hsuper c' n s (steps_requested hsteps _ hv) rfl)
      | @list c' n m' hv hm' hne =>
          rw [Walk.scanned_add]
          rcases Walk.mem_add.1 hmem with hmem | he
          · exact ih c m insn hreq hm hl hmem
          · -- the class would be requested under a second name
            obtain ⟨rfl, rfl⟩ := hm.unique hm' he
            exact absurd (hone n (steps_requested hsteps _ hv)).symm hne
      | scan _ _ _ =>
          rw [Walk.mem_scanned_scan_add]
          exact (Walk.mem_add.1 hmem).imp_left (ih c m insn hreq hm hl)
      | @call o k d _ hlisted =>
          rw [Walk.scanned_add]
          rcases Walk.mem_add.1 hmem with hmem | he
          · exact ih c m insn hreq hm hl hmem
          · -- the visitor of the called class has listed `m` before
            have ho : c = o := congrArg CMethodInfo.cClassName he
            exact ih c m insn hreq hm hl (ho ▸ hlisted m (ho ▸ hm))

theorem Finished.scanned_of_visited {w : Walk} (h : Finished U fold root name w)
    (hiso : Isolated U fold root name) {c : String} {m : MethodDecl} {insn : MethodInsn}
    (hv : (c, m.name) ∈ w.visited) (hm : Declares U c m) (hl : Leaves fold c m insn) :
    .of c m ∈ w.scanned :=
  steps_scanned hiso h.steps c m insn (h.requested hv) hm hl ((h.listed c _ hv).own m hm)

theorem Finished.visited_of_requested {w : Walk} (h : Finished U fold root name w)
    (hiso : Isolated U fold root name) {c n : String} (hreq : Requested U fold root name c n) :
    (c, n) ∈ w.visited := by
  induction hreq with
  | root => exact h.root
  | @call c m insn _ hm hl ih =>
      exact (h.followed _ (h.scanned_of_visited hiso ih hm hl) c m insn hm rfl hl).1

theorem Finished.scanned_of_requested {w : Walk} (h : Finished U fold root name w)
    (hiso : Isolated U fold root name) {c : String} {m : MethodDecl} {insn : MethodInsn}
    (hreq : Requested U fold root name c m.name) (hm : Declares U c m) (hl : Leaves fold c m insn) :
    .of c m ∈ w.scanned :=
  h.scanned_of_visited hiso (h.visited_of_requested hiso hreq) hm hl

end

end Jma
