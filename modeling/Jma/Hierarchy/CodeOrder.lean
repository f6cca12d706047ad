import Jma.Hierarchy.ReadBodies
import Mathlib.Data.List.Perm.Basic

set_option autoImplicit false

/-! # Does the order of the code matter?

Two class universes that differ only in the order of methods in class files and of instructions in
bodies request the same methods, but a body may be read in one order and skipped in the other. The
two walks find the same methods exactly when such bodies call nothing that the other walk does not
find elsewhere. -/

namespace Jma

open MethodHierarchyUtil

/-- The same method with its instructions in another order. -/
structure MethodDecl.Reordered (m m' : MethodDecl) : Prop where
  name : m.name = m'.name
  descriptor : m.descriptor = m'.descriptor
  body : m.body.Perm m'.body

/-- The same class with its methods, and the instructions in them, in another order. -/
structure ClassFile.Reordered (c c' : ClassFile) : Prop where
  name : c.name = c'.name
  superclass : c.superclass = c'.superclass
  isInterface : c.isInterface = c'.isInterface
  methods : Relation.Comp List.Perm (List.Forall₂ MethodDecl.Reordered) c.methods c'.methods

/-- The same classes in another code order. -/
def ClassUniverse.Reordered (U U' : ClassUniverse) : Prop :=
  List.Forall₂ ClassFile.Reordered U.classes U'.classes

/-! ## Reordering is symmetric and keeps what the code says -/

theorem MethodDecl.Reordered.refl (m : MethodDecl) : m.Reordered m :=
  ⟨rfl, rfl, List.Perm.refl _⟩

theorem ClassFile.Reordered.refl (c : ClassFile) : c.Reordered c :=
  ⟨rfl, rfl, rfl, _, List.Perm.refl _, List.forall₂_same.2 (fun m _ => .refl m)⟩

theorem MethodDecl.Reordered.symm {m m' : MethodDecl} (h : m.Reordered m') : m'.Reordered m :=
  ⟨h.name.symm, h.descriptor.symm, h.body.symm⟩

theorem ClassFile.Reordered.symm {c c' : ClassFile} (h : c.Reordered c') : c'.Reordered c := by
  obtain ⟨l, hperm, hall⟩ := h.methods
  refine ⟨h.name.symm, h.superclass.symm, h.isInterface.symm, ?_⟩
  rw [← List.forall₂_comp_perm_eq_perm_comp_forall₂]
  exact ⟨l, (List.Forall₂.flip hall).imp (fun _ _ hm => MethodDecl.Reordered.symm hm), hperm.symm⟩

theorem ClassUniverse.Reordered.symm {U U' : ClassUniverse} (h : U.Reordered U') :
    U'.Reordered U :=
  (List.Forall₂.flip h).imp (fun _ _ hc => ClassFile.Reordered.symm hc)

theorem ClassFile.Reordered.exists_method {c c' : ClassFile} (h : c.Reordered c') {m : MethodDecl}
    (hm : m ∈ c.methods) : ∃ m' ∈ c'.methods, m.Reordered m' := by
  obtain ⟨l, hperm, hall⟩ := h.methods
  have hml := hperm.mem_iff.1 hm
  clear hperm
  generalize c'.methods = l' at hall
  induction hall with
  | nil => exact absurd hml List.not_mem_nil
  | cons hr _ ih =>
      rcases List.mem_cons.1 hml with rfl | hml
      · exact ⟨_, List.mem_cons_self .., hr⟩
      · obtain ⟨m', hm', hr'⟩ := ih hml
        exact ⟨m', List.mem_cons_of_mem _ hm', hr'⟩

theorem ClassUniverse.Reordered.find? {U U' : ClassUniverse} (h : U.Reordered U') {name : String}
    {c : ClassFile} (hc : U.find? name = some c) :
    ∃ c', U'.find? name = some c' ∧ c.Reordered c' := by
  unfold ClassUniverse.find? at hc ⊢
  unfold ClassUniverse.Reordered at h
  generalize U.classes = l at h hc
  generalize U'.classes = l' at h
  induction h with
  | nil => cases hc
  | @cons d d' _ _ hr _ ih =>
      rw [List.find?_cons] at hc ⊢
      rw [← hr.name]
      split at hc
      · cases hc
        exact ⟨d', rfl, hr⟩
      · exact ih hc

section

variable {U U' : ClassUniverse} {fold : Char → Char} {root name : String}

theorem ClassUniverse.Reordered.classReader (h : U.Reordered U') {cName : String} {c : ClassFile}
    (hc : U.classReader cName = .ok c) : ∃ c', U'.classReader cName = .ok c' ∧ c.Reordered c' := by
  obtain ⟨c', hc', hr⟩ := h.find? (ClassUniverse.classReader_eq_ok.1 hc)
  exact ⟨c', ClassUniverse.classReader_eq_ok.2 hc', hr⟩

theorem Declares.reordered {cName : String} {m : MethodDecl} (hm : Declares U cName m)
    (h : U.Reordered U') : ∃ m', Declares U' cName m' ∧ m.Reordered m' := by
  obtain ⟨c, hc, hmem⟩ := hm
  obtain ⟨c', hc', hr⟩ := h.classReader hc
  obtain ⟨m', hm', hrm⟩ := hr.exists_method hmem
  exact ⟨m', ⟨c', hc', hm'⟩, hrm⟩

theorem ClassUniverse.Superclass.reordered {c s : ClassFile} (hs : U.Superclass c s)
    (h : U.Reordered U') {c' : ClassFile} (hr : c.Reordered c') :
    ∃ s', U'.Superclass c' s' ∧ s.Reordered s' := by
  induction hs generalizing c' with
  | direct hname hs =>
      obtain ⟨s', hs', hrs⟩ := h.find? hs
      exact ⟨s', .direct (hr.superclass ▸ hname) hs', hrs⟩
  | further hname hs _ ih =>
      obtain ⟨s', hs', hrs⟩ := h.find? hs
      obtain ⟨t', ht', hrt⟩ := ih hrs
      exact ⟨t', .further (hr.superclass ▸ hname) hs' ht', hrt⟩

theorem SuperMethod.reordered {cName : String} {s : ClassFile} {m : MethodDecl}
    (hs : SuperMethod U cName s m) (h : U.Reordered U') :
    ∃ s' m', SuperMethod U' cName s' m' ∧ s.Reordered s' ∧ m.Reordered m' := by
  obtain ⟨c, hc, hsuper, hm⟩ := hs
  obtain ⟨c', hc', hr⟩ := h.classReader hc
  obtain ⟨s', hs', hrs⟩ := hsuper.reordered h hr
  rw [ClassFile.mem_getDeclaredMethods] at hm
  obtain ⟨m', hm', hrm⟩ := hrs.exists_method hm.1
  have hinit : m'.isInit = false := by
    rw [← hm.2, MethodDecl.isInit, MethodDecl.isInit, hrm.name]
  exact ⟨s', m', ⟨c', hc', hs', ClassFile.mem_getDeclaredMethods.2 ⟨hm', hinit⟩⟩, hrs, hrm⟩

theorem Leaves.reordered {cName : String} {m m' : MethodDecl} {insn : MethodInsn}
    (hl : Leaves fold cName m insn) (h : m.Reordered m') : Leaves fold cName m' insn :=
  ⟨h.body.mem_iff.1 hl.1, hl.2⟩

theorem Requested.reordered {c n : String} (hreq : Requested U fold root name c n)
    (h : U.Reordered U') : Requested U' fold root name c n := by
  induction hreq with
  | root => exact .root
  | call _ hm hl ih =>
      obtain ⟨m', hm', hr⟩ := hm.reordered h
      rw [hr.name] at ih
      exact ih.call hm' (hl.reordered hr)

theorem Isolated.reordered (hiso : Isolated U fold root name) (h : U.Reordered U') :
    Isolated U' fold root name := by
  intro c m' insn hreq' hm' hl'
  obtain ⟨m, hm, hr⟩ := hm'.reordered h.symm
  obtain ⟨hone, hsuper⟩ := hiso c m insn (hr.name ▸ hreq'.reordered h.symm) hm (hl'.reordered hr)
  refine ⟨fun n hn => (hone n (hn.reordered h.symm)).trans hr.name.symm, ?_⟩
  intro c' n s' hn hsc hs'
  obtain ⟨s, m₂, hs, hrs, hr₂⟩ := hs'.reordered h.symm
  obtain ⟨cf, hread, hsup, hm₂⟩ := hs
  have hsname : s.name = c := hrs.name.symm.trans hsc
  have hdecl : Declares U c m₂ :=
    hsname ▸ declares_name hsup.mem (ClassFile.mem_getDeclaredMethods.1 hm₂).1
  have hmm : m = m₂ := (hm.unique hdecl (by
    rw [CMethodInfo.of, CMethodInfo.of, ← hr.name, ← hr₂.name, ← hr.descriptor,
      ← hr₂.descriptor])).2
  subst hmm
  exact hsuper c' n s (hn.reordered h.symm) hsname ⟨cf, hread, hsup, hm₂⟩

/-! ## The pairs of a walk -/

/-- The set reduced to class and method names, which is what the transformer matches. -/
def pairs (methods : List CMethodInfo) : List (String × String) :=
  methods.map (fun e => (e.cClassName, e.methodName))

/-- What a visitor of the class `o` lists: the methods of the class and of its superclasses. -/
def ListedPair (U : ClassUniverse) (o c n : String) : Prop :=
  (c = o ∧ ∃ m, Declares U o m ∧ m.name = n) ∨
    ∃ s m, SuperMethod U o s m ∧ s.name = c ∧ m.name = n

/-- What is listed for a call of a method `k` of `o`. -/
def CalledPair (U : ClassUniverse) (o k c n : String) : Prop :=
  (c = o ∧ n = k) ∨ ListedPair U o c n

/-- What is listed for the root or for a call from a body that is read. -/
def FoundPair (U : ClassUniverse) (fold : Char → Char) (root name c n : String) : Prop :=
  ListedPair U root c n ∨ ∃ o k, ReadCall U fold root name o k ∧ CalledPair U o k c n

theorem ListedPair.reordered {o c n : String} (hp : ListedPair U o c n) (h : U.Reordered U') :
    ListedPair U' o c n := by
  rcases hp with ⟨rfl, m, hm, rfl⟩ | ⟨s, m, hs, rfl, rfl⟩
  · obtain ⟨m', hm', hr⟩ := hm.reordered h
    exact Or.inl ⟨rfl, m', hm', hr.name.symm⟩
  · obtain ⟨s', m', hs', hrs, hrm⟩ := hs.reordered h
    exact Or.inr ⟨s', m', hs', hrs.name.symm, hrm.name.symm⟩

theorem CalledPair.reordered {o k c n : String} (hp : CalledPair U o k c n) (h : U.Reordered U') :
    CalledPair U' o k c n :=
  hp.imp_right (fun hp => hp.reordered h)

theorem Listed.mem_pairs {w : Walk} {o c n : String} (h : Listed U w o) (hp : ListedPair U o c n) :
    (c, n) ∈ pairs w.methods := by
  rcases hp with ⟨rfl, m, hm, rfl⟩ | ⟨s, m, hs, rfl, rfl⟩
  · exact List.mem_map.2 ⟨_, h.own m hm, rfl⟩
  · exact List.mem_map.2 ⟨_, h.super s m hs, rfl⟩

/-- An opened class is the root or one that is called. -/
theorem Opened.foundPair {o k c n : String} (h : Opened U fold root name o k)
    (hp : ListedPair U o c n) : FoundPair U fold root name c n := by
  rcases h with ⟨rfl, -⟩ | hcall
  · exact Or.inl hp
  · exact Or.inr ⟨o, k, hcall, Or.inr hp⟩

/-- The pairs that a walk finds, said of the universe alone. -/
theorem mem_pairs_iff {w : Walk} (h : walk U fold root name = .ok w) {c n : String} :
    (c, n) ∈ pairs w.methods ↔ FoundPair U fold root name c n := by
  have hfin := walk_finished h
  constructor
  · intro hmem
    obtain ⟨e, he, hpair⟩ := List.mem_map.1 hmem
    simp only [Prod.mk.injEq] at hpair
    obtain ⟨rfl, rfl⟩ := hpair
    rcases steps_justified hfin.steps e he with ⟨c, n, m, hv, hm, rfl⟩ | ⟨c, n, s, m, hv, hs, rfl⟩ |
      ⟨c, m, insn, hm, -, hs, hl, ho, hk⟩
    · exact ((visited_iff_opened h).1 hv).foundPair (Or.inl ⟨rfl, m, hm, rfl⟩)
    · exact ((visited_iff_opened h).1 hv).foundPair (Or.inr ⟨s, m, hs, rfl, rfl⟩)
    · have hread := (scanned_iff_read h hm).1 hs
      exact Or.inr ⟨insn.owner, insn.name, ⟨c, m, insn, hread, hl, rfl, rfl⟩,
        Or.inl ⟨ho.symm, hk.symm⟩⟩
  · rintro (hroot | ⟨o, k, hcall, ⟨rfl, rfl⟩ | hp⟩)
    · exact (hfin.listed root name hfin.root).mem_pairs hroot
    · obtain ⟨c, m, insn, hread, hl, rfl, rfl⟩ := hcall
      have hs := (scanned_iff_read h hread.declares).2 hread
      exact List.mem_map.2 ⟨_, (hfin.followed _ hs c m insn hread.declares rfl hl).2, rfl⟩
    · exact (hfin.listed o k ((visited_iff_opened h).2 (Or.inr hcall))).mem_pairs hp

/-- A body that is read in `U` and skipped in `U'` calls nothing for which `U'` does not list the
    same pairs: for the root, or for calls from bodies that are read in `U'`. -/
def MadeUp (U U' : ClassUniverse) (fold : Char → Char) (root name : String) : Prop :=
  ∀ c m insn, Read U fold root name c m → Leaves fold c m insn →
    (∀ m', m.Reordered m' → ¬Read U' fold root name c m') →
      ∀ p k, CalledPair U insn.owner insn.name p k → FoundPair U' fold root name p k

/-- Nothing has to be made up for where the same calls are read. -/
theorem MadeUp.of_readCall (h : U.Reordered U')
    (hcall : ∀ o k, ReadCall U fold root name o k → ReadCall U' fold root name o k) :
    MadeUp U U' fold root name :=
  fun c m insn hread hl _ _ _ hp =>
    Or.inr ⟨_, _, hcall _ _ ⟨c, m, insn, hread, hl, rfl, rfl⟩, hp.reordered h⟩

/-- What is found in one order is found in the other, if the other makes up for the bodies that it
    skips. -/
theorem FoundPair.of_madeUp (hmade : MadeUp U U' fold root name) (h : U.Reordered U') {c n : String}
    (hp : FoundPair U fold root name c n) : FoundPair U' fold root name c n := by
  rcases hp with hroot | ⟨_, _, ⟨c', m, insn, hread, hl, rfl, rfl⟩, hp⟩
  · exact Or.inl (hroot.reordered h)
  · by_cases hboth : ∃ m', m.Reordered m' ∧ Read U' fold root name c' m'
    · obtain ⟨m', hr, hread'⟩ := hboth
      exact Or.inr ⟨_, _, ⟨c', m', insn, hread', hl.reordered hr, rfl, rfl⟩, hp.reordered h⟩
    · exact hmade c' m insn hread hl (fun m' hr hread' => hboth ⟨m', hr, hread'⟩) c n hp

/-- Where each requested body is `Isolated`, both orders read the same. -/
theorem Isolated.madeUp (hiso : Isolated U fold root name) (h : U.Reordered U') {w' : Walk}
    (hwalk : walk U' fold root name = .ok w') : MadeUp U U' fold root name := by
  intro c m insn hread hl hskipped
  obtain ⟨m', hm', hr⟩ := hread.declares.reordered h
  have hreq : Requested U' fold root name c m'.name := hr.name ▸ hread.requested.reordered h
  exact absurd ((hiso.reordered h).read hwalk hreq hm' (hl.reordered hr)) (hskipped m' hr)

end

/-! ## An example -/

namespace OrderDemo

def first : MethodDecl where
  name := "first"
  descriptor := "()V"
  body := [{ owner := "demo/Helper", name := "help", descriptor := "()V" }]

def second : MethodDecl where
  name := "second"
  descriptor := "()V"
  body := [{ owner := "demo/Leaf", name := "leaf", descriptor := "()V" }]

/-- `first` calls `Helper.help`, which calls `second`, which calls `Leaf.leaf`. -/
def main (methods : List MethodDecl)
    (distinct : (methods.map MethodDecl.signature).Nodup := by decide) : ClassFile where
  name := "demo/Main"
  superclass := none
  isInterface := false
  methods := methods
  distinct := distinct

def help : MethodDecl where
  name := "help"
  descriptor := "()V"
  body := [{ owner := "demo/Main", name := "second", descriptor := "()V" }]

def helper : ClassFile where
  name := "demo/Helper"
  superclass := none
  isInterface := false
  methods := [help]

def leafMethod : MethodDecl := ⟨"leaf", "()V", []⟩

def leaf : ClassFile where
  name := "demo/Leaf"
  superclass := none
  isInterface := false
  methods := [leafMethod]

/-- `first` declared before `second`. -/
def classPath : ClassUniverse where
  classes := [main [first, second], helper, leaf]

/-- `second` declared before `first`. -/
def reordered : ClassUniverse where
  classes := [main [second, first], helper, leaf]

/-- The walk from `first` when `second` comes after it: `second` is scanned by a nested visitor
    while the outer one is still at `first`. -/
def walkFromFirst : Walk where
  methods :=
    [⟨"demo/Main", "first", "()V"⟩, ⟨"demo/Helper", "help", "()V"⟩, ⟨"demo/Main", "second", "()V"⟩,
     ⟨"demo/Leaf", "leaf", "()V"⟩]
  visited :=
    [("demo/Main", "first"), ("demo/Helper", "help"), ("demo/Main", "second"),
     ("demo/Leaf", "leaf")]
  scanned :=
    [⟨"demo/Main", "first", "()V"⟩, ⟨"demo/Helper", "help", "()V"⟩, ⟨"demo/Main", "second", "()V"⟩,
     ⟨"demo/Leaf", "leaf", "()V"⟩]

/-- The set that `first` finds when `second` comes before it: `second` is listed on the way to
    `first`, and so never scanned. -/
def foundReordered : List CMethodInfo :=
  [⟨"demo/Main", "second", "()V"⟩, ⟨"demo/Main", "first", "()V"⟩, ⟨"demo/Helper", "help", "()V"⟩]

/-- A walk from `second`, which lists the methods of `Main` in the given order. -/
def walkFromSecond (methods : List CMethodInfo) : Walk where
  methods := methods
  visited := [("demo/Main", "second"), ("demo/Leaf", "leaf")]
  scanned := [⟨"demo/Main", "second", "()V"⟩, ⟨"demo/Leaf", "leaf", "()V"⟩]

def foundFromSecond : List CMethodInfo :=
  [⟨"demo/Main", "first", "()V"⟩, ⟨"demo/Main", "second", "()V"⟩, ⟨"demo/Leaf", "leaf", "()V"⟩]

/-- Like `first`, with a call of `Leaf.leaf` after the call of `Helper.help`. -/
def both : MethodDecl where
  name := "both"
  descriptor := "()V"
  body :=
    [{ owner := "demo/Helper", name := "help", descriptor := "()V" },
     { owner := "demo/Leaf", name := "leaf", descriptor := "()V" }]

def withLeaf : ClassUniverse where
  classes := [main [both, second], helper, leaf]

def withLeafReordered : ClassUniverse where
  classes := [main [second, both], helper, leaf]

/-- From `both` the body of `second` is scanned when it comes after `both`. -/
def walkFromBoth : Walk where
  methods :=
    [⟨"demo/Main", "both", "()V"⟩, ⟨"demo/Helper", "help", "()V"⟩, ⟨"demo/Main", "second", "()V"⟩,
     ⟨"demo/Leaf", "leaf", "()V"⟩]
  visited :=
    [("demo/Main", "both"), ("demo/Helper", "help"), ("demo/Main", "second"), ("demo/Leaf", "leaf"),
     ("demo/Leaf", "leaf")]
  scanned :=
    [⟨"demo/Main", "both", "()V"⟩, ⟨"demo/Helper", "help", "()V"⟩, ⟨"demo/Main", "second", "()V"⟩,
     ⟨"demo/Leaf", "leaf", "()V"⟩]

def walkFromBothReordered : Walk where
  methods :=
    [⟨"demo/Main", "second", "()V"⟩, ⟨"demo/Main", "both", "()V"⟩, ⟨"demo/Helper", "help", "()V"⟩,
     ⟨"demo/Leaf", "leaf", "()V"⟩]
  visited :=
    [("demo/Main", "both"), ("demo/Helper", "help"), ("demo/Main", "second"), ("demo/Leaf", "leaf")]
  scanned :=
    [⟨"demo/Main", "both", "()V"⟩, ⟨"demo/Helper", "help", "()V"⟩, ⟨"demo/Leaf", "leaf", "()V"⟩]

/-- Two methods of `Main` change places. -/
theorem reordered_main {m m' : MethodDecl} (h : ([m, m'].map MethodDecl.signature).Nodup)
    (h' : ([m', m].map MethodDecl.signature).Nodup) :
    List.Forall₂ ClassFile.Reordered [main [m, m'] h, helper, leaf]
      [main [m', m] h', helper, leaf] :=
  .cons ⟨rfl, rfl, rfl, [m', m], List.Perm.swap .., List.forall₂_same.2 (fun _ _ => .refl _)⟩
    (.cons (.refl _) (.cons (.refl _) .nil))

theorem reordered_classPath : classPath.Reordered reordered := reordered_main _ _

theorem reordered_withLeaf : withLeaf.Reordered withLeafReordered := reordered_main _ _

end OrderDemo

/-! ## Two orders of one code -/

/-- **Code order.** Two walks over the same code in another order find the same pairs exactly when
    each makes up for the bodies that only the other one reads; and they do where each requested
    body is `Isolated`. -/
theorem pairs_of_reordered {U U' : ClassUniverse} {fold : Char → Char} {root name : String}
    {w w' : Walk} (hre : U.Reordered U') (h : walk U fold root name = .ok w)
    (h' : walk U' fold root name = .ok w') :
    readClassMethodHierarchy U fold root name = .ok w.methods ∧
    readClassMethodHierarchy U' fold root name = .ok w'.methods ∧
    ((∀ p, p ∈ pairs w.methods ↔ p ∈ pairs w'.methods) ↔
      MadeUp U U' fold root name ∧ MadeUp U' U fold root name) ∧
    (Isolated U fold root name → ∀ p, p ∈ pairs w.methods ↔ p ∈ pairs w'.methods) := by
  have hmade : (∀ p, p ∈ pairs w.methods ↔ p ∈ pairs w'.methods) ↔
      MadeUp U U' fold root name ∧ MadeUp U' U fold root name := by
    simp only [Prod.forall, mem_pairs_iff h, mem_pairs_iff h']
    constructor
    · intro hsame
      refine ⟨fun c m insn hread hl _ p k hp => (hsame p k).1 ?_,
        fun c m insn hread hl _ p k hp => (hsame p k).2 ?_⟩
      · exact Or.inr ⟨_, _, ⟨c, m, insn, hread, hl, rfl, rfl⟩, hp⟩
      · exact Or.inr ⟨_, _, ⟨c, m, insn, hread, hl, rfl, rfl⟩, hp⟩
    · rintro ⟨hmade, hmade'⟩ c n
      exact ⟨fun hp => hp.of_madeUp hmade hre, fun hp => hp.of_madeUp hmade' hre.symm⟩
  refine ⟨readClassMethodHierarchy_of_walk h, readClassMethodHierarchy_of_walk h', hmade,
    fun hiso => hmade.2 ⟨hiso.madeUp hre h', (hiso.reordered hre).madeUp hre.symm h⟩⟩

open OrderDemo

/-- With `second` declared first, `Leaf.leaf` is not found. -/
theorem order_changes_pairs : classPath.Reordered reordered ∧
    readClassMethodHierarchy classPath Char.toLower "demo/Main" "first"
        = .ok walkFromFirst.methods ∧
    readClassMethodHierarchy reordered Char.toLower "demo/Main" "first" = .ok foundReordered ∧
    ("demo/Leaf", "leaf") ∈ pairs walkFromFirst.methods ∧
    ("demo/Leaf", "leaf") ∉ pairs foundReordered :=
  ⟨reordered_classPath, by decide, by decide, by decide, by decide⟩

/-- `second` is read in one order only, but `both` calls `Leaf.leaf` itself. -/
theorem order_keeps_pairs : withLeaf.Reordered withLeafReordered ∧
    readClassMethodHierarchy withLeaf Char.toLower "demo/Main" "both" = .ok walkFromBoth.methods ∧
    readClassMethodHierarchy withLeafReordered Char.toLower "demo/Main" "both"
      = .ok walkFromBothReordered.methods ∧
    ∀ p, p ∈ pairs walkFromBoth.methods ↔ p ∈ pairs walkFromBothReordered.methods := by
  have hwalk : walk withLeaf Char.toLower "demo/Main" "both" = .ok walkFromBoth := by decide
  have hwalk' : walk withLeafReordered Char.toLower "demo/Main" "both"
      = .ok walkFromBothReordered := by decide
  obtain ⟨hfound, hfound', hpairs, -⟩ := pairs_of_reordered reordered_withLeaf hwalk hwalk'
  refine ⟨reordered_withLeaf, hfound, hfound', hpairs.2 ⟨?_, ?_⟩⟩
  · refine .of_readCall reordered_withLeaf fun o k hcall => (readCall_iff hwalk').2 ?_
    obtain ⟨info, hs, m, hm, hinfo, insn, hinsn, hne, rfl, rfl⟩ := (readCall_iff hwalk).1 hcall
    clear hcall
    revert insn m info
    decide
  · refine .of_readCall reordered_withLeaf.symm fun o k hcall => (readCall_iff hwalk).2 ?_
    obtain ⟨info, hs, m, hm, hinfo, insn, hinsn, hne, rfl, rfl⟩ := (readCall_iff hwalk').1 hcall
    clear hcall
    revert insn m info
    decide

end Jma
