import Jma.Core.Statistics

set_option autoImplicit false

/-! # The labels of a report

Each row is labelled with the simple class name and the method name; if that label is taken, with
the full class name instead, and this second label is not checked. The descriptor is part of
neither, so overloads share both. -/

namespace Jma

/-- `cName.substring(cName.lastIndexOf(".") + 1) + "#" + methodName`. -/
def simpleLabel (method : MethodIdentifier) : String :=
  substringAfterLast method.className '.' ++ "#" ++ method.methodName

/-- `cName + "#" + methodName`. -/
def fullLabel (method : MethodIdentifier) : String := method.className ++ "#" ++ method.methodName

/-- The `infoStr` of a row, given the labels of the rows before it. -/
def infoStr (infoSet : List String) (method : MethodIdentifier) : String :=
  if !infoSet.contains (simpleLabel method) then simpleLabel method else fullLabel method

/-- The loop over the rows; either label is added to `infoSet`. -/
def labels : List String → List MethodIdentifier → List String
  | _, [] => []
  | infoSet, method :: rest =>
      let infoStr := infoStr infoSet method
      infoStr :: labels (infoSet ++ [infoStr]) rest

/-- The labels that `printAndRolling` prints for a chain. -/
def reportLabels (recordList : List TimeCostRecord) : List String :=
  labels [] ((infos recordList).map (fun info => info.record.method))

/-! ## Which labels are taken -/

/-- `Taken rows x`: `x` is the simple label of a row, or the full label of a row whose simple label
    was taken by the rows before it. -/
inductive Taken : List MethodIdentifier → String → Prop
  | simple {p q : List MethodIdentifier} {m : MethodIdentifier} :
      Taken (p ++ m :: q) (simpleLabel m)
  | full {p q : List MethodIdentifier} {m : MethodIdentifier} (h : Taken p (simpleLabel m)) :
      Taken (p ++ m :: q) (fullLabel m)

/-- When the simple label of a row is taken by the rows before it, its full label is not. -/
def Unambiguous (rows : List MethodIdentifier) : Prop :=
  ∀ p m q, rows = p ++ m :: q → Taken p (simpleLabel m) → ¬Taken p (fullLabel m)

theorem labels_snoc (infoSet : List String) (rows : List MethodIdentifier) (m : MethodIdentifier) :
    labels infoSet (rows ++ [m])
      = labels infoSet rows ++ [infoStr (infoSet ++ labels infoSet rows) m] := by
  induction rows generalizing infoSet with
  | nil => simp [labels]
  | cons n rest ih => simp [labels, ih]

theorem taken_snoc {rows : List MethodIdentifier} {m : MethodIdentifier} {x : String} :
    Taken (rows ++ [m]) x ↔
      Taken rows x ∨ x = simpleLabel m ∨ (Taken rows (simpleLabel m) ∧ x = fullLabel m) := by
  constructor
  · intro h
    generalize hrows : rows ++ [m] = rows' at h
    cases h with
    | simple =>
        rcases Trace.snoc_eq_append_cons.1 hrows with ⟨rfl, rfl, -⟩ | ⟨q', -, rfl⟩
        · exact Or.inr (Or.inl rfl)
        · exact Or.inl .simple
    | full h =>
        rcases Trace.snoc_eq_append_cons.1 hrows with ⟨rfl, rfl, -⟩ | ⟨q', -, rfl⟩
        · exact Or.inr (Or.inr ⟨h, rfl⟩)
        · exact Or.inl (.full h)
  · rintro (h | rfl | ⟨h, rfl⟩)
    · cases h with
      | simple =>
          rw [List.append_assoc, List.cons_append]
          exact .simple
      | full h =>
          rw [List.append_assoc, List.cons_append]
          exact .full h
    · exact .simple
    · exact .full h

/-- The labels given out are the taken ones. -/
theorem mem_labels {rows : List MethodIdentifier} {x : String} :
    x ∈ labels [] rows ↔ Taken rows x := by
  induction rows using List.reverseRecOn generalizing x with
  | nil =>
      refine iff_of_false List.not_mem_nil (fun h => ?_)
      generalize hnil : ([] : List MethodIdentifier) = rows at h
      cases h <;> simp at hnil
  | append_singleton rows m ih =>
      rw [labels_snoc, List.mem_append, List.mem_singleton, ih, taken_snoc, List.nil_append,
        infoStr]
      have hcontains : (labels [] rows).contains (simpleLabel m) = true ↔
          Taken rows (simpleLabel m) := List.contains_iff_mem.trans ih
      by_cases htaken : Taken rows (simpleLabel m)
      · rw [hcontains.2 htaken, Bool.not_true, if_neg (by simp)]
        refine or_congr_right' (fun hx => ?_)
        constructor
        · exact fun he => Or.inr ⟨htaken, he⟩
        · rintro (rfl | ⟨-, he⟩)
          · exact absurd htaken hx
          · exact he
      · have hfalse : (labels [] rows).contains (simpleLabel m) = false := by
          rw [← Bool.not_eq_true, hcontains]
          exact htaken
        rw [hfalse, Bool.not_false, if_pos rfl]
        simp [htaken]

theorem unambiguous_snoc {rows : List MethodIdentifier} {m : MethodIdentifier} :
    Unambiguous (rows ++ [m]) ↔
      Unambiguous rows ∧ (Taken rows (simpleLabel m) → ¬Taken rows (fullLabel m)) :=
  Trace.forall_split_snoc

theorem nodup_labels_iff (rows : List MethodIdentifier) :
    (labels [] rows).Nodup ↔ Unambiguous rows := by
  induction rows using List.reverseRecOn with
  | nil => simp [labels, Unambiguous]
  | append_singleton rows m ih =>
      have hnew : infoStr (labels [] rows) m ∉ labels [] rows ↔
          (Taken rows (simpleLabel m) → ¬Taken rows (fullLabel m)) := by
        rw [infoStr, ← mem_labels, ← mem_labels]
        by_cases htaken : simpleLabel m ∈ labels [] rows <;> simp [htaken]
      rw [labels_snoc, List.nil_append, unambiguous_snoc, ← ih, ← hnew,
        List.perm_append_comm.nodup_iff, List.singleton_append, List.nodup_cons, and_comm]

/-! ## Names of the JVM

A method name holds no dot, so a simple label holds none, and a full label holds one iff the class
lies in a package. -/

theorem simpleLabel_no_dot {m : MethodIdentifier} (hm : '.' ∉ m.methodName.toList) :
    '.' ∉ (simpleLabel m).toList := by
  have hclass := not_mem_substringAfterLast m.className '.'
  simp only [simpleLabel, String.toList_append, List.mem_append, not_or]
  exact ⟨⟨hclass, by decide⟩, hm⟩

theorem dot_mem_fullLabel {m : MethodIdentifier} (hm : '.' ∉ m.methodName.toList) :
    '.' ∈ (fullLabel m).toList ↔ '.' ∈ m.className.toList := by
  have hsharp : '.' ∉ "#".toList := by decide
  simp only [fullLabel, String.toList_append, List.mem_append, hsharp, hm, or_false]

/-- In the default package both labels are the same. -/
theorem fullLabel_of_no_package {m : MethodIdentifier} (h : '.' ∉ m.className.toList) :
    fullLabel m = simpleLabel m := by
  rw [fullLabel, simpleLabel, substringAfterLast_of_not_mem h]

section

variable {rows : List MethodIdentifier} (hnames : ∀ m ∈ rows, '.' ∉ m.methodName.toList)

include hnames

/-- A label without a dot is taken by rows that have it as their simple label. -/
theorem taken_iff_of_no_dot {x : String} (hx : '.' ∉ x.toList) :
    Taken rows x ↔ ∃ n ∈ rows, simpleLabel n = x := by
  constructor
  · intro h
    cases h with
    | @simple p q n => exact ⟨n, by simp, rfl⟩
    | @full p q n h =>
        have hn := hnames n (by simp)
        have hclass : '.' ∉ n.className.toList := fun hdot => hx ((dot_mem_fullLabel hn).2 hdot)
        exact ⟨n, by simp, (fullLabel_of_no_package hclass).symm⟩
  · rintro ⟨n, hn, rfl⟩
    obtain ⟨p, q, rfl⟩ := List.append_of_mem hn
    exact .simple

/-- A label with a dot is taken by rows that have it as their full label and needed it. -/
theorem taken_iff_of_dot {x : String} (hx : '.' ∈ x.toList) :
    Taken rows x ↔ ∃ p n q, rows = p ++ n :: q ∧ (∃ k ∈ p, simpleLabel k = simpleLabel n) ∧
      fullLabel n = x := by
  have hearlier : ∀ p n q, rows = p ++ n :: q →
      (Taken p (simpleLabel n) ↔ ∃ k ∈ p, simpleLabel k = simpleLabel n) := by
    rintro p n q rfl
    exact taken_iff_of_no_dot (fun m hm => hnames m (by simp [hm]))
      (simpleLabel_no_dot (hnames n (by simp)))
  constructor
  · intro h
    cases h with
    | @simple p q n => exact absurd hx (simpleLabel_no_dot (hnames n (by simp)))
    | @full p q n h => exact ⟨p, n, q, rfl, (hearlier p n q rfl).1 h, rfl⟩
  · rintro ⟨p, n, q, hsplit, hk, rfl⟩
    have htaken := (hearlier p n q hsplit).2 hk
    rw [hsplit]
    exact .full htaken

end

/-- Among rows with the same simple label all but the first are of classes in packages, and their
    full labels differ. -/
def LabelsDiffer (rows : List MethodIdentifier) : Prop :=
  ∀ p m q, rows = p ++ m :: q → (∃ k ∈ p, simpleLabel k = simpleLabel m) →
    '.' ∈ m.className.toList ∧
      ∀ p' n q', p = p' ++ n :: q' → (∃ k ∈ p', simpleLabel k = simpleLabel n) →
        fullLabel n ≠ fullLabel m

theorem unambiguous_iff_labelsDiffer {rows : List MethodIdentifier}
    (hnames : ∀ m ∈ rows, '.' ∉ m.methodName.toList) : Unambiguous rows ↔ LabelsDiffer rows := by
  refine forall_congr' fun p => forall_congr' fun m => forall_congr' fun q => ?_
  refine forall_congr' fun hsplit => ?_
  subst hsplit
  have hp : ∀ n ∈ p, '.' ∉ n.methodName.toList := fun n hn => hnames n (by simp [hn])
  have hm : '.' ∉ m.methodName.toList := hnames m (by simp)
  rw [taken_iff_of_no_dot hp (simpleLabel_no_dot hm)]
  refine imp_congr_right (fun hk => ?_)
  by_cases hclass : '.' ∈ m.className.toList
  · rw [taken_iff_of_dot hp ((dot_mem_fullLabel hm).2 hclass)]
    constructor
    · exact fun h => ⟨hclass, fun p' n q' hsplit hk' he => h ⟨p', n, q', hsplit, hk', he⟩⟩
    · rintro ⟨-, h⟩ ⟨p', n, q', hsplit, hk', he⟩
      exact h p' n q' hsplit hk' he
  · rw [fullLabel_of_no_package hclass, taken_iff_of_no_dot hp (simpleLabel_no_dot hm)]
    exact iff_of_false (fun h => h hk) (fun h => hclass h.1)

/-- **When the labels of a report differ.** For rows in any order, the labels are pairwise different
    iff no row needs its full label where that is taken, too. As the JVM allows no dot in a method
    name, this fails exactly where two rows of one full label (overloads) both come after a row of
    their simple label, and where a class of the default package comes after such a row. -/
theorem labels_differ_iff (rows : List MethodIdentifier) :
    ((labels [] rows).Nodup ↔ Unambiguous rows) ∧
      ((∀ m ∈ rows, '.' ∉ m.methodName.toList) → (Unambiguous rows ↔ LabelsDiffer rows)) :=
  ⟨nodup_labels_iff rows, unambiguous_iff_labelsDiffer⟩

section Overloads

/-- The overloads of `p.A#f` with the given descriptors, each called once, and a roll. -/
def overloadsRun (descriptors : List String) : List Event :=
  ⟨"main", .canRecord true⟩ ::
    (descriptors.map (fun d => ⟨"main", .mergeRecord ⟨⟨"p.A", "f", d⟩, [], ⟨0, 1⟩⟩⟩) ++
      [⟨"main", .printAndRolling (fun _ => 2)⟩])

/-- The chain that the run leaves. -/
def overloadsChain (descriptors : List String) : List TimeCostRecord :=
  descriptors.map (fun d => ⟨⟨"p.A", "f", d⟩, [], 1, [⟨0, 1⟩]⟩)

/-- Of three overloads the second and the third printed are both labelled `p.A#f`. -/
theorem three_overloads_ambiguous :
    [⟨"main", "main", 1, overloadsChain ["()V", "(I)V", "(J)V"]⟩] ∈
        (TimeCostManager.initial.run (overloadsRun ["()V", "(I)V", "(J)V"])).2 ∧
      ((overloadsChain ["()V", "(I)V", "(J)V"]).map TimeCostRecord.method).Nodup ∧
      ¬(reportLabels (overloadsChain ["()V", "(I)V", "(J)V"])).Nodup := by
  decide

/-- Two overloads, the second of which gets its full label. -/
def twoOverloads : List MethodIdentifier := [⟨"p.A", "f", "()V"⟩, ⟨"p.A", "f", "(I)V"⟩]

theorem twoOverloads_labelsDiffer : LabelsDiffer twoOverloads := by
  rintro p m q hsplit ⟨k, hk, -⟩
  obtain ⟨a, p', rfl⟩ := List.exists_cons_of_ne_nil (List.ne_nil_of_mem hk)
  obtain ⟨-, htail⟩ := List.cons.inj hsplit
  -- only one row comes before another one
  obtain ⟨rfl, hm⟩ : p' = [] ∧ m = ⟨"p.A", "f", "(I)V"⟩ := by
    cases p' with
    | nil => exact ⟨rfl, (List.cons.inj htail).1.symm⟩
    | cons b p'' => simp at htail
  rw [hm]
  refine ⟨by decide, fun p₁ n q₁ hone hk' => ?_⟩
  obtain ⟨k', hk', -⟩ := hk'
  have hlen := congrArg List.length hone
  have hpos := List.length_pos_of_mem hk'
  simp only [List.length_append, List.length_cons, List.length_nil] at hlen
  omega

/-- Two overloads are told apart. -/
theorem two_overloads_differ : LabelsDiffer twoOverloads ∧ (labels [] twoOverloads).Nodup :=
  ⟨twoOverloads_labelsDiffer, (labels_differ_iff twoOverloads).1.2
    (((labels_differ_iff twoOverloads).2 (by decide)).2 twoOverloads_labelsDiffer)⟩

end Overloads

end Jma
