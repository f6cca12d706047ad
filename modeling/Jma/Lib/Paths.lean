import Mathlib.Tactic.Common

set_option autoImplicit false

/-! # Paths in an ordered tree

A node of a tree with ordered children is the list of the indices on the way down to it, and a
traversal that is at a node before its children meets the nodes in the lexicographic order. What
comes before the next child is what came before this one, and the subtree of this one. -/

namespace Paths

/-- Before its first child comes what came before a node, and the node. -/
theorem lt_append_zero {p a : List Nat} : p < a ++ [0] ↔ p < a ∨ p = a := by
  induction a generalizing p with
  | nil => cases p <;> simp [List.cons_lt_cons_iff]
  | cons y a ih =>
      cases p with
      | nil => simp
      | cons x p =>
          rw [List.cons_append, List.cons_lt_cons_iff, List.cons_lt_cons_iff, ih, List.cons.injEq]
          tauto

/-- Before its next child comes what came before the last one, and the subtree of that. -/
theorem lt_append_succ {p a : List Nat} {i : Nat} :
    p < a ++ [i + 1] ↔ p < a ++ [i] ∨ a ++ [i] <+: p := by
  induction a generalizing p with
  | nil =>
      cases p with
      | nil => simp
      | cons x p =>
          simp only [List.nil_append, List.cons_lt_cons_iff, List.not_lt_nil, and_false, or_false,
            List.cons_prefix_cons, List.nil_prefix, and_true]
          omega
  | cons y a ih =>
      cases p with
      | nil => simp
      | cons x p =>
          rw [List.cons_append, List.cons_append, List.cons_lt_cons_iff, List.cons_lt_cons_iff, ih,
            List.cons_prefix_cons]
          constructor
          · rintro (h | ⟨rfl, h | h⟩)
            · exact Or.inl (Or.inl h)
            · exact Or.inl (Or.inr ⟨rfl, h⟩)
            · exact Or.inr ⟨rfl, h⟩
          · rintro ((h | ⟨rfl, h⟩) | ⟨rfl, h⟩)
            · exact Or.inl h
            · exact Or.inr ⟨rfl, Or.inl h⟩
            · exact Or.inr ⟨rfl, Or.inr h⟩

/-- The subtrees of the children come one after the other. -/
theorem child_lt_child {a b c : List Nat} {i j : Nat} (h : i < j) :
    a ++ [i] ++ b < a ++ [j] ++ c := by
  rw [List.append_assoc, List.append_assoc]
  exact List.append_left_lt (List.cons_lt_cons_iff.2 (Or.inl h))

/-- What comes before a node comes before its children. -/
theorem lt_child {p a : List Nat} (h : p < a) (n : Nat) : p < a ++ [n] := by
  induction n with
  | zero => exact lt_append_zero.2 (Or.inl h)
  | succ n ih => exact lt_append_succ.2 (Or.inl ih)

/-- What lies below a node: itself, or something below one of its children. -/
theorem eq_or_child_of_below {p a : List Nat} (h : a <+: p) : p = a ∨ ∃ i, a ++ [i] <+: p := by
  obtain ⟨rest, rfl⟩ := h
  cases rest with
  | nil => exact Or.inl (List.append_nil a)
  | cons i rest => exact Or.inr ⟨i, rest, by simp⟩

/-- What comes before child `n`, or lies below it or a later one, comes before or lies below. -/
theorem lt_or_below_of_child {p a : List Nat} {n : Nat} (h : p < a ++ [n]) : p < a ∨ a <+: p := by
  induction n with
  | zero =>
      rcases lt_append_zero.1 h with h | rfl
      · exact Or.inl h
      · exact Or.inr (List.prefix_refl _)
  | succ n ih =>
      rcases lt_append_succ.1 h with h | h
      · exact ih h
      · exact Or.inr ((List.prefix_append a [n]).trans h)

/-- What is below a node and not before its child `n` is below a child from `n` on. -/
theorem child_of_below {p a : List Nat} {n : Nat} (h : a <+: p) (hn : ¬p < a ++ [n]) :
    ∃ i, n ≤ i ∧ a ++ [i] <+: p := by
  induction n with
  | zero =>
      rcases eq_or_child_of_below h with rfl | ⟨i, hi⟩
      · exact absurd (lt_append_zero.2 (Or.inr rfl)) hn
      · exact ⟨i, Nat.zero_le i, hi⟩
  | succ n ih =>
      rw [lt_append_succ, not_or] at hn
      obtain ⟨i, hle, hi⟩ := ih hn.1
      refine ⟨i, Nat.lt_of_le_of_ne hle ?_, hi⟩
      rintro rfl
      exact hn.2 hi

end Paths
