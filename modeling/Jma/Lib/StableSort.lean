import Mathlib.Data.List.Sort

set_option autoImplicit false

/-! # Stable sorting and its reversal

`List.insertionSort` is the stable sort of a list: among elements that are related both ways it
keeps the order of the list. `filter_insertionSort` says so for a whole class of such elements at
once. Reversing the sorted list gives a descending one in which every such class is reversed. -/

namespace StableSort

universe u

variable {α : Type u} (r : α → α → Prop) [DecidableRel r]

/-- **Stability.** Elements that are all related to each other stay in the order of the list. -/
theorem filter_insertionSort {p : α → Bool} (hp : ∀ a b, p a = true → p b = true → r a b)
    (l : List α) : (l.insertionSort r).filter p = l.filter p := by
  have hsorted : (l.filter p).Pairwise r := by
    rw [List.pairwise_filter]
    exact List.pairwise_of_forall (fun a b ha hb => hp a b ha hb)
  have hsub : (l.filter p).Sublist (l.insertionSort r) :=
    List.sublist_insertionSort hsorted List.filter_sublist
  have hsub' : (l.filter p).Sublist ((l.insertionSort r).filter p) := by
    simpa [List.filter_filter] using hsub.filter p
  exact (hsub'.eq_of_length ((l.perm_insertionSort r).filter p).length_eq.symm).symm

/-! ## The reversal -/

theorem reverse_insertionSort_perm (l : List α) : (l.insertionSort r).reverse.Perm l :=
  (List.reverse_perm _).trans (l.perm_insertionSort r)

theorem pairwise_reverse_insertionSort [Std.Total r] [IsTrans α r] (l : List α) :
    (l.insertionSort r).reverse.Pairwise (fun a b => r b a) :=
  List.pairwise_reverse.2 (l.pairwise_insertionSort r)

/-- The reversal turns round every class of related elements. -/
theorem filter_reverse_insertionSort {p : α → Bool}
    (hp : ∀ a b, p a = true → p b = true → r a b) (l : List α) :
    (l.insertionSort r).reverse.filter p = (l.filter p).reverse := by
  rw [List.filter_reverse, filter_insertionSort r hp]

/-- In a list that descends past a test, what passes it comes first. -/
theorem filter_eq_takeWhile {p : α → Bool} {l : List α}
    (h : l.Pairwise (fun a b => p b = true → p a = true)) : l.filter p = l.takeWhile p := by
  induction l with
  | nil => rfl
  | cons a rest ih =>
      obtain ⟨hhead, hrest⟩ := List.pairwise_cons.1 h
      by_cases ha : p a = true
      · rw [List.filter_cons_of_pos ha, List.takeWhile_cons_of_pos ha, ih hrest]
      · rw [List.filter_cons_of_neg ha, List.takeWhile_cons_of_neg ha, List.filter_eq_nil_iff]
        exact fun b hb hpb => ha (hhead b hb hpb)

end StableSort
