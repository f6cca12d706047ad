import Mathlib.Data.List.Basic
import Mathlib.Tactic.Common

set_option autoImplicit false

/-! # Fields of a text

A text that is put together from fields can be taken apart again where the separator is known to
occur in none of the fields before it, or in none after it. -/

namespace Fields

universe u

variable {α : Type u} {a : α}

/-- The first field, when it is free of the separator. -/
theorem append_cons_inj_left {x x' z z' : List α} (hx : a ∉ x) (hx' : a ∉ x') :
    x ++ a :: z = x' ++ a :: z' ↔ x = x' ∧ z = z' := by
  refine ⟨fun h => ?_, fun ⟨hxx', hzz'⟩ => by rw [hxx', hzz']⟩
  induction x generalizing x' with
  | nil =>
      cases x' with
      | nil => exact ⟨rfl, (List.cons.inj h).2⟩
      | cons c x' => exact absurd (List.mem_cons.2 (Or.inl (List.cons.inj h).1)) hx'
  | cons b x ih =>
      rw [List.mem_cons, not_or] at hx
      cases x' with
      | nil => exact absurd (List.cons.inj h).1.symm hx.1
      | cons c x' =>
          rw [List.mem_cons, not_or] at hx'
          obtain ⟨rfl, htail⟩ := List.cons.inj h
          obtain ⟨rfl, rfl⟩ := ih hx.2 hx'.2 htail
          exact ⟨rfl, rfl⟩

/-- The last field, when it is free of the separator. -/
theorem append_cons_inj_right {x x' z z' : List α} (hz : a ∉ z) (hz' : a ∉ z') :
    x ++ a :: z = x' ++ a :: z' ↔ x = x' ∧ z = z' := by
  have hreverse : x ++ a :: z = x' ++ a :: z' ↔
      z.reverse ++ a :: x.reverse = z'.reverse ++ a :: x'.reverse := by
    rw [← List.reverse_inj]
    simp only [List.reverse_append, List.reverse_cons, List.append_assoc, List.singleton_append]
  rw [hreverse, append_cons_inj_left (by rwa [List.mem_reverse]) (by rwa [List.mem_reverse]),
    List.reverse_inj, List.reverse_inj, and_comm]

/-- Lists of encoded items are equal when the items are, one by one. -/
theorem map_eq_map_congr {β γ : Type u} {f f' : α → β} {g g' : α → γ}
    (h : ∀ x y, f x = f' y ↔ g x = g' y) (l l' : List α) :
    l.map f = l'.map f' ↔ l.map g = l'.map g' := by
  induction l generalizing l' with
  | nil => cases l' <;> simp
  | cons x rest ih =>
      cases l' with
      | nil => simp
      | cons y rest' => simp only [List.map_cons, List.cons.injEq, h, ih]

end Fields
