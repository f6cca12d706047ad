import Mathlib.Tactic.Common

set_option autoImplicit false

/-! # The grounded labelling of a relation

Where `attacks q p` says that `q`, if it stands, rules `p` out, an element stands when all that
attacks it is ruled out, and is ruled out when something that stands attacks it. `Labelled` is the
least way to label by these two rules: `true` for what stands, `false` for what is ruled out.
Nothing gets both labels; what attacks itself around a circle gets none. -/

universe u

/-- What stands (`true`) and what is ruled out (`false`). -/
inductive Labelled {α : Type u} (attacks : α → α → Prop) : Bool → α → Prop
  | stands {p : α} (h : ∀ q, attacks q p → Labelled attacks false q) : Labelled attacks true p
  | falls {q p : α} (h : attacks q p) (hq : Labelled attacks true q) : Labelled attacks false p

namespace Labelled

variable {α : Type u} {attacks : α → α → Prop}

/-- A label that is given excludes the other one. -/
theorem unique {b : Bool} {p : α} (h : Labelled attacks b p) : ¬Labelled attacks (!b) p := by
  induction h with
  | stands _ ih =>
      intro h'
      cases h' with
      | falls hattack hq => exact ih _ hattack hq
  | falls hattack _ ih =>
      intro h'
      cases h' with
      | stands hall => exact ih (hall _ hattack)

/-- **No element stands and falls.** -/
theorem not_both {p : α} (h : Labelled attacks true p) : ¬Labelled attacks false p := h.unique

theorem stands_iff {p : α} :
    Labelled attacks true p ↔ ∀ q, attacks q p → Labelled attacks false q :=
  ⟨fun h => by cases h with | stands h => exact h, .stands⟩

theorem falls_iff {p : α} : Labelled attacks false p ↔ ∃ q, attacks q p ∧ Labelled attacks true q :=
  ⟨fun h => by cases h with | falls h hq => exact ⟨_, h, hq⟩, fun ⟨_, h, hq⟩ => .falls h hq⟩

/-- What is attacked by at most the attackers of something that stands, and by others that are ruled
    out, stands. -/
theorem stands_of_subset {p p' : α} (h : Labelled attacks true p)
    (hattack : ∀ q, attacks q p' → attacks q p ∨ Labelled attacks false q) :
    Labelled attacks true p' := by
  refine .stands fun q hq => ?_
  rcases hattack q hq with hq | hq
  · exact stands_iff.1 h q hq
  · exact hq

end Labelled
