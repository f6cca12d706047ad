import Mathlib.Data.List.Induction
import Mathlib.Order.WellFounded
import Mathlib.Tactic.Common

set_option autoImplicit false

/-! # Traces and runs

A trace is a list of events. The first section locates an event in a trace that has grown by one at
the end, which is the step of every induction over a history. The second is about systems that move
by labelled steps: the runs whose steps all meet a condition, and the rule for their invariants. -/

namespace Trace

universe u

variable {α : Type u}

/-- An event of a trace with a new last event is the new one, or one of the old trace. -/
theorem snoc_eq_append_cons {l p q : List α} {a x : α} :
    l ++ [a] = p ++ x :: q ↔
      (l = p ∧ a = x ∧ q = []) ∨ ∃ q', q = q' ++ [a] ∧ l = p ++ x :: q' := by
  constructor
  · intro h
    rcases List.eq_nil_or_concat q with rfl | ⟨q', e, rfl⟩
    · obtain ⟨hl, ha⟩ := List.append_inj' h rfl
      exact Or.inl ⟨hl, List.singleton_inj.1 ha, rfl⟩
    · rw [List.concat_eq_append, ← List.cons_append, ← List.append_assoc] at h
      obtain ⟨hl, ha⟩ := List.append_inj' h rfl
      exact Or.inr ⟨q', by rw [List.concat_eq_append, List.singleton_inj.1 ha], hl⟩
  · rintro (⟨rfl, rfl, rfl⟩ | ⟨q', rfl, rfl⟩)
    · rfl
    · simp

/-- What holds of a new event and its history holds of some event of the longer trace. -/
theorem exists_split_snoc {P : List α → α → Prop} {l : List α} {a : α} :
    (∃ p x q, l ++ [a] = p ++ x :: q ∧ P p x) ↔ (∃ p x q, l = p ++ x :: q ∧ P p x) ∨ P l a := by
  refine ⟨fun ⟨p, x, q, hsplit, hP⟩ => ?_, ?_⟩
  · rcases snoc_eq_append_cons.1 hsplit with ⟨rfl, rfl, -⟩ | ⟨q', -, hl⟩
    · exact Or.inr hP
    · exact Or.inl ⟨p, x, q', hl, hP⟩
  · rintro (⟨p, x, q, rfl, hP⟩ | hP)
    · exact ⟨p, x, q ++ [a], by simp, hP⟩
    · exact ⟨l, a, [], rfl, hP⟩

theorem forall_split_snoc {P : List α → α → Prop} {l : List α} {a : α} :
    (∀ p x q, l ++ [a] = p ++ x :: q → P p x) ↔ (∀ p x q, l = p ++ x :: q → P p x) ∧ P l a := by
  have h := not_congr (exists_split_snoc (P := fun p x => ¬P p x) (l := l) (a := a))
  push Not at h
  exact h

/-! ## Runs of a labelled transition system -/

universe v

variable {σ : Type u} {ι : Type v} (step : σ → ι → Option σ)

/-- Execute a sequence of labels; `none` when one of them is not possible. -/
def execute (s : σ) (labels : List ι) : Option σ := labels.foldlM step s

/-- `Runs step ok s t`: steps that all meet `ok` lead from `s` to `t`. -/
inductive Runs (ok : σ → ι → Prop) (s : σ) : σ → Prop
  | refl : Runs ok s s
  | tail {t t' : σ} {a : ι} (h : Runs ok s t) (hok : ok t a) (hstep : step t a = some t') :
      Runs ok s t'

variable {step}

/-- **The rule for invariants.** What holds first and survives every admissible step holds of every
    state that is reached. -/
theorem Runs.invariant {ok : σ → ι → Prop} {P : σ → Prop}
    (keep : ∀ {t t' a}, P t → ok t a → step t a = some t' → P t') {s t : σ} (h : Runs step ok s t)
    (hs : P s) : P t := by
  induction h with
  | refl => exact hs
  | tail _ hok hstep ih => exact keep ih hok hstep

theorem Runs.trans {ok : σ → ι → Prop} {s t t' : σ} (h : Runs step ok s t)
    (h' : Runs step ok t t') : Runs step ok s t' := by
  induction h' with
  | refl => exact h
  | tail _ hok hstep ih => exact ih.tail hok hstep

theorem Runs.head {ok : σ → ι → Prop} {s t t' : σ} {a : ι} (hok : ok s a)
    (hstep : step s a = some t) (h : Runs step ok t t') : Runs step ok s t' :=
  (Runs.refl.tail hok hstep).trans h

theorem Runs.mono {ok ok' : σ → ι → Prop} (hle : ∀ s a, ok s a → ok' s a) {s t : σ}
    (h : Runs step ok s t) : Runs step ok' s t := by
  induction h with
  | refl => exact .refl
  | tail _ hok hstep ih => exact ih.tail (hle _ _ hok) hstep

/-- What is executed is a run. -/
theorem runs_of_execute {s t : σ} {labels : List ι} (h : execute step s labels = some t) :
    Runs step (fun _ _ => True) s t := by
  induction labels using List.reverseRecOn generalizing t with
  | nil => cases h; exact .refl
  | append_singleton labels a ih =>
      rw [execute, List.foldlM_append] at h
      obtain ⟨t₁, hinit, hlast⟩ := Option.bind_eq_some_iff.1 h
      obtain ⟨t₂, hstep, hnil⟩ := Option.bind_eq_some_iff.1 hlast
      cases hnil
      exact (ih hinit).tail trivial hstep

/-- What is executed is a run whose labels are those that are executed. -/
theorem runs_mem_of_execute {s t : σ} {labels : List ι} (h : execute step s labels = some t) :
    Runs step (fun _ a => a ∈ labels) s t := by
  induction labels using List.reverseRecOn generalizing t with
  | nil => cases h; exact .refl
  | append_singleton labels a ih =>
      rw [execute, List.foldlM_append] at h
      obtain ⟨t₁, hinit, hlast⟩ := Option.bind_eq_some_iff.1 h
      obtain ⟨t₂, hstep, hnil⟩ := Option.bind_eq_some_iff.1 hlast
      cases hnil
      exact ((ih hinit).mono (fun _ _ => List.mem_append_left _)).tail
        (List.mem_append_right _ (List.mem_singleton_self a)) hstep

/-! ## Systems whose steps use something up -/

variable {β : Type*} [Preorder β] [WellFoundedLT β] {P : σ → Prop} (μ : σ → β)

/-- What every step makes smaller cannot be made smaller for ever. -/
theorem not_infinite (keep : ∀ {t t' a}, P t → step t a = some t' → P t' ∧ μ t' < μ t)
    {run : Nat → σ} (h0 : P (run 0)) : ¬∀ n, ∃ a, step (run n) a = some (run (n + 1)) := by
  intro hrun
  have hP : ∀ n, P (run n) := by
    intro n
    induction n with
    | zero => exact h0
    | succ n ih =>
        obtain ⟨a, hstep⟩ := hrun n
        exact (keep ih hstep).1
  refine (wellFounded_iff_isEmpty_descending_chain.1 (wellFounded_lt (α := β))).false
    ⟨fun n => μ (run n), fun n => ?_⟩
  obtain ⟨a, hstep⟩ := hrun n
  exact (keep (hP n) hstep).2

/-- If an unfinished state always has an admissible step, some run finishes. -/
theorem exists_finished {ok : σ → ι → Prop} {finished : σ → Prop}
    (keep : ∀ {t t' a}, P t → step t a = some t' → P t' ∧ μ t' < μ t)
    (progress : ∀ {t}, P t → ¬finished t → ∃ a t', ok t a ∧ step t a = some t') {s : σ} (hs : P s) :
    ∃ t, Runs step ok s t ∧ P t ∧ finished t := by
  induction hμ : μ s using WellFoundedLT.induction generalizing s with
  | ind b ih =>
      by_cases hfin : finished s
      · exact ⟨s, .refl, hs, hfin⟩
      · obtain ⟨a, s', hok, hstep⟩ := progress hs hfin
        obtain ⟨hs', hlt⟩ := keep hs hstep
        obtain ⟨t, hrun, ht⟩ := ih (μ s') (hμ ▸ hlt) hs' rfl
        exact ⟨t, .head hok hstep hrun, ht⟩

end Trace
