import Mathlib.Tactic.Common

set_option autoImplicit false

/-! # Loops that can throw and keep their state

An `Except` forgets the state at a throw. An `Outcome` keeps it: what was thrown, if anything, and
the state at that moment. `forEach` is the loop over a list. `forEach_invariant` is its invariant
rule, which holds of a loop that throws, too; `forEach_rule` says what a loop that returns has done,
and `forEach_counted` follows a loop element by element. -/

universe u v w

/-- How a computation ends: what it throws, if anything, and the state it leaves. -/
structure Outcome (ε : Type u) (σ : Type v) where
  thrown : Option ε
  state : σ
  deriving DecidableEq

namespace Outcome

variable {ε : Type u} {σ : Type v} {α : Type w}

/-- Return normally. -/
def ret (s : σ) : Outcome ε σ := ⟨none, s⟩

/-- Throw `e` in the state `s`. -/
def throw (e : ε) (s : σ) : Outcome ε σ := ⟨some e, s⟩

/-- Go on with `f` unless something was thrown. -/
def andThen (o : Outcome ε σ) (f : σ → Outcome ε σ) : Outcome ε σ :=
  match o.thrown with
  | none => f o.state
  | some _ => o

/-- Forget the state at a throw. -/
def toExcept (o : Outcome ε σ) : Except ε σ :=
  match o.thrown with
  | none => .ok o.state
  | some e => .error e

/-- The body `f` for every element of a list, until one throws. -/
def forEach (f : σ → α → Outcome ε σ) (s : σ) : List α → Outcome ε σ
  | [] => ret s
  | a :: rest => (f s a).andThen (fun s => forEach f s rest)

@[simp] theorem state_ret (s : σ) : (ret s : Outcome ε σ).state = s := rfl

@[simp] theorem thrown_ret (s : σ) : (ret s : Outcome ε σ).thrown = none := rfl

@[simp] theorem state_throw (e : ε) (s : σ) : (throw e s).state = s := rfl

@[simp] theorem thrown_throw (e : ε) (s : σ) : (throw e s).thrown = some e := rfl

theorem andThen_of_none {o : Outcome ε σ} (h : o.thrown = none) (f : σ → Outcome ε σ) :
    o.andThen f = f o.state := by
  simp only [andThen, h]

theorem andThen_of_some {o : Outcome ε σ} (h : o.thrown ≠ none) (f : σ → Outcome ε σ) :
    o.andThen f = o := by
  obtain ⟨e, he⟩ := Option.ne_none_iff_exists'.1 h
  simp only [andThen, he]

@[simp] theorem ret_andThen (s : σ) (f : σ → Outcome ε σ) : (ret s).andThen f = f s := rfl

theorem toExcept_eq_ok {o : Outcome ε σ} {s : σ} :
    o.toExcept = .ok s ↔ o.thrown = none ∧ o.state = s := by
  unfold toExcept
  cases o.thrown <;> simp

theorem toExcept_eq_error {o : Outcome ε σ} {e : ε} :
    o.toExcept = .error e ↔ o.thrown = some e := by
  unfold toExcept
  cases o.thrown <;> simp

theorem thrown_andThen {o : Outcome ε σ} {f : σ → Outcome ε σ} :
    (o.andThen f).thrown = none ↔ o.thrown = none ∧ (f o.state).thrown = none := by
  by_cases h : o.thrown = none
  · simp only [andThen_of_none h, h, true_and]
  · simp only [andThen_of_some h, h, false_and]

/-- **The invariant rule.** What every step keeps, whether it throws or not, the loop keeps. -/
theorem forEach_invariant {f : σ → α → Outcome ε σ} {P : σ → Prop} {l : List α}
    (step : ∀ s a, a ∈ l → P s → P (f s a).state) {s : σ} (hs : P s) :
    P (forEach f s l).state := by
  induction l generalizing s with
  | nil => exact hs
  | cons a rest ih =>
      have hfirst := step s a (List.mem_cons_self ..) hs
      rw [forEach]
      by_cases h : (f s a).thrown = none
      · rw [andThen_of_none h]
        exact ih (fun s b hb => step s b (List.mem_cons_of_mem _ hb)) hfirst
      · rw [andThen_of_some h]
        exact hfirst

/-- **The rule for a loop that returns.** `R` is what a step may do to the state, `P` holds before
    every step and `Q a` is the mark that the step for `a` leaves; both survive whatever `R`
    allows. -/
theorem forEach_rule {f : σ → α → Outcome ε σ} {R : σ → σ → Prop} (refl : ∀ s, R s s)
    (trans : ∀ {s₁ s₂ s₃}, R s₁ s₂ → R s₂ s₃ → R s₁ s₃) {P : σ → Prop}
    (keepP : ∀ {s s'}, R s s' → P s → P s') {Q : α → σ → Prop}
    (keepQ : ∀ {a s s'}, R s s' → Q a s → Q a s') {l : List α}
    (step : ∀ s a, a ∈ l → P s → (f s a).thrown = none → R s (f s a).state ∧ Q a (f s a).state)
    {s : σ} (hs : P s) (h : (forEach f s l).thrown = none) :
    R s (forEach f s l).state ∧ ∀ a ∈ l, Q a (forEach f s l).state := by
  induction l generalizing s with
  | nil => exact ⟨refl s, fun a ha => absurd ha List.not_mem_nil⟩
  | cons a rest ih =>
      rw [forEach] at h ⊢
      obtain ⟨hfirst, hrest⟩ := thrown_andThen.1 h
      rw [andThen_of_none hfirst]
      obtain ⟨hR, hQ⟩ := step s a (List.mem_cons_self ..) hs hfirst
      obtain ⟨hR', hQ'⟩ :=
        ih (fun s b hb => step s b (List.mem_cons_of_mem _ hb)) (keepP hR hs) hrest
      refine ⟨trans hR hR', fun b hb => ?_⟩
      rcases List.mem_cons.1 hb with rfl | hb
      · exact keepQ hR' hQ
      · exact hQ' b hb

/-- **Element by element.** `P k` holds when the loop has come to its element `k`. `Q` holds of
    every state in which the loop can end, by a throw or after the last element. -/
theorem forEach_counted {f : σ → α → Outcome ε σ} {Q : σ → Prop} {l : List α} {P : Nat → σ → Prop}
    (step : ∀ k a s, l[k]? = some a → P k s →
      Q (f s a).state ∧ ((f s a).thrown = none → P (k + 1) (f s a).state))
    (done : ∀ s, P l.length s → Q s) {s : σ} (hs : P 0 s) :
    Q (forEach f s l).state ∧
      ((forEach f s l).thrown = none → P l.length (forEach f s l).state) := by
  induction l generalizing s P with
  | nil => exact ⟨done s hs, fun _ => hs⟩
  | cons a rest ih =>
      obtain ⟨hQ, hP⟩ := step 0 a s rfl hs
      rw [forEach]
      by_cases hfirst : (f s a).thrown = none
      · rw [andThen_of_none hfirst]
        exact ih (P := fun k => P (k + 1)) (fun k b s hb => step (k + 1) b s hb) done (hP hfirst)
      · rw [andThen_of_some hfirst]
        exact ⟨hQ, fun h => absurd h hfirst⟩

/-- A loop does not throw `e` when no step does. -/
theorem forEach_thrown_ne {e : ε} {f : σ → α → Outcome ε σ} {P : σ → Prop} {l : List α}
    (step : ∀ s a, a ∈ l → P s → (f s a).thrown ≠ some e)
    (keep : ∀ s a, a ∈ l → P s → (f s a).thrown = none → P (f s a).state) {s : σ} (hs : P s) :
    (forEach f s l).thrown ≠ some e := by
  induction l generalizing s with
  | nil => simp [forEach]
  | cons a rest ih =>
      rw [forEach]
      by_cases hfirst : (f s a).thrown = none
      · rw [andThen_of_none hfirst]
        exact ih (fun s b hb => step s b (List.mem_cons_of_mem _ hb))
          (fun s b hb => keep s b (List.mem_cons_of_mem _ hb))
          (keep s a (List.mem_cons_self ..) hs hfirst)
      · rw [andThen_of_some hfirst]
        exact step s a (List.mem_cons_self ..) hs

/-- If `P` holds at the end of a loop that returns, and goes back over every step, another loop that
    copies the steps which end in `P` does the same. -/
theorem forEach_copy {f g : σ → α → Outcome ε σ} {P : σ → Prop} {l : List α}
    (copy : ∀ {s a}, (f s a).thrown = none → P (f s a).state → P s ∧ g s a = f s a) {s : σ}
    (h : (forEach f s l).thrown = none) (ht : P (forEach f s l).state) :
    P s ∧ forEach g s l = forEach f s l := by
  induction l generalizing s with
  | nil => exact ⟨ht, rfl⟩
  | cons a rest ih =>
      rw [forEach] at h ht
      obtain ⟨hfirst, hrest⟩ := thrown_andThen.1 h
      rw [andThen_of_none hfirst] at ht
      obtain ⟨hs', heq'⟩ := ih hrest ht
      obtain ⟨hs, heq⟩ := copy hfirst hs'
      refine ⟨hs, ?_⟩
      rw [forEach, forEach, heq, andThen_of_none hfirst, andThen_of_none hfirst, heq']

/-- A loop that throws ends as one of its steps does. -/
theorem exists_of_thrown_forEach {f : σ → α → Outcome ε σ} {P : σ → Prop} {l : List α}
    (step : ∀ s a, a ∈ l → P s → P (f s a).state) {s : σ} (hs : P s)
    (h : (forEach f s l).thrown ≠ none) :
    ∃ s' a, a ∈ l ∧ P s' ∧ forEach f s l = f s' a := by
  induction l generalizing s with
  | nil => exact absurd rfl h
  | cons a rest ih =>
      rw [forEach] at h ⊢
      by_cases hfirst : (f s a).thrown = none
      · rw [andThen_of_none hfirst] at h ⊢
        obtain ⟨s', b, hb, hP, heq⟩ := ih (fun s b hb => step s b (List.mem_cons_of_mem _ hb))
          (step s a (List.mem_cons_self ..) hs) h
        exact ⟨s', b, List.mem_cons_of_mem _ hb, hP, heq⟩
      · exact ⟨s, a, List.mem_cons_self .., hs, andThen_of_some hfirst _⟩

/-- Two loops end in the same way if their steps do, except that a step of the first may throw `e`
    where the second one goes on. -/
theorem forEach_eq_of_ne {e : ε} {f g : σ → α → Outcome ε σ}
    (step : ∀ s a, (f s a).thrown ≠ some e → g s a = f s a) {l : List α} {s : σ}
    (h : (forEach f s l).thrown ≠ some e) : forEach g s l = forEach f s l := by
  induction l generalizing s with
  | nil => rfl
  | cons a rest ih =>
      rw [forEach] at h
      rw [forEach, forEach]
      by_cases hfirst : (f s a).thrown = none
      · rw [andThen_of_none hfirst] at h
        rw [step s a (by simp [hfirst]), andThen_of_none hfirst, andThen_of_none hfirst]
        exact ih h
      · rw [andThen_of_some hfirst] at h
        rw [step s a h, andThen_of_some hfirst, andThen_of_some hfirst]

end Outcome
