import Jma.Hierarchy.CallGraph
import Jma.Lib.Grounded
import Jma.Lib.Paths
import Mathlib.Algebra.Group.Even

set_option autoImplicit false

/-! # Which bodies are read

What a walk scans, said of the class files alone. If no body were ever skipped, the visitors would
form a tree: the visitor of the root request, and below each visitor one for every call of another
class from a body that it seeks. A place in this tree is a path. Below the visitor at `α`, part `0`
is its constructor and part `k + 1` is method `k` of its class file; the visitor created for
instruction `j` of that method is at `α ++ [k + 1] ++ [j]`. The lexicographic order of the paths is
the order in which the code is met.

A part mentions the methods that it lists. A sought body is skipped when an earlier place mentions
its method, unless that place is itself below a skipped body: this is the labelling of `Hides`. -/

namespace Jma

section

variable (U : ClassUniverse) (fold : Char → Char) (root name : String)

/-- `VisitorAt α c n`: at `α` is a visitor of the class `c` that seeks the methods called `n`. -/
inductive VisitorAt : List Nat → String → String → Prop
  | root : VisitorAt [] root name
  | call {α : List Nat} {c : String} {m : MethodDecl} {insn : MethodInsn} {k j : Nat}
      (h : VisitorAt α c m.name) (hm : (U.methodsOf c)[k]? = some m)
      (hinsn : m.body[j]? = some insn) (hne : equalsIgnoreCase fold insn.owner c = false) :
      VisitorAt (α ++ [k + 1] ++ [j]) insn.owner insn.name

/-- The visitor at `α` seeks method `k` of its class `c`, which is `m`. -/
def Sought (α : List Nat) (k : Nat) (c : String) (m : MethodDecl) : Prop :=
  VisitorAt U fold root name α c m.name ∧ (U.methodsOf c)[k]? = some m

/-- The place `p` lists the method `e`. -/
inductive Mentions : List Nat → CMethodInfo → Prop
  | super {α : List Nat} {c n : String} {s : ClassFile} {m : MethodDecl}
      (h : VisitorAt U fold root name α c n) (hs : SuperMethod U c s m) :
      Mentions (α ++ [0]) (.of s.name m)
  | own {α : List Nat} {c n : String} {m : MethodDecl} {k : Nat}
      (h : VisitorAt U fold root name α c n) (hm : (U.methodsOf c)[k]? = some m) :
      Mentions (α ++ [k + 1]) (.of c m)

/-- `Hides q p`: the place `p` is in a sought body whose method is mentioned before, at `q`. -/
inductive Hides (q p : List Nat) : Prop
  | intro {α : List Nat} {k j : Nat} {c : String} {m : MethodDecl}
      (h : Sought U fold root name α k c m) (hq : q < α ++ [k + 1])
      (hmention : Mentions U fold root name q (.of c m)) (hp : α ++ [k + 1] ++ [j] <+: p)

/-- Every place that would hide `p` is skipped. -/
def Reached (p : List Nat) : Prop := Labelled (Hides U fold root name) true p

/-- A place that hides `p` is reached. -/
def Skipped (p : List Nat) : Prop := Labelled (Hides U fold root name) false p

/-- The body of the method `m` of `c` is read: somewhere it is sought and not skipped. -/
def Read (c : String) (m : MethodDecl) : Prop :=
  ∃ α k, Sought U fold root name α k c m ∧ Reached U fold root name (α ++ [k + 1] ++ [0])

end

section

variable {U : ClassUniverse} {fold : Char → Char} {root name : String}

/-! ## Places -/

theorem VisitorAt.even {α : List Nat} {c n : String} (h : VisitorAt U fold root name α c n) :
    Even α.length := by
  induction h with
  | root => exact ⟨0, rfl⟩
  | call _ _ _ _ ih =>
      obtain ⟨i, hi⟩ := ih
      exact ⟨i + 1, by simp only [List.length_append, List.length_singleton]; omega⟩

/-- A part of a visitor is not a visitor. -/
theorem VisitorAt.ne_part {α β : List Nat} {c n c' n' : String} {i : Nat}
    (h : VisitorAt U fold root name α c n) (h' : VisitorAt U fold root name β c' n') :
    α ≠ β ++ [i] := by
  rintro rfl
  obtain ⟨x, hx⟩ := h.even
  obtain ⟨y, hy⟩ := h'.even
  simp only [List.length_append, List.length_singleton] at hx
  omega

theorem VisitorAt.unique {α : List Nat} {c n c' n' : String}
    (h : VisitorAt U fold root name α c n) (h' : VisitorAt U fold root name α c' n') :
    c = c' ∧ n = n' := by
  induction h generalizing c' n' with
  | root =>
      generalize hα : ([] : List Nat) = α at h'
      cases h' with
      | root => exact ⟨rfl, rfl⟩
      | call _ _ _ _ => simp at hα
  | @call α c m insn k j _ hm hinsn _ ih =>
      generalize hα : α ++ [k + 1] ++ [j] = β at h'
      cases h' with
      | root => simp at hα
      | @call α' c₁ m₁ insn₁ k₁ j₁ h₁ hm₁ hinsn₁ _ =>
          obtain ⟨hα, hj⟩ := List.append_inj' hα rfl
          obtain ⟨rfl, hk⟩ := List.append_inj' hα rfl
          simp only [List.cons.injEq, Nat.add_right_cancel_iff, and_true] at hj hk
          subst hj hk
          obtain ⟨rfl, -⟩ := ih h₁
          rw [hm, Option.some.injEq] at hm₁
          subst hm₁
          rw [hinsn, Option.some.injEq] at hinsn₁
          subst hinsn₁
          exact ⟨rfl, rfl⟩

/-- A visitor below another one is below a call from a body that this one seeks. -/
theorem VisitorAt.descend {α β : List Nat} {c n c' n' : String}
    (h : VisitorAt U fold root name α c n) (h' : VisitorAt U fold root name β c' n')
    (hle : α <+: β) (hne : β ≠ α) :
    ∃ k j m insn, Sought U fold root name α k c m ∧ m.name = n ∧ m.body[j]? = some insn ∧
      equalsIgnoreCase fold insn.owner c = false ∧ α ++ [k + 1] ++ [j] <+: β := by
  induction h' with
  | root => exact absurd (List.prefix_nil.1 hle).symm hne
  | @call γ c₁ m insn k j h₁ hm hinsn hleaves ih =>
      rcases List.prefix_concat_iff.1 hle with rfl | hle
      · exact absurd rfl hne
      rcases List.prefix_concat_iff.1 hle with hα | hle
      · exact absurd hα (h.ne_part h₁)
      by_cases hγ : γ = α
      · subst hγ
        obtain ⟨rfl, rfl⟩ := h.unique h₁
        exact ⟨k, j, m, insn, ⟨h, hm⟩, rfl, hinsn, hleaves, List.prefix_refl _⟩
      · obtain ⟨k', j', m', insn', hsought, hname, hinsn', hleaves', hbelow⟩ := ih hle hγ
        refine ⟨k', j', m', insn', hsought, hname, hinsn', hleaves', hbelow.trans ?_⟩
        exact (List.prefix_append _ _).trans (List.prefix_append _ _)

theorem Sought.mentions {α : List Nat} {k : Nat} {c : String} {m : MethodDecl}
    (h : Sought U fold root name α k c m) :
    Mentions U fold root name (α ++ [k + 1]) (.of c m) :=
  .own h.1 h.2

theorem Sought.declares {α : List Nat} {k : Nat} {c : String} {m : MethodDecl}
    (h : Sought U fold root name α k c m) : Declares U c m :=
  mem_methodsOf.1 (List.mem_of_getElem? h.2)

theorem Read.declares {c : String} {m : MethodDecl} (h : Read U fold root name c m) :
    Declares U c m := by
  obtain ⟨α, k, hsought, -⟩ := h
  exact hsought.declares

theorem Sought.unique {α : List Nat} {k : Nat} {c c' : String} {m m' : MethodDecl}
    (h : Sought U fold root name α k c m) (h' : Sought U fold root name α k c' m') :
    c = c' ∧ m = m' := by
  obtain ⟨rfl, -⟩ := h.1.unique h'.1
  exact ⟨rfl, Option.some.inj (h.2.symm.trans h'.2)⟩

/-- Only parts of visitors mention something. -/
theorem Mentions.exists_part {p : List Nat} {e : CMethodInfo} (h : Mentions U fold root name p e) :
    ∃ α i c n, p = α ++ [i] ∧ VisitorAt U fold root name α c n := by
  cases h with
  | super h _ => exact ⟨_, _, _, _, rfl, h⟩
  | own h _ => exact ⟨_, _, _, _, rfl, h⟩

theorem VisitorAt.not_mentions {α : List Nat} {c n : String} {e : CMethodInfo}
    (h : VisitorAt U fold root name α c n) : ¬Mentions U fold root name α e := by
  intro hmention
  obtain ⟨β, i, c', n', hα, hβ⟩ := hmention.exists_part
  exact h.ne_part hβ hα

/-- What a part of a visitor mentions. -/
theorem VisitorAt.mentions_part {α : List Nat} {c n : String} {i : Nat} {e : CMethodInfo}
    (h : VisitorAt U fold root name α c n) (hmention : Mentions U fold root name (α ++ [i]) e) :
    (i = 0 ∧ ∃ s m, SuperMethod U c s m ∧ e = .of s.name m) ∨
      ∃ k m, i = k + 1 ∧ (U.methodsOf c)[k]? = some m ∧ e = .of c m := by
  generalize hp : α ++ [i] = p at hmention
  cases hmention with
  | @super β c' n' s m h' hs =>
      obtain ⟨rfl, hi⟩ := List.append_inj' hp rfl
      obtain ⟨rfl, -⟩ := h.unique h'
      exact Or.inl ⟨by simpa using hi, s, m, hs, rfl⟩
  | @own β c' n' m k h' hm =>
      obtain ⟨rfl, hi⟩ := List.append_inj' hp rfl
      obtain ⟨rfl, -⟩ := h.unique h'
      exact Or.inr ⟨k, m, by simpa using hi, hm, rfl⟩

/-- What is mentioned below a part of a visitor is mentioned by the part itself, or below a call
    from the body that it is. -/
theorem VisitorAt.mentions_below {α p : List Nat} {c n : String} {i : Nat} {e : CMethodInfo}
    (h : VisitorAt U fold root name α c n) (hmention : Mentions U fold root name p e)
    (hle : α ++ [i] <+: p) :
    p = α ++ [i] ∨
      ∃ k j m insn, i = k + 1 ∧ Sought U fold root name α k c m ∧ m.name = n ∧
        m.body[j]? = some insn ∧ equalsIgnoreCase fold insn.owner c = false ∧
        α ++ [k + 1] ++ [j] <+: p := by
  obtain ⟨β, i', c', n', rfl, h'⟩ := hmention.exists_part
  rcases List.prefix_concat_iff.1 hle with hp | hle
  · exact Or.inl hp.symm
  have hne : β ≠ α := by
    rintro rfl
    have hlen := hle.length_le
    simp only [List.length_append, List.length_singleton] at hlen
    omega
  obtain ⟨k, j, m, insn, hsought, hname, hinsn, hleaves, hbelow⟩ :=
    h.descend h' ((List.prefix_append _ _).trans hle) hne
  have hsame : α ++ [i] = α ++ [k + 1] :=
    (List.prefix_of_prefix_length_le hle ((List.prefix_append _ _).trans hbelow)
      (by simp)).eq_of_length (by simp)
  exact Or.inr ⟨k, j, m, insn, by simpa using hsame, hsought, hname, hinsn, hleaves,
    hbelow.trans (List.prefix_append _ _)⟩

/-- A visitor has no parts after its methods. -/
theorem VisitorAt.part_le {α p : List Nat} {c n : String} {i : Nat} {e : CMethodInfo}
    (h : VisitorAt U fold root name α c n) (hmention : Mentions U fold root name p e)
    (hle : α ++ [i] <+: p) : i ≤ (U.methodsOf c).length := by
  rcases h.mentions_below hmention hle with rfl | ⟨k, _, m, _, rfl, hsought, -⟩
  · rcases h.mentions_part hmention with ⟨rfl, -⟩ | ⟨k, m, rfl, hm, -⟩
    · exact Nat.zero_le _
    · exact (List.getElem?_eq_some_iff.1 hm).1
  · exact (List.getElem?_eq_some_iff.1 hsought.2).1

/-! ## What is reached and what is skipped -/

/-- Whatever is hidden is hidden with all that is below it. -/
theorem Skipped.below {p p' : List Nat} (h : Skipped U fold root name p) (hle : p <+: p') :
    Skipped U fold root name p' := by
  obtain ⟨q, ⟨hsought, hq, hmention, hp⟩, hreached⟩ := Labelled.falls_iff.1 h
  exact .falls ⟨hsought, hq, hmention, hp.trans hle⟩ hreached

theorem Reached.not_skipped {p : List Nat} (h : Reached U fold root name p) :
    ¬Skipped U fold root name p :=
  Labelled.not_both h

/-- Nothing hides the visitor of the root. -/
theorem reached_nil : Reached U fold root name [] := by
  refine .stands fun q hhides => ?_
  obtain ⟨-, -, -, hp⟩ := hhides
  simp at hp

/-- The parts of a visitor that is reached are reached: what they mention is listed. -/
theorem Reached.part {α : List Nat} {c n : String} (hα : Reached U fold root name α)
    (h : VisitorAt U fold root name α c n) (i : Nat) : Reached U fold root name (α ++ [i]) := by
  refine hα.stands_of_subset fun q hhides => Or.inl ?_
  obtain ⟨hsought, hq, hmention, hp⟩ := hhides
  rcases List.prefix_concat_iff.1 hp with hp | hp
  · exact absurd (List.append_inj' hp rfl).1.symm (h.ne_part hsought.1)
  · exact ⟨hsought, hq, hmention, hp⟩

/-- A sought body is reached with its visitor, if every earlier mention of its method is skipped. -/
theorem Reached.body {α : List Nat} {k : Nat} {c : String} {m : MethodDecl}
    (hα : Reached U fold root name α) (h : Sought U fold root name α k c m)
    (hearlier : ∀ q, q < α ++ [k + 1] → Mentions U fold root name q (.of c m) →
      Skipped U fold root name q) (j : Nat) :
    Reached U fold root name (α ++ [k + 1] ++ [j]) := by
  refine hα.stands_of_subset fun q hhides => ?_
  obtain ⟨hsought, hq, hmention, hp⟩ := hhides
  rcases List.prefix_concat_iff.1 hp with hp | hp
  · -- the body that would be hidden is this one
    obtain ⟨hp, -⟩ := List.append_inj' hp rfl
    obtain ⟨rfl, hk⟩ := List.append_inj' hp rfl
    simp only [List.cons.injEq, Nat.add_right_cancel_iff, and_true] at hk
    subst hk
    obtain ⟨rfl, rfl⟩ := h.unique hsought
    exact Or.inr (hearlier q hq hmention)
  rcases List.prefix_concat_iff.1 hp with hp | hp
  · exact absurd (List.append_inj' hp rfl).1.symm (h.1.ne_part hsought.1)
  · exact Or.inl ⟨hsought, hq, hmention, hp⟩

/-- A sought body is skipped when an earlier mention of its method is reached. -/
theorem Sought.skipped {α q : List Nat} {k : Nat} {c : String} {m : MethodDecl}
    (h : Sought U fold root name α k c m) (hq : q < α ++ [k + 1])
    (hmention : Mentions U fold root name q (.of c m)) (hreached : Reached U fold root name q)
    (j : Nat) : Skipped U fold root name (α ++ [k + 1] ++ [j]) :=
  .falls ⟨h, hq, hmention, List.prefix_refl _⟩ hreached

/-- After one call of a class, a second call of the same class from the same body reads nothing: the
    visitor of the first one has listed all its methods. -/
theorem Sought.skipped_in_second_call {α : List Nat} {k j j' i : Nat} {c : String}
    {m m' : MethodDecl} {insn : MethodInsn} (h : Sought U fold root name α k c m)
    (hreached : Reached U fold root name (α ++ [k + 1] ++ [j])) (hinsn : m.body[j]? = some insn)
    (hne : equalsIgnoreCase fold insn.owner c = false) (hj : j < j')
    (h' : Sought U fold root name (α ++ [k + 1] ++ [j']) i insn.owner m') (l : Nat) :
    Skipped U fold root name (α ++ [k + 1] ++ [j'] ++ [i + 1] ++ [l]) := by
  have hfirst : VisitorAt U fold root name (α ++ [k + 1] ++ [j]) insn.owner insn.name :=
    .call h.1 h.2 hinsn hne
  exact h'.skipped (Paths.child_lt_child hj) (.own hfirst h'.2) (hreached.part hfirst _) l

end

end Jma
