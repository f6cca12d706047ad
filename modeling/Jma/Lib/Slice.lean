import Mathlib.Data.List.TakeWhile
import Mathlib.Tactic.Common

set_option autoImplicit false

/-! # The part of a list between two marks

`between start stop l` is the part of `l` from the first element that meets `start` to the first one
that meets `stop`, both included. Without a `stop` it reaches to the end, and it is empty without a
`start` or with the `stop` before it. It is given by the two indices; the lemmas for `a :: l` are
what a loop over `l` is compared with. -/

namespace Slice

universe u

variable {α : Type u} (start stop : α → Bool)

/-- The part of a list up to the first element that meets `stop`, included. -/
def upTo (l : List α) : List α := l.take (l.findIdx stop + 1)

/-- The part of a list from the first `start` to the first `stop`. -/
def between (l : List α) : List α := (upTo stop l).drop (l.findIdx start)

@[simp] theorem upTo_nil : upTo stop ([] : List α) = [] := rfl

@[simp] theorem between_nil : between start stop ([] : List α) = [] := rfl

variable {start stop}

theorem upTo_cons_of_stop {a : α} (l : List α) (h : stop a = true) : upTo stop (a :: l) = [a] := by
  simp [upTo, List.findIdx_cons, h]

theorem upTo_cons_of_not_stop {a : α} (l : List α) (h : stop a = false) :
    upTo stop (a :: l) = a :: upTo stop l := by
  simp [upTo, List.findIdx_cons, h]

theorem head?_upTo_cons (a : α) (l : List α) : (upTo stop (a :: l)).head? = some a := rfl

/-- With a `stop` in the list the part up to it ends with one. -/
theorem exists_getLast?_upTo {l : List α} (h : ∃ a ∈ l, stop a = true) :
    ∃ a, (upTo stop l).getLast? = some a ∧ stop a = true := by
  induction l with
  | nil =>
      obtain ⟨a, ha, -⟩ := h
      cases ha
  | cons b rest ih =>
      cases hb : stop b with
      | true => exact ⟨b, by rw [upTo_cons_of_stop rest hb]; rfl, hb⟩
      | false =>
          obtain ⟨a, ha, hstop⟩ := h
          have hrest : a ∈ rest := by
            rcases List.mem_cons.1 ha with rfl | ha
            · rw [hb] at hstop
              cases hstop
            · exact ha
          obtain ⟨c, hlast, hc⟩ := ih ⟨a, hrest, hstop⟩
          refine ⟨c, ?_, hc⟩
          rw [upTo_cons_of_not_stop rest hb, List.getLast?_cons, hlast]
          rfl

theorem between_cons_of_start {a : α} (l : List α) (h : start a = true) :
    between start stop (a :: l) = upTo stop (a :: l) := by
  simp [between, List.findIdx_cons, h]

theorem between_cons_of_stop {a : α} (l : List α) (hstart : start a = false)
    (hstop : stop a = true) : between start stop (a :: l) = [] := by
  simp [between, upTo_cons_of_stop l hstop, List.findIdx_cons, hstart]

theorem between_cons_of_neither {a : α} (l : List α) (hstart : start a = false)
    (hstop : stop a = false) : between start stop (a :: l) = between start stop l := by
  simp [between, upTo_cons_of_not_stop l hstop, List.findIdx_cons, hstart]

/-- What meets neither mark can be left out at the beginning. -/
theorem between_append_of_neither {pre : List α} (l : List α)
    (h : ∀ a ∈ pre, start a = false ∧ stop a = false) :
    between start stop (pre ++ l) = between start stop l := by
  induction pre with
  | nil => rfl
  | cons a rest ih =>
      obtain ⟨hstart, hstop⟩ := h a (List.mem_cons_self ..)
      rw [List.cons_append, between_cons_of_neither _ hstart hstop]
      exact ih (fun b hb => h b (List.mem_cons_of_mem _ hb))

/-! ## By the first indices -/

variable {l : List α}

/-- All cases at once. -/
theorem between_eq_match (start stop : α → Bool) (l : List α) :
    between start stop l =
      match l.findIdx? start, l.findIdx? stop with
      | some i, some e => if i ≤ e then (l.take (e + 1)).drop i else []
      | some i, none => l.drop i
      | none, _ => [] := by
  unfold between upTo
  cases hstart : l.findIdx? start with
  | none =>
      rw [List.findIdx?_eq_none_iff_findIdx_eq.1 hstart]
      exact List.drop_of_length_le (List.length_take_le' _ _)
  | some i =>
      rw [(List.findIdx?_eq_some_iff_findIdx_eq.1 hstart).2]
      cases hstop : l.findIdx? stop with
      | none =>
          show (l.take (l.findIdx stop + 1)).drop i = l.drop i
          rw [List.findIdx?_eq_none_iff_findIdx_eq.1 hstop, List.take_of_length_le (by omega)]
      | some e =>
          show (l.take (l.findIdx stop + 1)).drop i
            = if i ≤ e then (l.take (e + 1)).drop i else []
          rw [(List.findIdx?_eq_some_iff_findIdx_eq.1 hstop).2]
          split
          · rfl
          · refine List.drop_of_length_le ?_
            rw [List.length_take]
            omega

section

variable {i e : Nat} (hstart : l.findIdx? start = some i) (hstop : l.findIdx? stop = some e)
  (hle : i ≤ e)

include hstart hstop hle

theorem between_eq_drop_take : between start stop l = (l.take (e + 1)).drop i := by
  rw [between_eq_match, hstart, hstop]
  exact if_pos hle

/-- It begins where `start` is met first. -/
theorem head?_between : (between start stop l).head? = l[i]? := by
  rw [between_eq_drop_take hstart hstop hle, List.head?_drop, List.getElem?_take_of_lt (by omega)]

/-- It ends where `stop` is met first. -/
theorem getLast?_between : (between start stop l).getLast? = l[e]? := by
  obtain ⟨he, -⟩ := List.findIdx?_eq_some_iff_findIdx_eq.1 hstop
  rw [between_eq_drop_take hstart hstop hle, List.getLast?_drop, List.length_take,
    if_neg (by omega), List.getLast?_take, if_neg (by omega)]
  simp [he]

/-- `stop` is not met before the end. -/
theorem not_stop_of_mem_dropLast_between :
    ∀ a ∈ (between start stop l).dropLast, stop a = false := by
  intro a ha
  obtain ⟨he, -, hbefore⟩ := List.findIdx?_eq_some_iff_getElem.1 hstop
  rw [between_eq_drop_take hstart hstop hle, List.dropLast_eq_take] at ha
  obtain ⟨k, hk, rfl⟩ := List.mem_iff_getElem.1 ha
  simp only [List.length_take, List.length_drop] at hk
  simpa using hbefore (i + k) (by omega)

end

end Slice
