import Mathlib.Data.List.Infix
import Mathlib.Data.List.TakeWhile
import Mathlib.Tactic.Common

set_option autoImplicit false

/-! # The string operations of `java.lang.String` that the agent uses

Class names travel in two spellings, `java/lang/String` inside class files and `java.lang.String` in
reflection, and are compared with `startsWith` and `equalsIgnoreCase`. -/

namespace Jma

/-- `s.replaceAll(from, to)` for patterns that match one literal character. -/
def replaceAll (s : String) (before after : Char) : String :=
  String.ofList (s.toList.map (fun c => if c = before then after else c))

/-- `s.startsWith(pre)`. -/
def startsWith (s pre : String) : Bool := pre.toList.isPrefixOf s.toList

/-- `s.equalsIgnoreCase(t)`, character by character. `fold` is
    `Character.toLowerCase(Character.toUpperCase(c))`; no result depends on its table. -/
def equalsIgnoreCase (fold : Char → Char) (s t : String) : Bool :=
  s.toList.map fold == t.toList.map fold

/-- `s.substring(s.lastIndexOf(c) + 1)`: all of `s` where `c` does not occur. -/
def substringAfterLast (s : String) (c : Char) : String :=
  String.ofList (s.toList.reverse.takeWhile (fun x => x ≠ c)).reverse

theorem toList_replaceAll (s : String) (before after : Char) :
    (replaceAll s before after).toList
      = s.toList.map (fun c => if c = before then after else c) := by
  simp [replaceAll]

/-- Replacing a character that does not occur changes nothing. -/
theorem replaceAll_of_not_mem {s : String} {before after : Char} (h : before ∉ s.toList) :
    replaceAll s before after = s := by
  rw [replaceAll, List.map_congr_left (g := id), List.map_id, String.ofList_toList]
  intro c hc
  exact if_neg (fun he : c = before => h (he ▸ hc))

/-- Replacing there and back leaves what the way back alone would. -/
theorem replaceAll_replaceAll (s : String) (before after : Char) :
    replaceAll (replaceAll s before after) after before = replaceAll s after before := by
  rw [replaceAll, toList_replaceAll, List.map_map, replaceAll]
  congr 1
  refine List.map_congr_left (fun c _ => ?_)
  simp only [Function.comp_apply]
  by_cases hcb : c = before
  · rw [if_pos hcb, if_pos rfl, hcb, ite_self]
  · rw [if_neg hcb]

/-- Replacing back undoes a replacement by a character that did not occur. -/
theorem replaceAll_cancel {s : String} {before after : Char} (h : after ∉ s.toList) :
    replaceAll (replaceAll s before after) after before = s := by
  rw [replaceAll_replaceAll, replaceAll_of_not_mem h]

theorem not_mem_substringAfterLast (s : String) (c : Char) :
    c ∉ (substringAfterLast s c).toList := by
  intro h
  rw [substringAfterLast, String.toList_ofList, List.mem_reverse] at h
  simpa using List.mem_takeWhile_imp h

theorem substringAfterLast_of_not_mem {s : String} {c : Char} (h : c ∉ s.toList) :
    substringAfterLast s c = s := by
  have hall : s.toList.reverse.takeWhile (fun x => x ≠ c) = s.toList.reverse := by
    refine List.takeWhile_eq_self_iff.2 (fun x hx => ?_)
    rw [List.mem_reverse] at hx
    exact decide_eq_true (fun he => h (he ▸ hx))
  rw [substringAfterLast, hall, List.reverse_reverse, String.ofList_toList]

end Jma
