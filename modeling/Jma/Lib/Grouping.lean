import Mathlib.Data.List.AList
import Mathlib.Data.List.Induction
import Mathlib.Data.List.Nodup
import Mathlib.Tactic.Common

set_option autoImplicit false

/-! # Incremental grouping by a key

A stream of items is grouped one item at a time: `Grouping.insert` appends the item to the group of
its key, or opens a new group at the end. `Grouping.groups` says the same in one go, as the list of
keys in order of first arrival, each with its items in arrival order, and `groups_snoc` proves that
inserting keeps the two in step. Nothing here depends on what the items are. -/

namespace Grouping

universe u v

variable {α : Type u} {κ : Type v} [DecidableEq κ] (key : α → κ)

/-- Append `a` to the group of its key, or open a new last group for it. -/
def insert (a : α) : List (κ × List α) → List (κ × List α)
  | [] => [(key a, [a])]
  | (k, own) :: rest =>
      if key a = k then (k, own ++ [a]) :: rest else (k, own) :: insert a rest

/-- The items of `l` with key `k`, in order. -/
def own (k : κ) (l : List α) : List α := l.filter (fun a => key a = k)

/-- `l` grouped by key: keys in order of first arrival, items of a key in arrival order. -/
def groups (l : List α) : List (κ × List α) :=
  (l.map key).eraseDups.map (fun k => (k, own key k l))

@[simp] theorem groups_nil : groups key [] = [] := rfl

@[simp] theorem own_nil (k : κ) : own key k [] = [] := rfl

theorem own_append (k : κ) (l l' : List α) : own key k (l ++ l') = own key k l ++ own key k l' :=
  List.filter_append ..

theorem own_snoc_self (l : List α) (a : α) :
    own key (key a) (l ++ [a]) = own key (key a) l ++ [a] := by
  simp [own]

theorem own_snoc_of_ne {k : κ} (l : List α) {a : α} (h : key a ≠ k) :
    own key k (l ++ [a]) = own key k l := by
  simp [own, h]

theorem own_eq_nil_of_not_mem {k : κ} {l : List α} (h : k ∉ l.map key) : own key k l = [] := by
  rw [own, List.filter_eq_nil_iff]
  intro a ha hk
  exact h (List.mem_map.2 ⟨a, ha, of_decide_eq_true hk⟩)

/-- Keys of the grouped list: first arrivals, each once. -/
theorem map_fst_groups (l : List α) : (groups key l).map Prod.fst = (l.map key).eraseDups := by
  simp [groups, Function.comp_def]

theorem nodup_eraseDups (l : List κ) : l.eraseDups.Nodup := by
  induction l using List.reverseRecOn with
  | nil => simp
  | append_singleton l k ih =>
      rw [List.eraseDups_append]
      by_cases hk : k ∈ l
      · simpa [List.removeAll, hk] using ih
      · have hne : ∀ k' ∈ l, k' ≠ k := fun k' hk' he => hk (he ▸ hk')
        simpa [List.removeAll, hk, List.nodup_append, List.eraseDups_cons, ih] using hne

theorem nodup_keys (l : List α) : ((groups key l).map Prod.fst).Nodup := by
  rw [map_fst_groups]
  exact nodup_eraseDups _

/-- A group of the grouped list is never empty. -/
theorem own_ne_nil_of_mem {l : List α} {g : κ × List α} (hg : g ∈ groups key l) : g.2 ≠ [] := by
  obtain ⟨k, hk, rfl⟩ := List.mem_map.1 hg
  obtain ⟨a, ha, rfl⟩ := List.mem_map.1 (List.mem_eraseDups.1 hk)
  exact List.ne_nil_of_mem (List.mem_filter.2 ⟨ha, by simp⟩)

/-- Inserting into a list of groups given by a function of the key: the group of the key is
    extended in place when the key is present. -/
theorem insert_map_of_mem (a : α) (ks : List κ) (f : κ → List α) (hnod : ks.Nodup)
    (hmem : key a ∈ ks) :
    insert key a (ks.map (fun k => (k, f k)))
      = ks.map (fun k => (k, if key a = k then f k ++ [a] else f k)) := by
  induction ks with
  | nil => simp at hmem
  | cons k rest ih =>
      obtain ⟨hnotin, hnod'⟩ := List.nodup_cons.1 hnod
      simp only [List.map_cons, insert]
      by_cases hk : key a = k
      · have htail : rest.map (fun k' => (k', f k'))
            = rest.map (fun k' => (k', if key a = k' then f k' ++ [a] else f k')) := by
          refine List.map_congr_left (fun k' hk' => ?_)
          rw [if_neg (fun he : key a = k' => hnotin (hk.symm.trans he ▸ hk'))]
        rw [if_pos hk, if_pos hk, htail]
      · have hmem' : key a ∈ rest := (List.mem_cons.1 hmem).resolve_left hk
        rw [if_neg hk, if_neg hk, ih hnod' hmem']

/-- Inserting a key that has no group yet opens one at the end. -/
theorem insert_map_of_not_mem (a : α) (ks : List κ) (f : κ → List α) (hmem : key a ∉ ks) :
    insert key a (ks.map (fun k => (k, f k))) = ks.map (fun k => (k, f k)) ++ [(key a, [a])] := by
  induction ks with
  | nil => rfl
  | cons k rest ih =>
      rw [List.mem_cons, not_or] at hmem
      obtain ⟨hne, hrest⟩ := hmem
      simp only [List.map_cons, insert, if_neg hne, ih hrest, List.cons_append]

/-- **Incremental grouping is grouping.** Grouping one more item is inserting it. -/
theorem groups_snoc (l : List α) (a : α) :
    groups key (l ++ [a]) = insert key a (groups key l) := by
  have hkeys : ((l ++ [a]).map key).eraseDups
      = (l.map key).eraseDups ++ ([key a].removeAll (l.map key)).eraseDups := by
    rw [List.map_append, List.map_singleton, List.eraseDups_append]
  unfold groups
  rw [hkeys]
  by_cases ha : key a ∈ l.map key
  · have hrem : [key a].removeAll (l.map key) = [] := by simpa [List.removeAll] using ha
    rw [hrem, insert_map_of_mem key a _ _ (nodup_eraseDups _) (List.mem_eraseDups.2 ha)]
    simp only [List.eraseDups_nil, List.append_nil]
    refine List.map_congr_left (fun k _ => ?_)
    by_cases hk : key a = k
    · subst hk
      rw [if_pos rfl, own_snoc_self]
    · rw [if_neg hk, own_snoc_of_ne key l hk]
  · have hrem : [key a].removeAll (l.map key) = [key a] := by simpa [List.removeAll] using ha
    have hnot : key a ∉ (l.map key).eraseDups := fun h => ha (List.mem_eraseDups.1 h)
    rw [hrem, insert_map_of_not_mem key a _ _ hnot, List.map_append]
    have hself : own key (key a) (l ++ [a]) = [a] := by
      rw [own_snoc_self, own_eq_nil_of_not_mem key ha, List.nil_append]
    have hold : (l.map key).eraseDups.map (fun k => (k, own key k (l ++ [a])))
        = (l.map key).eraseDups.map (fun k => (k, own key k l)) := by
      refine List.map_congr_left (fun k hk => ?_)
      rw [own_snoc_of_ne key l (fun he => hnot (he ▸ hk))]
    rw [hold]
    simp [hself, List.eraseDups_cons]

/-- The group found under `k` holds exactly the items with that key. -/
theorem flatMap_own (k : κ) (l : List α) :
    ((groups key l).filter (fun g => g.1 = k)).flatMap Prod.snd = own key k l := by
  have hfilter : ∀ ks : List κ, ks.Nodup →
      ((ks.map (fun k' => (k', own key k' l))).filter (fun g => g.1 = k)).flatMap Prod.snd
        = if k ∈ ks then own key k l else [] := by
    intro ks hnod
    induction ks with
    | nil => rfl
    | cons k' rest ih =>
        obtain ⟨hnotin, hnod'⟩ := List.nodup_cons.1 hnod
        rw [List.map_cons, List.filter_cons]
        by_cases hk : k' = k
        · subst hk
          simp [ih hnod', hnotin]
        · simp [ih hnod', hk, Ne.symm hk]
  rw [groups, hfilter _ (nodup_eraseDups _)]
  split
  · rfl
  · next h => exact (own_eq_nil_of_not_mem key (fun hm => h (List.mem_eraseDups.2 hm))).symm

/-- The items of a group have its key. -/
theorem key_of_mem_own {l : List α} {g : κ × List α} (hg : g ∈ groups key l) {a : α}
    (ha : a ∈ g.2) : key a = g.1 := by
  obtain ⟨k, -, rfl⟩ := List.mem_map.1 hg
  exact of_decide_eq_true (List.mem_filter.1 ha).2

theorem flatMap_insert_perm (a : α) (gs : List (κ × List α)) :
    ((insert key a gs).flatMap Prod.snd).Perm (gs.flatMap Prod.snd ++ [a]) := by
  induction gs with
  | nil => exact List.Perm.refl _
  | cons g rest ih =>
      obtain ⟨k, own⟩ := g
      simp only [insert]
      split
      · simp only [List.flatMap_cons, List.append_assoc]
        exact List.perm_append_comm.append_left own
      · simp only [List.flatMap_cons, List.append_assoc]
        exact ih.append_left own

/-- Grouping only reorders. -/
theorem flatMap_groups_perm (l : List α) : ((groups key l).flatMap Prod.snd).Perm l := by
  induction l using List.reverseRecOn with
  | nil => exact List.Perm.refl _
  | append_singleton l a ih =>
      rw [groups_snoc]
      exact (flatMap_insert_perm key a _).trans (ih.append_right [a])

/-- Whatever is computed of each group, lists with the same keys and equal results for every key
    give the same results, up to the order of the groups. -/
theorem map_groups_perm {β : Type*} {l l' : List α} {f : κ × List α → β}
    (hkeys : (l.map key).Perm (l'.map key)) (h : ∀ k, f (k, own key k l) = f (k, own key k l')) :
    ((groups key l).map f).Perm ((groups key l').map f) := by
  have hdups : (l.map key).eraseDups.Perm (l'.map key).eraseDups := by
    rw [List.perm_ext_iff_of_nodup (nodup_eraseDups _) (nodup_eraseDups _)]
    intro k
    rw [List.mem_eraseDups, List.mem_eraseDups, hkeys.mem_iff]
  rw [groups, groups, List.map_map, List.map_map]
  have hcongr : (l.map key).eraseDups.map (f ∘ fun k => (k, own key k l))
      = (l.map key).eraseDups.map (f ∘ fun k => (k, own key k l')) :=
    List.map_congr_left (fun k _ => h k)
  rw [hcongr]
  exact hdups.map _

end Grouping
