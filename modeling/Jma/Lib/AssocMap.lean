import Mathlib.Data.List.AList
import Mathlib.Tactic.Common

set_option autoImplicit false

/-! # Association maps

A hash map is Mathlib's `AList`: a list of entries whose keys are distinct, in no order that a proof
may rely on. This file adds the update of every value at once, the reading of a single key out of a
pass over all entries, and what an insertion does to the items that all values hold together. -/

namespace AssocMap

universe u v w

variable {κ : Type u} {ν : Type v} [DecidableEq κ]

/-- Replace every value by `f` of its key and value. -/
def mapVals (f : κ → ν → ν) (m : AList fun _ : κ => ν) : AList fun _ : κ => ν :=
  ⟨m.entries.map (fun e => ⟨e.1, f e.1 e.2⟩), m.nodupKeys.map₂ f⟩

@[simp] theorem lookup_mapVals (f : κ → ν → ν) (m : AList fun _ : κ => ν) (k : κ) :
    (mapVals f m).lookup k = (m.lookup k).map (f k) :=
  List.dlookup_map₂ k

theorem mapVals_eq_self {f : κ → ν → ν} {m : AList fun _ : κ => ν}
    (h : ∀ k v, m.lookup k = some v → f k v = v) : mapVals f m = m := by
  refine AList.ext ?_
  calc m.entries.map (fun e => ⟨e.1, f e.1 e.2⟩)
      = m.entries.map id :=
        List.map_congr_left (fun e he => by rw [h e.1 e.2 (AList.mem_lookup_iff.2 he)]; rfl)
    _ = m.entries := List.map_id _

theorem mapVals_congr {f g : κ → ν → ν} {m : AList fun _ : κ => ν}
    (h : ∀ k v, m.lookup k = some v → f k v = g k v) : mapVals f m = mapVals g m :=
  AList.ext (List.map_congr_left (fun e he => by rw [h e.1 e.2 (AList.mem_lookup_iff.2 he)]))

omit [DecidableEq κ] in
theorem mapVals_mapVals (f g : κ → ν → ν) (m : AList fun _ : κ => ν) :
    mapVals f (mapVals g m) = mapVals (fun k v => f k (g k v)) m :=
  AList.ext List.map_map

/-- A pass over all entries that keeps one key finds the value the map holds for it, once. -/
theorem filterMap_entries {γ : Type w} (m : AList fun _ : κ => ν) (k : κ) (f : κ → ν → γ) :
    m.entries.filterMap (fun e => if e.1 = k then some (f e.1 e.2) else none)
      = ((m.lookup k).map (f k)).toList := by
  obtain ⟨entries, hnod⟩ := m
  simp only [AList.lookup]
  induction entries with
  | nil => rfl
  | cons e rest ih =>
      obtain ⟨k', v⟩ := e
      obtain ⟨hnotin, hnod'⟩ := List.nodupKeys_cons.1 hnod
      rw [List.filterMap_cons]
      by_cases hk : k' = k
      · subst hk
        have hrest : List.dlookup k' rest = none := List.dlookup_eq_none.2 hnotin
        have ih' := ih hnod'
        rw [hrest] at ih'
        simp [ih']
      · rw [if_neg hk, ih hnod', List.dlookup_cons_ne _ _ (fun he => hk he.symm)]

/-- A pass over the entries of `m` that updates for each the value of its own key: what the result
    holds for a key depends on what `m` holds for it, and on nothing else in `m`. -/
theorem lookup_foldl_insert {μ : Type w} (m : AList fun _ : κ => ν) (f : κ → ν → Option μ → μ)
    (b : AList fun _ : κ => μ) (k : κ) :
    (m.entries.foldl (fun b e => b.insert e.1 (f e.1 e.2 (b.lookup e.1))) b).lookup k
      = (m.lookup k).elim (b.lookup k) (fun v => some (f k v (b.lookup k))) := by
  obtain ⟨entries, hnod⟩ := m
  simp only [AList.lookup]
  induction entries generalizing b with
  | nil => rfl
  | cons e rest ih =>
      obtain ⟨k', v⟩ := e
      obtain ⟨hnotin, hnod'⟩ := List.nodupKeys_cons.1 hnod
      rw [List.foldl_cons, ih _ hnod']
      by_cases hk : k = k'
      · subst hk
        have hrest : List.dlookup k rest = none := List.dlookup_eq_none.2 hnotin
        rw [hrest, List.dlookup_cons_eq]
        exact AList.lookup_insert b
      · rw [List.dlookup_cons_ne _ _ hk]
        have hkept : (b.insert k' (f k' v (b.lookup k'))).lookup k = b.lookup k :=
          AList.lookup_insert_ne hk
        simp only [AList.lookup] at hkept
        rw [hkept]

/-- The items of all values, after the removal of one key. -/
theorem flatMap_kerase_perm {β : Type w} (entries : List (Σ _ : κ, ν)) (k : κ) (f : ν → List β) :
    ((List.dlookup k entries).elim [] f ++ (List.kerase k entries).flatMap (fun e => f e.2)).Perm
      (entries.flatMap (fun e => f e.2)) := by
  induction entries with
  | nil => exact List.Perm.refl _
  | cons e rest ih =>
      obtain ⟨k', v⟩ := e
      by_cases hk : k = k'
      · subst hk
        have herase : List.kerase k (⟨k, v⟩ :: rest) = rest := List.kerase_cons_eq rfl
        rw [List.dlookup_cons_eq, herase, List.flatMap_cons]
        exact List.Perm.refl _
      · have herase : List.kerase k (⟨k', v⟩ :: rest) = ⟨k', v⟩ :: List.kerase k rest :=
          List.kerase_cons_ne hk
        rw [List.dlookup_cons_ne _ _ hk, herase, List.flatMap_cons,
          List.flatMap_cons, ← List.append_assoc]
        refine (List.perm_append_comm.append_right _).trans ?_
        rw [List.append_assoc]
        exact ih.append_left (f v)

/-- An insertion adds the items of the new value, at the price of those of the value that it
    overwrites. -/
theorem flatMap_insert_perm {β : Type w} (m : AList fun _ : κ => ν) (k : κ) (v : ν)
    (f : ν → List β) :
    ((m.insert k v).entries.flatMap (fun e => f e.2) ++ (m.lookup k).elim [] f).Perm
      (m.entries.flatMap (fun e => f e.2) ++ f v) := by
  rw [AList.entries_insert, List.flatMap_cons, List.append_assoc]
  refine List.perm_append_comm.trans (List.Perm.append_right (f v) ?_)
  exact List.perm_append_comm.trans (flatMap_kerase_perm m.entries k f)

end AssocMap
