import Jma.Core.Blocks

set_option autoImplicit false

/-! # What `backup` keeps

Every roll files the chain of every thread in `backup`, under the thread's name and a reading of the
millisecond clock. Two rolls with the same reading use the same key, and the later chain takes the
place of the earlier one, even when it is empty. So `backup` keeps every rolled sample iff no roll
takes a reading at which an earlier one has filed samples: `backup_keeps_iff`. -/

namespace Jma

namespace TimeCostManager

variable (m : TimeCostManager) (t : String)

/-- The chains that `backup` holds for thread `t`, by clock reading. -/
def backupOf : AList fun _ : Int => TimeCostChain := (m.backup.lookup t).getD ∅

/-- The records that `backup` holds for thread `t`. -/
def archived : List TimeCostRecord := (m.backupOf t).entries.flatMap (fun e => e.2.recordList)

/-- The records that `backup` holds for thread `t` under one reading. -/
def filedAt (currentTimeMillis : Int) : List TimeCostRecord :=
  (((m.backupOf t).lookup currentTimeMillis).getD .empty).recordList

/-- A thread without a chain has nothing in `backup`. -/
def Chained : Prop := m.costMap.lookup t = none → m.backupOf t = ∅

/-! ## What one operation does to `backup` -/

@[simp] theorem backup_mergeRecord (key : String) (r : TimeCostRecord) :
    (m.mergeRecord key r).backup = m.backup := by
  unfold mergeRecord
  split <;> rfl

theorem backup_exec_of_not_roll {e : Event} (h : e.operation.isRoll = false) :
    (m.exec e).1.backup = m.backup := by
  obtain ⟨u, op⟩ := e
  cases op with
  | canRecord b => rfl
  | mergeRecord s => exact backup_mergeRecord m u s.toRecord
  | printAndRolling clock => cases h

variable {m t}

/-- A roll files the chain of a thread, if it has one. -/
theorem backupOf_printAndRolling (u : String) (clock : String → Int) :
    (m.printAndRolling u clock).1.backupOf t
      = (m.costMap.lookup t).elim (m.backupOf t)
          (fun chain => (m.backupOf t).insert (clock t) chain) := by
  have hlookup := AssocMap.lookup_foldl_insert m.costMap
    (fun key chain old => (old.getD ∅).insert (clock key) chain) m.backup t
  show ((m.costMap.entries.foldl
    (fun backup e => archive backup e.1 (clock e.1) e.2) m.backup).lookup t).getD ∅ = _
  unfold archive
  rw [hlookup]
  cases m.costMap.lookup t <;> rfl

/-- No operation takes a chain away. -/
theorem Chained.exec (h : m.Chained t) (e : Event) : (m.exec e).1.Chained t := by
  obtain ⟨u, op⟩ := e
  intro hnone
  cases op with
  | canRecord b => exact h hnone
  | mergeRecord s =>
      have hold : m.costMap.lookup t = none := by
        have hnone' : (m.mergeRecord u s.toRecord).costMap.lookup t = none := hnone
        unfold mergeRecord at hnone'
        split at hnone'
        · exact hnone'
        · exact (AList.lookup_insert_eq_none.1 hnone').2
      show (((m.mergeRecord u s.toRecord).backup).lookup t).getD ∅ = ∅
      rw [backup_mergeRecord]
      exact h hold
  | printAndRolling clock =>
      have hold : m.costMap.lookup t = none := by
        have hnone' : (AssocMap.mapVals (fun _ _ => .empty) m.costMap).lookup t = none := hnone
        rwa [AssocMap.lookup_mapVals, Option.map_eq_none_iff] at hnone'
      show (m.printAndRolling u clock).1.backupOf t = ∅
      rw [backupOf_printAndRolling, hold]
      exact h hold

section

variable (h : m.Chained t) (u : String) (clock : String → Int)

include h

/-- A roll leaves under its reading what was pending, whatever was there before. -/
theorem filedAt_printAndRolling (currentTimeMillis : Int) :
    (m.printAndRolling u clock).1.filedAt t currentTimeMillis
      = if currentTimeMillis = clock t then m.pending t else m.filedAt t currentTimeMillis := by
  rw [filedAt, backupOf_printAndRolling, filedAt, pending]
  cases hchain : m.costMap.lookup t with
  | none =>
      rw [h hchain]
      exact (ite_self _).symm
  | some chain =>
      show ((((m.backupOf t).insert (clock t) chain).lookup currentTimeMillis).getD
        .empty).recordList = _
      by_cases hc : currentTimeMillis = clock t
      · rw [if_pos hc, hc, AList.lookup_insert]
      · rw [if_neg hc, AList.lookup_insert_ne hc]

/-- A roll adds to `backup` what was pending and drops what it finds under its reading. -/
theorem archived_printAndRolling_perm :
    ((m.printAndRolling u clock).1.archived t ++ m.filedAt t (clock t)).Perm
      (m.archived t ++ m.pending t) := by
  rw [archived, backupOf_printAndRolling, filedAt, archived, pending]
  cases hchain : m.costMap.lookup t with
  | none =>
      rw [h hchain]
      exact List.Perm.refl _
  | some chain =>
      have hinsert := AssocMap.flatMap_insert_perm (m.backupOf t) (clock t) chain
        TimeCostChain.recordList
      cases hold : (m.backupOf t).lookup (clock t) with
      | none =>
          rw [hold] at hinsert
          exact hinsert
      | some old =>
          rw [hold] at hinsert
          exact hinsert

end

end TimeCostManager

open TimeCostManager

/-! ## When readings are fresh -/

/-- A roll of `es` has filed samples of `t` under the reading `currentTimeMillis`. -/
def RolledAt (t : String) (currentTimeMillis : Int) (es : List Event) : Prop :=
  ∃ p e q, es = p ++ e :: q ∧
    ∃ clock, e.operation = .printAndRolling clock ∧ clock t = currentTimeMillis ∧ Unrolled t p

/-- No roll takes for `t` a reading under which an earlier one has filed samples of `t`. -/
def FreshReadings (t : String) (es : List Event) : Prop :=
  ∀ p e q, es = p ++ e :: q →
    ∀ clock, e.operation = .printAndRolling clock → ¬RolledAt t (clock t) p

section

variable {t : String} {es : List Event}

theorem rolledAt_snoc_of_not_roll {e : Event} (h : e.operation.isRoll = false) (c : Int) :
    RolledAt t c (es ++ [e]) ↔ RolledAt t c es := by
  refine Trace.exists_split_snoc.trans (or_iff_left ?_)
  intro ⟨clock, hop, _⟩
  rw [hop] at h
  cases h

theorem rolledAt_snoc_roll (u : String) (clock : String → Int) (c : Int) :
    RolledAt t c (es ++ [⟨u, .printAndRolling clock⟩]) ↔
      RolledAt t c es ∨ (clock t = c ∧ Unrolled t es) := by
  refine Trace.exists_split_snoc.trans (or_congr_right ⟨?_, fun h => ⟨clock, rfl, h⟩⟩)
  intro ⟨clock', hop, h⟩
  cases hop
  exact h

theorem freshReadings_snoc_of_not_roll {e : Event} (h : e.operation.isRoll = false) :
    FreshReadings t (es ++ [e]) ↔ FreshReadings t es := by
  refine Trace.forall_split_snoc.trans (and_iff_left ?_)
  intro clock hop
  rw [hop] at h
  cases h

theorem freshReadings_snoc_roll (u : String) (clock : String → Int) :
    FreshReadings t (es ++ [⟨u, .printAndRolling clock⟩]) ↔
      FreshReadings t es ∧ ¬RolledAt t (clock t) es := by
  refine Trace.forall_split_snoc.trans (and_congr_right (fun _ => ⟨fun h => h clock rfl, ?_⟩))
  intro h clock' hop
  cases hop
  exact h

end

/-! ## The account of a run -/

/-- After the run of `es`, `lost` are the samples of `t` that rolls have overwritten in `backup`. -/
structure BackupAccount (t : String) (es : List Event)
    (lost : List (MethodIdentifier × CostPair)) : Prop where
  chained : (initial.run es).1.Chained t
  /-- What has been rolled is filed or lost. -/
  perm : (samplesIn ((initial.run es).1.archived t) ++ lost).Perm
    ((logOf t es).rolled.flatten.map Sample.shown)
  fresh : lost = [] ↔ FreshReadings t es
  /-- While nothing is lost, a reading holds samples iff a roll has filed some under it. -/
  filed : lost = [] → ∀ c, samplesIn ((initial.run es).1.filedAt t c) = [] ↔ ¬RolledAt t c es

/-- The samples pending for a thread are its current piece. -/
theorem samplesIn_pending_perm (t : String) (es : List Event) :
    (samplesIn ((initial.run es).1.pending t)).Perm ((logOf t es).current.map Sample.shown) := by
  rw [pending_run]
  exact samplesIn_groupByMethod_perm _

theorem samplesIn_pending_eq_nil_iff (t : String) (es : List Event) :
    samplesIn ((initial.run es).1.pending t) = [] ↔ ¬Unrolled t es := by
  rw [← current_ne_nil_iff_unrolled, not_not, ← List.map_eq_nil_iff (f := Sample.shown)]
  have hperm := samplesIn_pending_perm t es
  exact ⟨fun h => (h ▸ hperm).symm.eq_nil, fun h => (h ▸ hperm).eq_nil⟩

theorem samplesIn_append (records records' : List TimeCostRecord) :
    samplesIn (records ++ records') = samplesIn records ++ samplesIn records' :=
  List.flatMap_append

/-- The balance of a roll: what was pending comes in, what is overwritten goes out. -/
theorem perm_of_exchange {α : Type*} {kept kept' dropped added lost rolled current : List α}
    (hexchange : (kept' ++ dropped).Perm (kept ++ added)) (hkept : (kept ++ lost).Perm rolled)
    (hadded : added.Perm current) : (kept' ++ (lost ++ dropped)).Perm (rolled ++ current) := by
  have hlast : (kept' ++ (lost ++ dropped)).Perm (kept' ++ dropped ++ lost) := by
    rw [List.append_assoc]
    exact List.perm_append_comm.append_left kept'
  have hswap : (kept ++ added ++ lost).Perm (kept ++ lost ++ added) := by
    rw [List.append_assoc, List.append_assoc]
    exact List.perm_append_comm.append_left kept
  exact ((hlast.trans (hexchange.append_right lost)).trans hswap).trans (hkept.append hadded)

section

variable {t : String} {es : List Event} {lost : List (MethodIdentifier × CostPair)}

theorem BackupAccount.snoc_of_not_roll (h : BackupAccount t es lost) {e : Event}
    (he : e.operation.isRoll = false) : BackupAccount t (es ++ [e]) lost := by
  have hrun : (initial.run (es ++ [e])).1 = ((initial.run es).1.exec e).1 := by
    rw [run_append]
    rfl
  have hbackup := backup_exec_of_not_roll (initial.run es).1 he
  have hof : ((initial.run es).1.exec e).1.backupOf t = (initial.run es).1.backupOf t := by
    rw [backupOf, hbackup]
    rfl
  have hrolled : (logOf t (es ++ [e])).rolled = (logOf t es).rolled := by
    obtain ⟨u, op⟩ := e
    rw [logOf_snoc]
    cases op with
    | canRecord b => rfl
    | mergeRecord s =>
        simp only [SampleLog.step]
        split <;> rfl
    | printAndRolling clock => cases he
  refine ⟨hrun ▸ h.chained.exec e, ?_, ?_, fun hlost c => ?_⟩
  · rw [hrun, hrolled, archived, hof]
    exact h.perm
  · rw [freshReadings_snoc_of_not_roll he]
    exact h.fresh
  · rw [hrun, filedAt, hof, rolledAt_snoc_of_not_roll he]
    exact h.filed hlost c

/-- A roll loses what it finds under its own reading. -/
theorem BackupAccount.snoc_roll (h : BackupAccount t es lost) (u : String)
    (clock : String → Int) : BackupAccount t (es ++ [⟨u, .printAndRolling clock⟩])
      (lost ++ samplesIn ((initial.run es).1.filedAt t (clock t))) := by
  set m := (initial.run es).1 with hm
  have hrun : (initial.run (es ++ [⟨u, .printAndRolling clock⟩])).1
      = (m.printAndRolling u clock).1 := by
    rw [run_append]
    rfl
  have hrolled : (logOf t (es ++ [⟨u, .printAndRolling clock⟩])).rolled.flatten
      = (logOf t es).rolled.flatten ++ (logOf t es).current := by
    rw [logOf_snoc]
    simp [SampleLog.step]
  refine ⟨hrun ▸ h.chained.exec ⟨u, .printAndRolling clock⟩, ?_, ?_, fun hlost c => ?_⟩
  · have hroll : (samplesIn ((m.printAndRolling u clock).1.archived t)
          ++ samplesIn (m.filedAt t (clock t))).Perm
        (samplesIn (m.archived t) ++ samplesIn (m.pending t)) := by
      rw [← samplesIn_append, ← samplesIn_append]
      exact (archived_printAndRolling_perm h.chained u clock).flatMap_right _
    rw [hrun, hrolled, List.map_append]
    exact perm_of_exchange hroll h.perm (samplesIn_pending_perm t es)
  · rw [freshReadings_snoc_roll, List.append_eq_nil_iff, ← h.fresh]
    exact and_congr_right (fun hlost => h.filed hlost _)
  · obtain ⟨hlost, hfiled⟩ := List.append_eq_nil_iff.1 hlost
    have hfresh := (h.filed hlost _).1 hfiled
    rw [hrun, filedAt_printAndRolling h.chained, rolledAt_snoc_roll, not_or, not_and]
    by_cases hc : c = clock t
    · subst hc
      rw [if_pos rfl, samplesIn_pending_eq_nil_iff]
      exact ⟨fun hnone => ⟨hfresh, fun _ => hnone⟩, fun hnone => hnone.2 rfl⟩
    · rw [if_neg hc, h.filed hlost]
      exact (and_iff_left (fun heq => absurd heq.symm hc)).symm

end

theorem exists_account (t : String) (es : List Event) : ∃ lost, BackupAccount t es lost := by
  induction es using List.reverseRecOn with
  | nil =>
      refine ⟨[], fun _ => rfl, List.Perm.refl _, iff_of_true rfl ?_, fun _ c => ?_⟩
      · intro p e q hsplit
        simp at hsplit
      · refine iff_of_true rfl ?_
        intro ⟨p, e, q, hsplit, _⟩
        simp at hsplit
  | append_singleton es e ih =>
      obtain ⟨lost, h⟩ := ih
      obtain ⟨u, op⟩ := e
      cases op with
      | canRecord b => exact ⟨lost, h.snoc_of_not_roll rfl⟩
      | mergeRecord s => exact ⟨lost, h.snoc_of_not_roll rfl⟩
      | printAndRolling clock => exact ⟨_, h.snoc_roll u clock⟩

/-- **When `backup` keeps every rolled sample.** After any run, what `backup` holds for a thread and
    what is pending for it are exactly the samples accepted for it, each once, iff no roll took for
    the thread a reading under which an earlier one had filed samples. -/
theorem backup_keeps_iff (es : List Event) (t : String) :
    (samplesIn ((initial.run es).1.archived t) ++ samplesIn ((initial.run es).1.pending t)).Perm
        ((accepted t false es).map Sample.shown) ↔ FreshReadings t es := by
  obtain ⟨lost, h⟩ := exists_account t es
  have hcut : (logOf t es).rolled.flatten ++ (logOf t es).current = accepted t false es :=
    SampleLog.flatten_run t es .initial
  have hpending := samplesIn_pending_perm t es
  rw [← h.fresh, ← hcut, List.map_append]
  refine ⟨fun hkeeps => ?_, fun hlost => ?_⟩
  · have hall := hkeeps.length_eq
    have hrolled := h.perm.length_eq
    have hcurrent := hpending.length_eq
    simp only [List.length_append] at hall hrolled
    exact List.eq_nil_of_length_eq_zero (by omega)
  · have hrolled := h.perm
    rw [hlost, List.append_nil] at hrolled
    exact hrolled.append hpending

/-! ### Readings in order -/

/-- The readings of a roll and of a later one are in relation `r`. -/
def ReadingsInOrder (r : Int → Int → Prop) (es : List Event) : Prop :=
  es.Pairwise (fun e e' => ∀ clock clock', e.operation = .printAndRolling clock →
    e'.operation = .printAndRolling clock' → ∀ t t', r (clock t) (clock' t'))

/-- A clock that advances between any two rolls gives fresh readings. -/
theorem freshReadings_of_lt {es : List Event} (h : ReadingsInOrder (· < ·) es) (t : String) :
    FreshReadings t es := by
  intro p e q hsplit clock hop hrolled
  obtain ⟨p', e', q', rfl, clock', hop', hsame, -⟩ := hrolled
  subst hsplit
  have hlater := (List.pairwise_append.1 h).2.2 e' (by simp) e (by simp) clock' clock hop' hop t t
  omega

section SameMillisecond

/-- An entry call of `thread` that begins and ends at `millis`. -/
def instantCall (thread : String) (millis : Int) : List Event :=
  [⟨thread, .canRecord true⟩,
   ⟨thread, .mergeRecord ⟨⟨"p.A", "run", "()V"⟩, [], ⟨millis, millis⟩⟩⟩,
   ⟨thread, .printAndRolling (fun _ => millis)⟩]

/-- A clock that merely does not go back is not enough: two threads end an entry call in the same
    millisecond, and the second roll files the empty chain of the first thread over its sample. -/
theorem same_millisecond_loses :
    ReadingsInOrder (· ≤ ·) (instantCall "main" 5 ++ instantCall "worker" 5) ∧
      ¬(samplesIn ((initial.run (instantCall "main" 5 ++ instantCall "worker" 5)).1.archived "main")
          ++ samplesIn
            ((initial.run (instantCall "main" 5 ++ instantCall "worker" 5)).1.pending "main")).Perm
        ((accepted "main" false (instantCall "main" 5 ++ instantCall "worker" 5)).map
          Sample.shown) := by
  refine ⟨?_, by decide⟩
  simp [ReadingsInOrder, instantCall]

end SameMillisecond

end Jma
