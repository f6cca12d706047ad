import Jma.Attach.Sessions
import Mathlib.Tactic.IntervalCases

set_option autoImplicit false

/-! # Is everything cleaned up in the end?

A session's clean-up works on whatever `GlobalConfig` holds at that moment. `Orderly` says which
steps keep sessions apart, and `clean_of_orderly` that after a run of such steps nothing is left
when all sessions are over. -/

namespace Jma

variable {T : Target}

/-! ## What retransformation can install -/

/-- The bytes that some class was defined with. -/
def Original (T : Target) (bytes : Bytes) : Prop := ∃ c ∈ T.loaded, bytes = c.bytes

/-- Only original bytes are saved. -/
def SavedOriginal (T : Target) (tcts : Nat → TimeCostTransformer) : Prop :=
  ∀ t className bytes, (tcts t).originalClassBytesMap.lookup className = some bytes →
    Original T bytes

theorem Original.not_advised {bytes : Bytes} (h : Original T bytes) : T.advised bytes = false := by
  obtain ⟨c, hc, rfl⟩ := h
  exact T.original c hc

namespace Jvm

theorem timeCostsIn_timeCost (inst t : Nat) (rest : List (Nat × Transformer)) :
    timeCostsIn ((inst, .timeCost t) :: rest) = (inst, t) :: timeCostsIn rest := rfl

theorem timeCostsIn_reset (inst k : Nat) (tct : Option Nat) (rest : List (Nat × Transformer)) :
    timeCostsIn ((inst, .reset k tct) :: rest) = timeCostsIn rest := rfl

/-- A `ResetTransformer` hands out original bytes. -/
theorem original_reset {c : LoadedClass} {tcts : Nat → TimeCostTransformer} {buffer : Bytes}
    (hsaved : SavedOriginal T tcts) (hbuffer : Original T buffer) (k : Nat) (tct : Option Nat) :
    Original T (runTransformer T.weave c tcts buffer (.reset k tct)).1 := by
  cases tct with
  | none => exact hbuffer
  | some t =>
      rw [show runTransformer T.weave c tcts buffer (.reset k (some t))
        = (((tcts t).originalClassBytesMap.lookup c.className).getD buffer, tcts) from rfl]
      cases hlookup : (tcts t).originalClassBytesMap.lookup c.className with
      | none => exact hbuffer
      | some bytes => exact hsaved t _ _ hlookup

theorem runTransformer_reset_snd {c : LoadedClass} {tcts : Nat → TimeCostTransformer}
    {buffer : Bytes} (k : Nat) (tct : Option Nat) :
    (runTransformer T.weave c tcts buffer (.reset k tct)).2 = tcts := by
  cases tct <;> rfl

/-- Without a `TimeCostTransformer` original bytes stay original, and no object changes. -/
theorem runTransformers_resets {c : LoadedClass} {registered : List (Nat × Transformer)}
    {tcts : Nat → TimeCostTransformer} {buffer : Bytes} (h : timeCostsIn registered = [])
    (hsaved : SavedOriginal T tcts) :
    (runTransformers T.weave c registered tcts buffer).2 = tcts ∧
      (Original T buffer → Original T (runTransformers T.weave c registered tcts buffer).1) := by
  induction registered generalizing buffer with
  | nil => exact ⟨rfl, id⟩
  | cons r rest ih =>
      obtain ⟨inst, t⟩ := r
      cases t with
      | timeCost t => cases h
      | reset k tct =>
          rw [timeCostsIn_reset] at h
          rw [runTransformers, runTransformer_reset_snd]
          exact ⟨(ih h).1, fun hbuffer => (ih h).2 (original_reset hsaved hbuffer k tct)⟩

/-- One `TimeCostTransformer` saves the buffer it is given. -/
theorem savedOriginal_transform {tcts : Nat → TimeCostTransformer} (hsaved : SavedOriginal T tcts)
    (c : LoadedClass) (t : Nat) {buffer : Bytes} (hbuffer : Original T buffer) :
    SavedOriginal T
      (Function.update tcts t ((tcts t).transform T.weave c buffer).2) := by
  intro t' className bytes hlookup
  by_cases ht : t' = t
  · subst ht
    rw [Function.update_self, TimeCostTransformer.transform_eq] at hlookup
    dsimp only at hlookup
    split at hlookup
    · by_cases hname : className = c.className
      · subst hname
        rw [AList.lookup_insert, Option.some.injEq] at hlookup
        exact hlookup ▸ hbuffer
      · rw [AList.lookup_insert_ne hname] at hlookup
        exact hsaved t' className bytes hlookup
    · exact hsaved t' className bytes hlookup
  · rw [Function.update_of_ne ht] at hlookup
    exact hsaved t' className bytes hlookup

/-- With one `TimeCostTransformer` at most, only original bytes are saved. -/
theorem savedOriginal_runTransformers {c : LoadedClass} {registered : List (Nat × Transformer)}
    {tcts : Nat → TimeCostTransformer} {buffer : Bytes}
    (h : (timeCostsIn registered).length ≤ 1) (hsaved : SavedOriginal T tcts)
    (hbuffer : Original T buffer) :
    SavedOriginal T (runTransformers T.weave c registered tcts buffer).2 := by
  induction registered generalizing buffer with
  | nil => exact hsaved
  | cons r rest ih =>
      obtain ⟨inst, t⟩ := r
      cases t with
      | timeCost t =>
          rw [timeCostsIn_timeCost, List.length_cons] at h
          have hrest : timeCostsIn rest = [] := List.eq_nil_of_length_eq_zero (by omega)
          have hnext := savedOriginal_transform hsaved c t hbuffer
          simp only [runTransformers, runTransformer]
          rw [(runTransformers_resets hrest hnext).1]
          exact hnext
      | reset k tct =>
          rw [timeCostsIn_reset] at h
          rw [runTransformers, runTransformer_reset_snd]
          exact ih h (original_reset hsaved hbuffer k tct)

theorem savedOriginal_retransformClasses {jvm : Jvm} (h : (timeCostsIn jvm.registered).length ≤ 1)
    (hsaved : SavedOriginal T jvm.tcts) {classes : List LoadedClass} (hsub : classes ⊆ T.loaded) :
    SavedOriginal T (jvm.retransformClasses T.weave classes).tcts := by
  induction classes generalizing jvm with
  | nil => exact hsaved
  | cons c rest ih =>
      obtain ⟨hc, hrest⟩ := List.cons_subset.1 hsub
      have hnext : SavedOriginal T (jvm.retransformClass T.weave c).tcts :=
        savedOriginal_runTransformers h hsaved ⟨c, hc, rfl⟩
      have hreg : (timeCostsIn (jvm.retransformClass T.weave c).registered).length ≤ 1 := h
      exact ih hreg hnext hrest

/-- Without a `TimeCostTransformer` every retransformed class gets original bytes. -/
theorem original_retransformClasses {jvm : Jvm} (h : timeCostsIn jvm.registered = [])
    (hsaved : SavedOriginal T jvm.tcts) {classes : List LoadedClass} (hsub : classes ⊆ T.loaded)
    {c : LoadedClass} (hc : c ∈ classes) :
    Original T ((jvm.retransformClasses T.weave classes).installed c) := by
  induction classes using List.reverseRecOn with
  | nil => exact absurd hc List.not_mem_nil
  | append_singleton classes d ih =>
      have hclasses : classes ⊆ T.loaded := fun x hx => hsub (List.mem_append_left _ hx)
      have hd : d ∈ T.loaded := hsub (List.mem_append_right _ (List.mem_singleton_self d))
      have hsaved' := savedOriginal_retransformClasses (by rw [h]; exact Nat.zero_le 1) hsaved
        hclasses
      rw [retransformClasses_snoc, retransformClass]
      by_cases hcd : c = d
      · subst hcd
        dsimp only
        rw [Function.update_self]
        exact (runTransformers_resets
          ((registered_retransformClasses T.weave jvm classes).symm ▸ h) hsaved').2 ⟨c, hd, rfl⟩
      · rw [List.mem_append, List.mem_singleton] at hc
        dsimp only
        rw [Function.update_of_ne hcd]
        exact ih hclasses (hc.resolve_right hcd)

/-- Retransformation without a `TimeCostTransformer` instruments nothing. -/
theorem Clean.retransformClasses {jvm : Jvm} (h : jvm.Clean T) (hsaved : SavedOriginal T jvm.tcts)
    {classes : List LoadedClass} (hsub : classes ⊆ T.loaded) :
    (jvm.retransformClasses T.weave classes).Clean T := by
  refine ⟨(registered_retransformClasses T.weave jvm classes).symm ▸ h.timeCosts, fun c hc => ?_⟩
  by_cases hmem : c ∈ classes
  · exact (original_retransformClasses h.timeCosts hsaved hsub hmem).not_advised
  · rw [installed_retransformClasses_of_not_mem T.weave jvm hmem]
    exact h.installed c hc

theorem timeCostsIn_append (l l' : List (Nat × Transformer)) :
    timeCostsIn (l ++ l') = timeCostsIn l ++ timeCostsIn l' := List.filterMap_append

theorem timeCostsIn_removeTransformer (jvm : Jvm) (inst t : Nat) :
    timeCostsIn (jvm.removeTransformer inst (.timeCost t)).registered
      = (timeCostsIn jvm.registered).filter (fun r => r ≠ (inst, t)) := by
  unfold removeTransformer
  dsimp only
  induction jvm.registered with
  | nil => rfl
  | cons r rest ih =>
      obtain ⟨inst', t'⟩ := r
      cases t' with
      | reset k tct => simpa [List.filter_cons, timeCostsIn_reset] using ih
      | timeCost t' =>
          by_cases hr : inst' = inst ∧ t' = t
          · simpa [List.filter_cons, timeCostsIn_timeCost, hr] using ih
          · simpa [List.filter_cons, timeCostsIn_timeCost, hr] using ih

theorem timeCostsIn_removeReset (jvm : Jvm) (inst k : Nat) (tct : Option Nat) :
    timeCostsIn (jvm.removeTransformer inst (.reset k tct)).registered
      = timeCostsIn jvm.registered := by
  unfold removeTransformer
  dsimp only
  induction jvm.registered with
  | nil => rfl
  | cons r rest ih =>
      obtain ⟨inst', t'⟩ := r
      cases t' with
      | timeCost t => simpa [List.filter_cons, timeCostsIn_timeCost] using ih
      | reset k' tct' =>
          rw [timeCostsIn_reset, ← ih, List.filter_cons]
          split <;> rfl

end Jvm

/-! ## Orderly steps -/

namespace AgentPc

/-- The call has begun to publish and has not registered yet. -/
def Publishing : AgentPc → Prop
  | .setInstrument _ => True
  | .setTransClassSet _ => True
  | .addTransformer _ => True
  | _ => False

/-- The call has begun to publish and has not retransformed yet. -/
def InWindow : AgentPc → Prop
  | .retransform _ => True
  | pc => pc.Publishing

/-- The local class set of the call, once it has one. -/
def classSet : AgentPc → Option (List LoadedClass)
  | .setTimeCostTransformer classSet => some classSet
  | .setInstrument classSet => some classSet
  | .setTransClassSet classSet => some classSet
  | .addTransformer classSet => some classSet
  | .retransform classSet => some classSet
  | _ => none

theorem Publishing.inWindow {pc : AgentPc} (h : pc.Publishing) : pc.InWindow := by
  cases pc <;> trivial

end AgentPc

/-- A step that keeps sessions apart. A call of `agentmain` begins to publish only when the JVM is
    clean, no other call is between publishing and retransforming, and its own heartbeat thread is
    beating; and that thread's beat does not fail until the call has registered its transformer. -/
def Orderly (T : Target) (w : World) : Action → Prop
  | .agent i => ∀ classSet, w.agent i = .setTimeCostTransformer classSet →
      w.jvm.Clean T ∧ (∀ j, ¬(w.agent j).InWindow) ∧ w.heartbeat i = .beating
  | .beat i none => ¬(w.agent i).Publishing
  | _ => True

/-! ## The invariant -/

/-- `GlobalConfig` holds what session `i` has published. -/
structure Published (T : Target) (cfg : GlobalConfig) (i : Nat) (classSet : List LoadedClass) :
    Prop where
  tct : cfg.tct = some i
  inst : cfg.inst = some (T.env i).inst
  classSet : cfg.finalClassSet = some classSet

/-- How much of it has been published when the call is at `pc`. -/
def PublishedUpTo (T : Target) (cfg : GlobalConfig) (i : Nat) : AgentPc → Prop
  | .setInstrument _ => cfg.tct = some i
  | .setTransClassSet _ => cfg.tct = some i ∧ cfg.inst = some (T.env i).inst
  | .addTransformer classSet => Published T cfg i classSet
  | .retransform classSet => Published T cfg i classSet
  | _ => True

/-- The heartbeat thread of session `i` will still remove the transformer of that session. -/
def WillRemove (T : Target) (i : Nat) : HeartbeatPc → Prop
  | .beating => True
  | .getInstrument => True
  | .getTimeCostTransformer inst => inst = (T.env i).inst
  | .removeTransformer inst tct => inst = (T.env i).inst ∧ tct = some i
  | _ => False

/-- A heartbeat thread will still retransform the class set. -/
def WillRestore : HeartbeatPc → Prop
  | .beating => True
  | .getInstrument => True
  | .getTimeCostTransformer _ => True
  | .removeTransformer _ _ => True
  | .getFinalClassSet _ _ => True
  | .addReset _ _ => True
  | .retransform _ _ => True
  | _ => False

theorem WillRemove.willRestore {i : Nat} {pc : HeartbeatPc} (h : WillRemove T i pc) :
    WillRestore pc := by
  cases pc <;> trivial

/-- What holds in every state of an orderly run: a registered transformer, and every instrumented
    class, belongs to the session that `GlobalConfig` describes, whose heartbeat thread has yet to
    clean up. -/
structure Inv (T : Target) (w : World) : Prop where
  saved : SavedOriginal T w.jvm.tcts
  classSet : ∀ classSet, w.config.finalClassSet = some classSet → classSet ⊆ T.loaded
  localSet : ∀ i classSet, (w.agent i).classSet = some classSet → classSet ⊆ T.loaded
  one : ∀ i j, (w.agent i).InWindow → (w.agent j).InWindow → i = j
  publishing : ∀ i, (w.agent i).Publishing → w.jvm.Clean T ∧ w.heartbeat i = .beating
  published : ∀ i, PublishedUpTo T w.config i (w.agent i)
  registered : timeCostsIn w.jvm.registered = [] ∨
    ∃ i classSet, timeCostsIn w.jvm.registered = [((T.env i).inst, i)] ∧
      Published T w.config i classSet ∧ WillRemove T i (w.heartbeat i)
  advised : ∀ c ∈ T.loaded, T.advised (w.jvm.installed c) = true →
    ∃ i classSet, Published T w.config i classSet ∧ c ∈ classSet ∧ WillRestore (w.heartbeat i)

/-- Outside the window nothing need be published. -/
theorem PublishedUpTo.of_not_inWindow {cfg : GlobalConfig} {i : Nat} {pc : AgentPc}
    (h : ¬pc.InWindow) : PublishedUpTo T cfg i pc := by
  cases pc <;> first | trivial | exact absurd trivial h

theorem Published.unique {cfg : GlobalConfig} {i j : Nat} {S S' : List LoadedClass}
    (h : Published T cfg i S) (h' : Published T cfg j S') : i = j ∧ S = S' :=
  ⟨Option.some.inj (h.tct.symm.trans h'.tct), Option.some.inj (h.classSet.symm.trans h'.classSet)⟩

namespace Inv

variable {w : World}

theorem length_le_one (h : Inv T w) : (timeCostsIn w.jvm.registered).length ≤ 1 := by
  rcases h.registered with hnil | ⟨i, S, hone, -⟩
  · rw [hnil]
    exact Nat.zero_le 1
  · rw [hone]
    exact Nat.le_refl 1

theorem initial : Inv T .initial where
  saved := by
    intro t className bytes hlookup
    cases hlookup
  classSet := by
    intro S hS
    cases hS
  localSet := by
    intro i S hS
    cases hS
  one := by
    intro i j hi
    cases hi
  publishing := by
    intro i hi
    cases hi
  published := fun _ => trivial
  registered := Or.inl rfl
  advised := by
    intro c hc hadv
    rw [show World.initial.jvm.installed c = c.bytes from rfl, T.original c hc] at hadv
    cases hadv

theorem localSet_update (h : Inv T w) {i : Nat} {pc : AgentPc}
    (hlocal : ∀ S, pc.classSet = some S → S ⊆ T.loaded) :
    ∀ j S, (Function.update w.agent i pc j).classSet = some S → S ⊆ T.loaded :=
  (Function.forall_update_iff w.agent
    (fun _ pc => ∀ S, AgentPc.classSet pc = some S → S ⊆ T.loaded)).2
      ⟨hlocal, fun j _ => h.localSet j⟩

/-- When no other call is in the window, only the call that moves can be there. -/
theorem eq_of_inWindow {i : Nat} {pc : AgentPc} (honly : ∀ j, j ≠ i → ¬(w.agent j).InWindow) :
    ∀ j, (Function.update w.agent i pc j).InWindow → j = i :=
  (Function.forall_update_iff w.agent (fun j pc => AgentPc.InWindow pc → j = i)).2
    ⟨fun _ => rfl, fun j hji hj => absurd hj (honly j hji)⟩

theorem published_update {i : Nat} {pc : AgentPc} {cfg : GlobalConfig}
    (hself : PublishedUpTo T cfg i pc)
    (hother : ∀ j, j ≠ i → PublishedUpTo T cfg j (w.agent j)) :
    ∀ j, PublishedUpTo T cfg j (Function.update w.agent i pc j) :=
  (Function.forall_update_iff w.agent (PublishedUpTo T cfg)).2 ⟨hself, hother⟩

/-- Moving a call of `agentmain` outside the window. -/
theorem move_agent (h : Inv T w) {i : Nat} {pc : AgentPc} {cfg : GlobalConfig}
    {tcts : Nat → TimeCostTransformer} (htct : cfg.tct = w.config.tct)
    (hinst : cfg.inst = w.config.inst) (hset : cfg.finalClassSet = w.config.finalClassSet)
    (hsaved : SavedOriginal T tcts) (hpc : ¬pc.InWindow)
    (hlocal : ∀ S, pc.classSet = some S → S ⊆ T.loaded) :
    Inv T ({ w with config := cfg, jvm := { w.jvm with tcts := tcts } }.setAgent i pc) := by
  have hpub : ∀ {j S}, Published T w.config j S → Published T cfg j S := fun hp =>
    ⟨htct.trans hp.tct, hinst.trans hp.inst, hset.trans hp.classSet⟩
  have hother : ∀ j, (Function.update w.agent i pc j).InWindow → j ≠ i := by
    rintro j hj rfl
    rw [Function.update_self] at hj
    exact hpc hj
  refine ⟨hsaved, fun S hS => h.classSet S (hset ▸ hS), h.localSet_update hlocal,
    fun j k hj hk => ?_, fun j hj => ?_,
    published_update (.of_not_inWindow hpc) (fun j _ => ?_), ?_, fun c hc hadv => ?_⟩
  · have hji := hother j hj
    have hki := hother k hk
    simp only [World.setAgent, Function.update_of_ne hji] at hj
    simp only [World.setAgent, Function.update_of_ne hki] at hk
    exact h.one j k hj hk
  · have hji := hother j hj.inWindow
    simp only [World.setAgent, Function.update_of_ne hji] at hj
    obtain ⟨hclean, hbeat⟩ := h.publishing j hj
    exact ⟨⟨hclean.timeCosts, hclean.installed⟩, hbeat⟩
  · have hold := h.published j
    revert hold
    cases w.agent j <;> intro hold <;> simp only [PublishedUpTo] at hold ⊢
    · exact htct.trans hold
    · exact ⟨htct.trans hold.1, hinst.trans hold.2⟩
    · exact hpub hold
    · exact hpub hold
  · refine h.registered.imp_right ?_
    rintro ⟨j, S, hone, hp, hwill⟩
    exact ⟨j, S, hone, hpub hp, hwill⟩
  · obtain ⟨j, S, hp, hmem, hwill⟩ := h.advised c hc hadv
    exact ⟨j, S, hpub hp, hmem, hwill⟩

/-- A step of the publication: the JVM is clean, and no other call is in the window. -/
theorem publish (h : Inv T w) {i : Nat} {pc : AgentPc} {cfg : GlobalConfig}
    (hclean : w.jvm.Clean T) (hbeat : w.heartbeat i = .beating)
    (honly : ∀ j, j ≠ i → ¬(w.agent j).InWindow)
    (hupto : PublishedUpTo T cfg i pc)
    (hset : ∀ S, cfg.finalClassSet = some S → S ⊆ T.loaded)
    (hlocal : ∀ S, pc.classSet = some S → S ⊆ T.loaded) :
    Inv T ({ w with config := cfg }.setAgent i pc) := by
  have hself : ∀ j, (Function.update w.agent i pc j).InWindow → j = i := eq_of_inWindow honly
  refine ⟨h.saved, hset, h.localSet_update hlocal,
    fun j k hj hk => (hself j hj).trans (hself k hk).symm, fun j hj => ?_,
    published_update hupto (fun j hji => .of_not_inWindow (honly j hji)),
    Or.inl hclean.timeCosts, fun c hc hadv => ?_⟩
  · obtain rfl := hself j hj.inWindow
    exact ⟨hclean, hbeat⟩
  · exact absurd (hadv.symm.trans (hclean.installed c hc)) (by decide)

/-- A step of a heartbeat thread whose own call is not publishing. -/
theorem move_heartbeat (h : Inv T w) {k : Nat} {pc : HeartbeatPc} {jvm : Jvm}
    {manager : TimeCostManager} (hk : ¬(w.agent k).Publishing) (hsaved : SavedOriginal T jvm.tcts)
    (hclean : w.jvm.Clean T → jvm.Clean T)
    (hregistered : timeCostsIn jvm.registered = [] ∨
      (timeCostsIn jvm.registered = timeCostsIn w.jvm.registered ∧
        ∀ S, Published T w.config k S → WillRemove T k (w.heartbeat k) → WillRemove T k pc))
    (hadvised : ∀ c ∈ T.loaded, T.advised (jvm.installed c) = true →
      ∃ i S, Published T w.config i S ∧ c ∈ S ∧ WillRestore (Function.update w.heartbeat k pc i)) :
    Inv T ({ w with jvm := jvm, manager := manager }.setHeartbeat k pc) := by
  refine ⟨hsaved, h.classSet, h.localSet, h.one, fun i hi => ?_, h.published, ?_, hadvised⟩
  · obtain ⟨hcleanOld, hbeat⟩ := h.publishing i hi
    refine ⟨hclean hcleanOld, ?_⟩
    have hik : i ≠ k := fun he => hk (he ▸ hi)
    simp only [World.setHeartbeat, Function.update_of_ne hik]
    exact hbeat
  · rcases hregistered with hnil | ⟨hsame, hkeep⟩
    · exact Or.inl hnil
    · rcases h.registered with hnil | ⟨i, S, hone, hp, hwill⟩
      · exact Or.inl (hsame.trans hnil)
      · refine Or.inr ⟨i, S, hsame.trans hone, hp, ?_⟩
        by_cases hik : i = k
        · subst hik
          simp only [World.setHeartbeat, Function.update_self]
          exact hkeep S hp hwill
        · simp only [World.setHeartbeat, Function.update_of_ne hik]
          exact hwill

/-- An instrumented class that a step leaves as it is. -/
theorem advised_of_old (h : Inv T w) {k : Nat} {pc : HeartbeatPc}
    (hkeep : ∀ S, Published T w.config k S → WillRestore (w.heartbeat k) → WillRestore pc)
    {c : LoadedClass} (hc : c ∈ T.loaded) (hadv : T.advised (w.jvm.installed c) = true) :
    ∃ i S, Published T w.config i S ∧ c ∈ S ∧ WillRestore (Function.update w.heartbeat k pc i) := by
  obtain ⟨i, S, hp, hmem, hwill⟩ := h.advised c hc hadv
  refine ⟨i, S, hp, hmem, ?_⟩
  by_cases hik : i = k
  · subst hik
    rw [Function.update_self]
    exact hkeep S hp hwill
  · rw [Function.update_of_ne hik]
    exact hwill

/-- A step of a heartbeat thread that only reads, or registers and unregisters its own reset. -/
theorem move_heartbeat_of_same (h : Inv T w) {k : Nat} {pc : HeartbeatPc}
    {registered : List (Nat × Transformer)} {manager : TimeCostManager}
    (hk : ¬(w.agent k).Publishing)
    (hsame : timeCostsIn registered = timeCostsIn w.jvm.registered)
    (hremove : ∀ S, Published T w.config k S → WillRemove T k (w.heartbeat k) → WillRemove T k pc)
    (hrestore : ∀ S, Published T w.config k S → WillRestore (w.heartbeat k) → WillRestore pc) :
    Inv T ({ w with
      jvm := { w.jvm with registered := registered }, manager := manager }.setHeartbeat k pc) :=
  h.move_heartbeat hk h.saved (fun hc => ⟨hsame.trans hc.timeCosts, hc.installed⟩)
    (Or.inr ⟨hsame, hremove⟩) (fun _ hc hadv => h.advised_of_old hrestore hc hadv)

/-- Where the session is not the published one, its heartbeat thread may go anywhere. -/
theorem move_heartbeat_of_unpublished (h : Inv T w) {k : Nat} {pc : HeartbeatPc}
    (hk : ¬(w.agent k).Publishing) (hnone : ∀ S, ¬Published T w.config k S) :
    Inv T (w.setHeartbeat k pc) :=
  h.move_heartbeat_of_same hk rfl (fun S hpub _ => absurd hpub (hnone S))
    (fun S hpub _ => absurd hpub (hnone S))

/-- A heartbeat thread that has nothing left to restore may go anywhere. -/
theorem move_heartbeat_of_done (h : Inv T w) {k : Nat} {pc : HeartbeatPc}
    {registered : List (Nat × Transformer)} {manager : TimeCostManager}
    (hk : ¬(w.agent k).Publishing)
    (hsame : timeCostsIn registered = timeCostsIn w.jvm.registered)
    (hdone : ¬WillRestore (w.heartbeat k)) :
    Inv T ({ w with
      jvm := { w.jvm with registered := registered }, manager := manager }.setHeartbeat k pc) :=
  h.move_heartbeat_of_same hk hsame (fun _ _ hwill => absurd hwill.willRestore hdone)
    (fun _ _ hwill => absurd hwill hdone)

/-- Registration: the transformer belongs to the session that has been published. -/
theorem register (h : Inv T w) {i : Nat} {S : List LoadedClass} (hclean : w.jvm.Clean T)
    (hbeat : w.heartbeat i = .beating) (honly : ∀ j, j ≠ i → ¬(w.agent j).InWindow)
    (hlocal : ∀ S', some S = some S' → S' ⊆ T.loaded) (hpub : Published T w.config i S) :
    Inv T ({ w with jvm := w.jvm.addTransformer (T.env i).inst (.timeCost i) }.setAgent i
      (.retransform S)) := by
  have hself : ∀ j, (Function.update w.agent i (.retransform S) j).InWindow → j = i :=
    eq_of_inWindow honly
  refine ⟨h.saved, h.classSet, h.localSet_update hlocal,
    fun j k hj hk => (hself j hj).trans (hself k hk).symm, fun j hj => ?_,
    published_update hpub (fun j _ => h.published j), Or.inr ⟨i, S, ?_, hpub, ?_⟩,
    fun c hc hadv => ?_⟩
  · obtain rfl := hself j hj.inWindow
    simp only [World.setAgent, Function.update_self] at hj
    exact hj.elim
  · simp only [World.setAgent, Jvm.addTransformer, Jvm.timeCostsIn_append, hclean.timeCosts]
    rfl
  · simp only [World.setAgent, hbeat]
    trivial
  · exact absurd (hadv.symm.trans (hclean.installed c hc)) (by decide)

/-- What a retransformation of a class set instruments belongs to the published session. -/
theorem advised_retransformClasses (h : Inv T w) {S : List LoadedClass} (hS : S ⊆ T.loaded)
    {c : LoadedClass}
    (hadv : T.advised ((w.jvm.retransformClasses T.weave S).installed c) = true) :
    (c ∉ S ∧ T.advised (w.jvm.installed c) = true) ∨
    (c ∈ S ∧ ∃ i S', timeCostsIn w.jvm.registered = [((T.env i).inst, i)] ∧
      Published T w.config i S' ∧ WillRemove T i (w.heartbeat i)) := by
  by_cases hmem : c ∈ S
  · refine Or.inr ⟨hmem, h.registered.resolve_left (fun hnil => ?_)⟩
    rw [(Jvm.original_retransformClasses hnil h.saved hS hmem).not_advised] at hadv
    cases hadv
  · rw [Jvm.installed_retransformClasses_of_not_mem T.weave w.jvm hmem] at hadv
    exact Or.inl ⟨hmem, hadv⟩

/-- The retransformation at the end of `agentmain`. -/
theorem retransform (h : Inv T w) {i : Nat} {S : List LoadedClass}
    (honly : ∀ j, j ≠ i → ¬(w.agent j).InWindow) (hS : S ⊆ T.loaded)
    (hpub : Published T w.config i S) :
    Inv T ({ w with jvm := w.jvm.retransformClasses T.weave S }.setAgent i .finished) := by
  have hnone : ∀ j, ¬(Function.update w.agent i .finished j).InWindow :=
    (Function.forall_update_iff w.agent (fun _ pc => ¬AgentPc.InWindow pc)).2 ⟨id, honly⟩
  refine ⟨Jvm.savedOriginal_retransformClasses h.length_le_one h.saved hS, h.classSet,
    h.localSet_update (fun S' hS' => by cases hS'), fun j _ hj => absurd hj (hnone j),
    fun j hj => absurd hj.inWindow (hnone j), published_update trivial (fun j _ => h.published j),
    ?_, fun c hc hadv => ?_⟩
  · simpa only [World.setAgent, Jvm.registered_retransformClasses] using h.registered
  · rcases h.advised_retransformClasses hS hadv with ⟨-, hold⟩ | ⟨hmem, j, S', -, hpub', hwill⟩
    · exact h.advised c hc hold
    · obtain ⟨-, rfl⟩ := hpub.unique hpub'
      exact ⟨j, S, hpub', hmem, hwill.willRestore⟩

/-! ## Every orderly step keeps it -/

theorem attach (h : Inv T w) {i : Nat} (args : Option String) : Inv T (w.attach T i args) := by
  obtain ⟨htct, hinst, hset⟩ := preCheckAndConfig_published (T.env i) w.config args
  unfold World.attach
  dsimp only
  split
  · exact h.move_agent htct hinst hset h.saved (fun hp => hp) (fun S hS => by cases hS)
  · exact h.move_agent htct hinst hset h.saved (fun hp => hp) (fun S hS => by cases hS)

/-- The class set that a call computes consists of classes of the JVM. -/
theorem finalClassSet_subset (T : Target) (i : Nat) (methods : List CMethodInfo) :
    finalClassSet methods (T.env i).allLoadedClassed ⊆ T.loaded :=
  fun _ hc => T.allLoaded i (mem_finalClassSet.1 hc).1

theorem agent (h : Inv T w) {i : Nat} (horderly : Orderly T w (.agent i)) {w' : World}
    (hstep : w.agentStep T i (w.agent i) = some w') : Inv T w' := by
  have honly : (w.agent i).InWindow → ∀ j, j ≠ i → ¬(w.agent j).InWindow := fun hi j hji hj =>
    hji (h.one j i hj hi)
  have hlocal := h.localSet i
  have hupto := h.published i
  have hpublishing := h.publishing i
  cases hpc : w.agent i with
  | notCalled =>
      rw [hpc] at hstep
      cases hstep
  | finished =>
      rw [hpc] at hstep
      cases hstep
  | startHeartbeat =>
      rw [hpc] at hstep
      cases hstep
      have hbeat : Inv T (w.setHeartbeat i .beating) :=
        h.move_heartbeat_of_same (by rw [hpc]; exact fun hp => hp) rfl
          (fun _ _ _ => trivial) (fun _ _ _ => trivial)
      exact hbeat.move_agent rfl rfl rfl hbeat.saved (fun hp => hp) (fun S hS => by cases hS)
  | readHierarchy =>
      rw [hpc, World.agentStep] at hstep
      split at hstep <;> cases hstep <;>
        exact h.move_agent rfl rfl rfl h.saved (fun hp => hp) (fun S hS => by cases hS)
  | newTransformer methods =>
      rw [hpc] at hstep
      cases hstep
      refine h.move_agent rfl rfl rfl ?_ (fun hp => hp) (fun S hS => ?_)
      · intro t className bytes hlookup
        by_cases hti : t = i
        · subst hti
          rw [Function.update_self] at hlookup
          cases hlookup
        · rw [Function.update_of_ne hti] at hlookup
          exact h.saved t className bytes hlookup
      · cases hS
        exact finalClassSet_subset T i methods
  | setTimeCostTransformer S =>
      rw [hpc] at hstep hlocal
      cases hstep
      obtain ⟨hclean, hnone, hbeat⟩ := horderly S hpc
      exact h.publish hclean hbeat (fun j _ => hnone j) rfl h.classSet hlocal
  | setInstrument S =>
      rw [hpc] at hstep hlocal honly hupto hpublishing
      cases hstep
      obtain ⟨hclean, hbeat⟩ := hpublishing trivial
      exact h.publish hclean hbeat (honly trivial) ⟨hupto, rfl⟩ h.classSet hlocal
  | setTransClassSet S =>
      rw [hpc] at hstep hlocal honly hupto hpublishing
      cases hstep
      obtain ⟨hclean, hbeat⟩ := hpublishing trivial
      exact h.publish hclean hbeat (honly trivial) ⟨hupto.1, hupto.2, rfl⟩ hlocal hlocal
  | addTransformer S =>
      rw [hpc] at hstep hlocal honly hupto hpublishing
      cases hstep
      obtain ⟨hclean, hbeat⟩ := hpublishing trivial
      exact h.register hclean hbeat (honly trivial) hlocal hupto
  | retransform S =>
      rw [hpc] at hstep hlocal honly hupto
      cases hstep
      exact h.retransform (honly trivial) (hlocal S rfl) hupto

/-- Removing a `TimeCostTransformer`: the published session's heartbeat removes its own. -/
theorem removeTransformer (h : Inv T w) {k inst : Nat} {tct : Option Nat}
    (hpc : w.heartbeat k = .removeTransformer inst tct) (hk : ¬(w.agent k).Publishing) {t : Nat}
    (ht : tct = some t) :
    Inv T ({ w with jvm := w.jvm.removeTransformer inst (.timeCost t) }.setHeartbeat k
      (.getFinalClassSet inst tct)) := by
  have hfilter := Jvm.timeCostsIn_removeTransformer w.jvm inst t
  have hrestore : WillRestore (.getFinalClassSet inst tct) := trivial
  refine h.move_heartbeat hk h.saved (fun hclean => ⟨?_, hclean.installed⟩) ?_
    (fun _ hc hadv => h.advised_of_old (fun _ _ _ => hrestore) hc hadv)
  · rw [hfilter, hclean.timeCosts]
    rfl
  · rcases h.registered with hnil | ⟨i, S, hone, hpub, hwill⟩
    · rw [hfilter, hnil]
      exact Or.inl rfl
    · by_cases hsame : ((T.env i).inst, i) = (inst, t)
      · rw [hfilter, hone, hsame]
        exact Or.inl (by simp)
      · refine Or.inr ⟨by rw [hfilter, hone]; simpa using hsame, fun S' hpub' hwill' => ?_⟩
        -- the thread of the published session has read its own transformer
        obtain ⟨rfl, -⟩ := hpub.unique hpub'
        rw [hpc] at hwill'
        obtain ⟨rfl, htct⟩ := hwill'
        rw [ht, Option.some.injEq] at htct
        exact absurd (by rw [htct]) hsame

/-- The retransformation of the clean-up: after that of the published session nothing is left. -/
theorem restore (h : Inv T w) {k inst : Nat} {tct : Option Nat} {S : List LoadedClass}
    (hpc : w.heartbeat k = .retransform inst tct) (hk : ¬(w.agent k).Publishing)
    (hset : w.config.finalClassSet = some S) :
    Inv T ({ w with jvm := w.jvm.retransformClasses T.weave S }.setHeartbeat k
      (.removeReset inst tct)) := by
  have hS := h.classSet S hset
  refine h.move_heartbeat hk (Jvm.savedOriginal_retransformClasses h.length_le_one h.saved hS)
    (fun hclean => hclean.retransformClasses h.saved hS)
    (Or.inr ⟨by rw [Jvm.registered_retransformClasses], fun _ _ hwill => ?_⟩) (fun c hc hadv => ?_)
  · rw [hpc] at hwill
    exact hwill
  · rcases h.advised_retransformClasses hS hadv with ⟨hnot, hold⟩ | ⟨hmem, i, S', -, hpub, hwill⟩
    · -- an instrumented class is in the published class set, which is the one at hand
      obtain ⟨i, S', hpub, hmem, -⟩ := h.advised c hc hold
      exact absurd (Option.some.inj (hset.symm.trans hpub.classSet) ▸ hmem) hnot
    · refine ⟨i, S', hpub, Option.some.inj (hset.symm.trans hpub.classSet) ▸ hmem, ?_⟩
      have hik : i ≠ k := by
        rintro rfl
        rw [hpc] at hwill
        exact hwill
      rw [Function.update_of_ne hik]
      exact hwill.willRestore

theorem heartbeat (h : Inv T w) {k : Nat} {w' : World}
    (hstep : w.heartbeatStep T k (w.heartbeat k) = some w') : Inv T w' := by
  have hk : w.heartbeat k ≠ .beating → ¬(w.agent k).Publishing := fun hne hp =>
    hne (h.publishing k hp).2
  cases hpc : w.heartbeat k with
  | notStarted =>
      rw [hpc] at hstep
      cases hstep
  | beating =>
      rw [hpc] at hstep
      cases hstep
  | ended =>
      rw [hpc] at hstep
      cases hstep
  | getInstrument =>
      have hk := hk (by rw [hpc]; decide)
      rw [hpc, World.heartbeatStep] at hstep
      split at hstep <;> cases hstep
      · next hnone =>
          -- without an `Instrumentation` nothing is published
          refine h.move_heartbeat_of_unpublished hk (fun S hpub => ?_)
          exact absurd (hnone.symm.trans hpub.inst) (by simp)
      · next inst hsome =>
          exact h.move_heartbeat_of_same hk rfl
            (fun S hpub _ => Option.some.inj (hsome.symm.trans hpub.inst)) (fun _ _ _ => trivial)
  | getTimeCostTransformer inst =>
      have hk := hk (by rw [hpc]; simp)
      rw [hpc] at hstep
      cases hstep
      refine h.move_heartbeat_of_same hk rfl (fun S hpub hwill => ?_) (fun _ _ _ => trivial)
      rw [hpc] at hwill
      exact ⟨hwill, hpub.tct⟩
  | removeTransformer inst tct =>
      have hk := hk (by rw [hpc]; simp)
      rw [hpc] at hstep
      cases hstep
      cases tct with
      | none =>
          refine h.move_heartbeat_of_same hk rfl (fun S hpub hwill => ?_) (fun _ _ _ => trivial)
          rw [hpc] at hwill
          cases hwill.2
      | some t => exact h.removeTransformer hpc hk rfl
  | getFinalClassSet inst tct =>
      have hk := hk (by rw [hpc]; simp)
      rw [hpc, World.heartbeatStep] at hstep
      split at hstep <;> cases hstep
      · next hnone =>
          refine h.move_heartbeat_of_unpublished hk (fun S hpub => ?_)
          exact absurd (hnone.symm.trans hpub.classSet) (by simp)
      · exact h.move_heartbeat_of_same hk rfl (fun S _ hwill => by rw [hpc] at hwill; exact hwill)
          (fun _ _ _ => trivial)
  | addReset inst tct =>
      have hk := hk (by rw [hpc]; simp)
      rw [hpc] at hstep
      cases hstep
      refine h.move_heartbeat_of_same hk ?_ (fun S _ hwill => by rw [hpc] at hwill; exact hwill)
        (fun _ _ _ => trivial)
      rw [Jvm.timeCostsIn_append]
      exact List.append_nil _
  | retransform inst tct =>
      have hk := hk (by rw [hpc]; simp)
      rw [hpc, World.heartbeatStep] at hstep
      split at hstep <;> cases hstep
      · next hnone =>
          refine h.move_heartbeat_of_unpublished hk (fun S hpub => ?_)
          exact absurd (hnone.symm.trans hpub.classSet) (by simp)
      · next S hset => exact h.restore hpc hk hset
  | removeReset inst tct =>
      have hk := hk (by rw [hpc]; simp)
      rw [hpc] at hstep
      cases hstep
      refine h.move_heartbeat_of_done hk (Jvm.timeCostsIn_removeReset w.jvm inst k tct) ?_
      rw [hpc]
      exact id
  | stopRecording =>
      have hk := hk (by rw [hpc]; simp)
      rw [hpc] at hstep
      cases hstep
      refine h.move_heartbeat_of_done hk rfl ?_
      rw [hpc]
      exact id

/-- Every orderly step keeps the invariant. -/
theorem step (h : Inv T w) {a : Action} (horderly : Orderly T w a) {w' : World}
    (hstep : w.step T a = some w') : Inv T w' := by
  cases a with
  | attach i args =>
      rw [World.step] at hstep
      split at hstep <;> cases hstep
      exact h.attach args
  | agent i => exact h.agent horderly hstep
  | beat i answeredBy =>
      cases answeredBy with
      | some j =>
          rw [World.step] at hstep
          split at hstep <;> cases hstep
          exact h
      | none =>
          rw [World.step] at hstep
          split at hstep <;> cases hstep
          exact h.move_heartbeat_of_same horderly rfl (fun _ _ _ => trivial) (fun _ _ _ => trivial)
  | heartbeat i => exact h.heartbeat hstep
  | exit i =>
      rw [World.step] at hstep
      split at hstep <;> cases hstep
      exact ⟨h.saved, h.classSet, h.localSet, h.one, h.publishing, h.published, h.registered,
        h.advised⟩

end Inv

/-! ## One session -/

namespace OneSession

def classFile : ClassFile where
  name := "p/A"
  superclass := none
  isInterface := false
  methods := [⟨"run", "()V", []⟩]

def loaded : List LoadedClass := [⟨1, "p.A", [1]⟩]

/-- A JVM with the class `p.A`, a boot that answers on port 8090, and advice put in front of the
    class file. -/
def target : Target where
  weave := fun c _ => some (0 :: c.bytes)
  env := fun i =>
    { toBean := fun _ => some ⟨8090, some "run", some "p.A"⟩
      get := fun _ _ => .returned (some "ok")
      loadedAtCheck := loaded
      allLoadedClassed := loaded
      classPath := ⟨[classFile], by decide⟩
      fold := Char.toLower
      inst := i }
  bootPort := fun _ => 8090
  loaded := loaded
  allLoaded := fun _ => List.Subset.refl _
  advised := fun bytes => bytes.head? == some 0
  original := by decide

/-- The boot exits and the first beat fails while `agentmain` is still walking the call graph. -/
def earlyFailure : List Action :=
  [.attach 0 (some "{}"), .agent 0, .exit 0, .beat 0 none, .heartbeat 0] ++
    List.replicate 7 (.agent 0)

/-- `agentmain` runs to its end before the boot exits and the beat fails. -/
def wholeSession : List Action :=
  [.attach 0 (some "{}")] ++ List.replicate 8 (.agent 0) ++ [.exit 0, .beat 0 none] ++
    List.replicate 8 (.heartbeat 0)

/-- The state after the first `n` steps of the whole session. -/
def after (n : Nat) : World :=
  (Trace.execute (World.step target) .initial (wholeSession.take n)).getD .initial

theorem orderly_after {n : Nat} (hn : n ≤ 19) :
    Trace.Runs (World.step target) (Orderly target) .initial (after n) := by
  induction n with
  | zero => exact .refl
  | succ n ih =>
      have hlt : n < 19 := hn
      refine (ih (Nat.le_of_lt hlt)).tail (a := wholeSession.getD n (.exit 0)) ?_ ?_
      · clear ih hn
        -- only the fifth step, `setTimeCostTransformer`, has to meet a condition
        interval_cases n <;> first | trivial | exact id | (rintro S ⟨⟩; done) | skip
        exact fun S _ => ⟨⟨rfl, by decide⟩, fun j => by rcases j with _ | j <;> exact id, rfl⟩
      · clear ih hn
        interval_cases n <;> rfl

end OneSession

/-! ## All sessions over -/

/-- **Clean-up.** After a run in which every step is orderly, nothing is left once all sessions are
    over: no `TimeCostTransformer` is registered and no loaded class runs instrumented code. -/
theorem clean_of_orderly (T : Target) {w : World}
    (h : Trace.Runs (World.step T) (Orderly T) .initial w) (hfinal : w.Final) : w.jvm.Clean T := by
  have hinv : Inv T w := h.invariant (fun hi hok hstep => hi.step hok hstep) Inv.initial
  have hover : ∀ i, ¬WillRestore (w.heartbeat i) := by
    intro i
    rcases (hfinal i).2 with hpc | hpc <;>
    · rw [hpc]
      exact fun hwill => hwill
  refine ⟨hinv.registered.resolve_right ?_, fun c hc => ?_⟩
  · rintro ⟨i, S, -, -, hwill⟩
    exact hover i hwill.willRestore
  · rw [← Bool.not_eq_true]
    intro hadv
    obtain ⟨i, S, -, -, hwill⟩ := hinv.advised c hc hadv
    exact hover i hwill

open OneSession

/-- A heartbeat thread that fails before its session has published ends without cleaning up, and the
    transformer registered afterwards stays. -/
theorem early_failure_not_clean : ∃ w,
    Trace.execute (World.step target) .initial earlyFailure = some w ∧ w.Final ∧
      ¬w.jvm.Clean target := by
  refine ⟨_, rfl, fun i => ?_, fun h => absurd h.timeCosts (by decide)⟩
  rcases i with _ | i
  · exact ⟨Or.inr ⟨rfl, rfl⟩, Or.inr rfl⟩
  · exact ⟨Or.inl rfl, Or.inl rfl⟩

/-- The whole session leaves nothing. -/
theorem whole_session_clean : (after 19).jvm.Clean target := by
  refine clean_of_orderly target (orderly_after (Nat.le_refl 19)) (fun i => ?_)
  rcases i with _ | i
  · exact ⟨Or.inr ⟨rfl, rfl⟩, Or.inr rfl⟩
  · exact ⟨Or.inl rfl, Or.inl rfl⟩

end Jma
