import Jma.Attach.CleanUp
import Jma.Attach.FailedAttach
import Jma.Attach.Weaving
import Jma.Http.HttpClientThread

set_option autoImplicit false

/-! # Attaches that overlap

Nothing keeps a boot from attaching while another one is attached. Both transformers are registered
then, and `GlobalConfig` knows the later one only, so every clean-up takes that one away, again and
again. What the earlier transformers have woven stays: `overlapping_attaches`. -/

namespace Jma

open AgentMain TimeCostTransformer

/-- What an attach has found and registered. -/
structure Layer where
  inst : Nat
  tct : Nat
  methods : List CMethodInfo
  loaded : List LoadedClass

namespace Layer

def trans (l : Layer) : List CMethodInfo := finalTransClasses l.methods l.loaded

def classSet (l : Layer) : List LoadedClass := finalClassSet l.methods l.loaded

def entry (l : Layer) : Nat × Transformer := (l.inst, .timeCost l.tct)

def weaves (weave : Weave) (l : Layer) (c : LoadedClass) : Option Bytes := woven weave l.trans c

theorem classSet_subset (l : Layer) {classes : List LoadedClass} (h : l.loaded ⊆ classes) :
    l.classSet ⊆ classes := fun _ hc => h (mem_finalClassSet.1 hc).1

end Layer

/-- What a class runs under a stack of layers, the last one first: what the last layer makes of it
    that weaves it, or its own bytes. -/
def runsUnder (weave : Weave) (c : LoadedClass) : List Layer → Bytes
  | [] => c.bytes
  | l :: below => (l.weaves weave c).getD (runsUnder weave c below)

/-- What happens to the target JVM, with how the call of `retransformClasses` ends, should there be
    one. -/
inductive AttachEvent where
  | agentmain (env : AgentEnv) (args : Option String) (retransform : RetransformAnswer)
  /-- A heartbeat thread gets no response. -/
  | bootGone (thread : Nat) (retransform : RetransformAnswer)

/-- `retransformClasses` does not throw. -/
def AttachEvent.Returns : AttachEvent → Prop
  | .agentmain _ _ answer => answer = .returned
  | .bootGone _ answer => answer = .returned

/-- What the walk of a call of `agentmain` finds, if the call gets that far. -/
def found (env : AgentEnv) (args : Option String) : Option (List CMethodInfo) :=
  match preCheckAndConfig env .initial args with
  | (.ok true, cfg) => (readHierarchy env cfg).toOption
  | _ => none

/-- What `agentmain` leaves, given how its call of `retransformClasses` ends: one that throws has
    installed nothing, but all is published and the transformer is registered. -/
def agentmainEnds (weave : Weave) (env : AgentEnv) (tct : Nat) (s : AgentState)
    (args : Option String) (answer : RetransformAnswer) : AgentState :=
  let after := (agentmain weave env tct s args).2
  match found env args, answer with
  | some _, .threw _ tcts =>
      { after with jvm := { after.jvm with installed := s.jvm.installed, tcts := tcts } }
  | _, _ => after

structure Attempts where
  agent : AgentState
  manager : TimeCostManager
  /-- How often `agentmain` was called; call `n` makes the `TimeCostTransformer` object `n`. -/
  calls : Nat

namespace Attempts

def initial : Attempts := ⟨⟨.initial, .pristine, 0⟩, .initial, 0⟩

def step (weave : Weave) (s : Attempts) : AttachEvent → Attempts
  | .agentmain env args answer =>
      { s with agent := agentmainEnds weave env s.calls s.agent args answer, calls := s.calls + 1 }
  | .bootGone thread answer =>
      let shared := (checkBootExit weave thread .threw answer
        ⟨s.agent.config, s.agent.jvm, s.manager⟩).state
      { s with
        agent := { s.agent with config := shared.config, jvm := shared.jvm }
        manager := shared.manager }

def run (weave : Weave) (s : Attempts) (es : List AttachEvent) : Attempts := es.foldl (step weave) s

end Attempts

/-! ## One call of `agentmain` -/

/-- The outcome of the checks does not depend on what was configured before. -/
theorem preCheckAndConfig_eq (env : AgentEnv) (cfg : GlobalConfig) (args : Option String) :
    (preCheckAndConfig env cfg args).1 = (preCheckAndConfig env .initial args).1 ∧
      ((preCheckAndConfig env cfg args).1 = .ok true →
        readHierarchy env (preCheckAndConfig env cfg args).2
          = readHierarchy env (preCheckAndConfig env .initial args).2) := by
  cases args with
  | none => exact ⟨rfl, fun h => by cases h⟩
  | some json =>
      cases hbean : env.toBean json with
      | none => simp [preCheckAndConfig, hbean]
      | some params =>
          cases hclazz : params.clazzName with
          | none => simp [preCheckAndConfig, hbean, hclazz]
          | some clazzName =>
              -- the checks read the port and the class that have just been written
              have hchecks : ∀ cfg, preCheckAndConfig env cfg (some json) =
                  if !HttpTransUtil.checkHttpConnection env.get params.port then
                    (.ok false, config cfg params clazzName)
                  else if env.loadedAtCheck.any (fun c =>
                      some c.name == some (replaceAll (replaceAll clazzName '.' '/') '/' '.')) then
                    (.ok true, config cfg params clazzName)
                  else (.error (.runtimeException ("class[" ++
                    replaceAll (replaceAll clazzName '.' '/') '/' '.' ++ "] not loaded")),
                      config cfg params clazzName) := by
                intro cfg
                simp only [preCheckAndConfig, hbean, hclazz]
                rfl
              rw [hchecks, hchecks]
              split
              · exact ⟨rfl, fun h => by cases h⟩
              · split
                · exact ⟨rfl, fun _ => rfl⟩
                · exact ⟨rfl, fun h => by cases h⟩

section

variable {weave : Weave} {env : AgentEnv} {tct : Nat} {s : AgentState} {args : Option String}

theorem agentmain_of_found {methods : List CMethodInfo} (h : found env args = some methods) :
    (agentmain weave env tct s args).2.jvm
        = s.jvm.attach weave env.inst tct methods env.allLoadedClassed ∧
      (agentmain weave env tct s args).2.config.tct = some tct ∧
      (agentmain weave env tct s args).2.config.inst = some env.inst ∧
      (agentmain weave env tct s args).2.config.finalClassSet
        = some (finalClassSet methods env.allLoadedClassed) := by
  obtain ⟨hresult, hread⟩ := preCheckAndConfig_eq env s.config args
  rw [found] at h
  rcases hpre : preCheckAndConfig env .initial args with ⟨checked, cfg⟩
  rcases hpre' : preCheckAndConfig env s.config args with ⟨checked', cfg'⟩
  rw [hpre] at h hresult hread
  rw [hpre'] at hresult hread
  obtain rfl : checked' = checked := hresult
  rcases checked' with e | (_ | _)
  · cases h
  · cases h
  · have hmethods : readHierarchy env cfg' = .ok methods := by
      rw [show readHierarchy env cfg' = readHierarchy env cfg from hread rfl]
      cases hok : readHierarchy env cfg with
      | error e =>
          simp only [hok] at h
          cases h
      | ok list =>
          simp only [hok] at h
          cases h
          rfl
    simp only [agentmain, hpre', hmethods]
    exact ⟨rfl, rfl, rfl, rfl⟩

theorem agentmainEnds_returned :
    agentmainEnds weave env tct s args .returned = (agentmain weave env tct s args).2 := by
  unfold agentmainEnds
  cases found env args <;> rfl

theorem agentmain_of_not_found (h : found env args = none) :
    (agentmain weave env tct s args).2.jvm = s.jvm ∧
      (agentmain weave env tct s args).2.config = (preCheckAndConfig env s.config args).2 := by
  obtain ⟨hresult, hread⟩ := preCheckAndConfig_eq env s.config args
  rw [found] at h
  rcases hpre : preCheckAndConfig env .initial args with ⟨checked, cfg⟩
  rcases hpre' : preCheckAndConfig env s.config args with ⟨checked', cfg'⟩
  rw [hpre] at h hresult hread
  rw [hpre'] at hresult hread
  obtain rfl : checked' = checked := hresult
  rw [agentmain, hpre']
  rcases checked' with e | (_ | _)
  · exact ⟨rfl, rfl⟩
  · exact ⟨rfl, rfl⟩
  · have hsame : readHierarchy env cfg' = readHierarchy env cfg := hread rfl
    cases hfail : readHierarchy env cfg with
    | error e => simp [hsame, hfail]
    | ok methods =>
        simp only [hfail] at h
        cases h

end

/-! ## The layers behind the bytes -/

/-- No two of the classes have the same name: they come from one loader. -/
def OneLoader (classes : List LoadedClass) : Prop :=
  ∀ c ∈ classes, ∀ d ∈ classes, c.className = d.className → c = d

/-- What a layer has saved of a class is what the layers below make of it. -/
def SavedUnder (weave : Weave) (classes : List LoadedClass) (tcts : Nat → TimeCostTransformer)
    (l : Layer) (below : List Layer) : Prop :=
  ∀ c ∈ classes, ∀ b, (tcts l.tct).originalClassBytesMap.lookup c.className = some b →
    b = runsUnder weave c below

/-- The `TimeCostTransformer` objects are those of the layers. -/
def Stacked (weave : Weave) (classes : List LoadedClass) (tcts : Nat → TimeCostTransformer) :
    List Layer → Prop
  | [] => True
  | l :: below => (tcts l.tct).methods = l.trans ∧ SavedUnder weave classes tcts l below ∧
      Stacked weave classes tcts below

section

variable {weave : Weave} {classes : List LoadedClass} {tcts tcts' : Nat → TimeCostTransformer}

theorem Stacked.congr {stack : List Layer} (h : Stacked weave classes tcts stack)
    (hsame : ∀ l ∈ stack, tcts' l.tct = tcts l.tct) : Stacked weave classes tcts' stack := by
  induction stack with
  | nil => trivial
  | cons l below ih =>
      obtain ⟨hmethods, hsaved, hbelow⟩ := h
      have hl := hsame l (List.mem_cons_self ..)
      refine ⟨hl ▸ hmethods, fun c hc b hb => hsaved c hc b (hl ▸ hb), ih hbelow fun l' hl' => ?_⟩
      exact hsame l' (List.mem_cons_of_mem _ hl')

/-- The transformer of a new layer at work on what the layers below make of a class. -/
theorem runTransformer_layer (hloader : OneLoader classes) {l : Layer} {below : List Layer}
    {c : LoadedClass} (hc : c ∈ classes) (hmethods : (tcts l.tct).methods = l.trans)
    (hsaved : SavedUnder weave classes tcts l below) :
    ∃ t, Jvm.runTransformer weave c tcts (runsUnder weave c below) l.entry.2
        = (runsUnder weave c (l :: below), Function.update tcts l.tct t) ∧
      t.methods = l.trans ∧
      SavedUnder weave classes (Function.update tcts l.tct t) l below := by
  refine ⟨((tcts l.tct).transform weave c (runsUnder weave c below)).2, ?_, ?_, ?_⟩
  · rw [Layer.entry, Jvm.runTransformer, transform_eq, hmethods]
    rfl
  · rw [methods_transform, hmethods]
  · intro d hd b hb
    rw [Function.update_self, transform_eq] at hb
    dsimp only at hb
    split at hb
    · by_cases hdc : d = c
      · subst hdc
        rw [AList.lookup_insert] at hb
        exact (Option.some.inj hb).symm
      · rw [AList.lookup_insert_ne (fun h => hdc (hloader d hd c hc h))] at hb
        exact hsaved d hd b hb
    · exact hsaved d hd b hb

/-- The transformers of the layers at work on the bytes of a class, whatever is registered after
    them. -/
theorem runTransformers_layers (hloader : OneLoader classes) {stack : List Layer} {c : LoadedClass}
    (hc : c ∈ classes) (hstacked : Stacked weave classes tcts stack)
    (hnodup : (stack.map Layer.tct).Nodup) (rest : List (Nat × Transformer)) :
    ∃ tcts', Jvm.runTransformers weave c (stack.reverse.map Layer.entry ++ rest) tcts c.bytes
        = Jvm.runTransformers weave c rest tcts' (runsUnder weave c stack) ∧
      Stacked weave classes tcts' stack ∧ ∀ t, t ∉ stack.map Layer.tct → tcts' t = tcts t := by
  induction stack generalizing rest with
  | nil => exact ⟨tcts, rfl, trivial, fun _ _ => rfl⟩
  | cons l below ih =>
      obtain ⟨hmethods, hsaved, hbelow⟩ := hstacked
      rw [List.map_cons, List.nodup_cons] at hnodup
      obtain ⟨hnew, hnodup⟩ := hnodup
      obtain ⟨tcts₁, hrun, hbelow₁, hother⟩ := ih hbelow hnodup (l.entry :: rest)
      have hl : tcts₁ l.tct = tcts l.tct := hother l.tct hnew
      have hmethods₁ : (tcts₁ l.tct).methods = l.trans := hl ▸ hmethods
      obtain ⟨t, hstep, ht, hsaved'⟩ := runTransformer_layer hloader hc hmethods₁
        (fun d hd b hb => hsaved d hd b (hl ▸ hb))
      refine ⟨Function.update tcts₁ l.tct t, ?_, ⟨?_, hsaved', hbelow₁.congr fun l' hl' => ?_⟩, ?_⟩
      · rw [List.reverse_cons, List.map_append, List.append_assoc]
        refine hrun.trans ?_
        rw [Jvm.runTransformers, hstep]
      · rw [Function.update_self, ht]
      · have hne : l'.tct ≠ l.tct := fun h => hnew (h ▸ List.mem_map_of_mem hl')
        exact Function.update_of_ne hne ..
      · intro u hu
        rw [List.map_cons, List.mem_cons, not_or] at hu
        rw [Function.update_of_ne hu.1, hother u hu.2]

/-- Retransformation with the layers registered, and after them something that hands out what they
    make of a class. -/
theorem retransformClasses_layers (hloader : OneLoader classes) {stack : List Layer}
    {rest : List (Nat × Transformer)} {jvm : Jvm} {retransformed : List LoadedClass}
    (hreg : jvm.registered = stack.reverse.map Layer.entry ++ rest)
    (hstacked : Stacked weave classes jvm.tcts stack) (hnodup : (stack.map Layer.tct).Nodup)
    (hrest : ∀ c ∈ classes, ∀ tcts, (∀ t, t ∉ stack.map Layer.tct → tcts t = jvm.tcts t) →
      Jvm.runTransformers weave c rest tcts (runsUnder weave c stack)
        = (runsUnder weave c stack, tcts))
    (hsub : retransformed ⊆ classes) :
    Stacked weave classes (jvm.retransformClasses weave retransformed).tcts stack ∧
      (∀ t, t ∉ stack.map Layer.tct →
        (jvm.retransformClasses weave retransformed).tcts t = jvm.tcts t) ∧
      ∀ c, (jvm.retransformClasses weave retransformed).installed c
        = if c ∈ retransformed then runsUnder weave c stack else jvm.installed c := by
  induction retransformed using List.reverseRecOn with
  | nil => exact ⟨hstacked, fun _ _ => rfl, fun _ => (if_neg List.not_mem_nil).symm⟩
  | append_singleton retransformed d ih =>
      rw [List.append_subset] at hsub
      obtain ⟨hstacked', hother, hinstalled⟩ := ih hsub.1
      have hd : d ∈ classes := hsub.2 (List.mem_singleton_self d)
      obtain ⟨tcts', hrun, hstacked'', hother'⟩ :=
        runTransformers_layers hloader hd hstacked' hnodup rest
      have hkeep : ∀ t, t ∉ stack.map Layer.tct → tcts' t = jvm.tcts t := fun t ht =>
        (hother' t ht).trans (hother t ht)
      rw [hrest d hd tcts' hkeep] at hrun
      rw [Jvm.retransformClasses_snoc, Jvm.retransformClass, Jvm.registered_retransformClasses,
        hreg, hrun]
      refine ⟨hstacked'', hkeep, fun c => ?_⟩
      by_cases hcd : c = d
      · subst hcd
        simp
      · simp [hinstalled c, hcd]

/-- A layer that does not retransform a class does not weave it. -/
theorem Layer.weaves_eq_none (weave : Weave) (hloader : OneLoader classes) {l : Layer}
    (hsub : l.loaded ⊆ classes) {c : LoadedClass} (hc : c ∈ classes) (h : c ∉ l.classSet) :
    l.weaves weave c = none := by
  rw [Layer.weaves, woven, if_neg]
  intro hlisted
  rw [Bool.and_eq_true, List.contains_iff_mem, List.mem_map] at hlisted
  obtain ⟨⟨m, hm, hclass⟩, -⟩ := hlisted
  obtain ⟨hm, d, hd, hname⟩ := mem_finalTransClasses.1 hm
  have hdot : '.' ∉ c.className.toList := by
    rw [LoadedClass.className, toList_replaceAll]
    simp only [List.mem_map, not_exists, not_and]
    intro x _ hx
    split at hx
    · cases hx
    · next hne => exact hne hx
  have hsame : c.className = d.className := by
    rw [show d.className = replaceAll d.name '.' '/' from rfl, hname, hclass,
      replaceAll_replaceAll, replaceAll_of_not_mem hdot]
  obtain rfl := hloader c hc d (hsub hd) hsame
  exact h (mem_finalClassSet.2 ⟨hd, m, hm, hname⟩)

theorem runsUnder_cons_of_not_mem (weave : Weave) (hloader : OneLoader classes) {l : Layer}
    (below : List Layer) (hsub : l.loaded ⊆ classes) {c : LoadedClass} (hc : c ∈ classes)
    (h : c ∉ l.classSet) : runsUnder weave c (l :: below) = runsUnder weave c below := by
  rw [runsUnder, l.weaves_eq_none weave hloader hsub hc h]
  rfl

end

/-! ## Attaches and clean-ups -/

/-- What the attaches and clean-ups come to: the layer that `GlobalConfig` knows lies on those that
    were registered before it, and is live until the first clean-up. -/
structure Layers where
  all : List Layer
  live : Bool
  calls : Nat

namespace Layers

def initial : Layers := ⟨[], false, 0⟩

/-- The layers that are registered, the last one first. -/
def stack (a : Layers) : List Layer := if a.live then a.all else a.all.tail

def step (a : Layers) : AttachEvent → Layers
  | .agentmain env args _ =>
      match found env args with
      | none => { a with calls := a.calls + 1 }
      | some methods =>
          ⟨⟨env.inst, a.calls, methods, env.allLoadedClassed⟩ :: a.stack, true, a.calls + 1⟩
  | .bootGone _ _ => { a with live := false }

def run (a : Layers) (es : List AttachEvent) : Layers := es.foldl step a

theorem stack_subset (a : Layers) : a.stack ⊆ a.all := by
  unfold stack
  split
  · exact List.Subset.refl _
  · exact List.tail_subset _

end Layers

/-- The state of the target JVM is what the layers say. -/
structure Mirrors (weave : Weave) (classes : List LoadedClass) (s : Attempts) (a : Layers) :
    Prop where
  calls : s.calls = a.calls
  registered : s.agent.jvm.registered = a.stack.reverse.map Layer.entry
  installed : ∀ c ∈ classes, s.agent.jvm.installed c = runsUnder weave c a.stack
  inst : s.agent.config.inst = a.all.head?.map Layer.inst
  tct : s.agent.config.tct = a.all.head?.map Layer.tct
  finalClassSet : s.agent.config.finalClassSet = a.all.head?.map Layer.classSet
  stacked : Stacked weave classes s.agent.jvm.tcts a.all
  nodup : (a.all.map Layer.tct).Nodup
  made : ∀ l ∈ a.all, l.tct < a.calls
  loaded : ∀ l ∈ a.all, l.loaded ⊆ classes

section

variable {weave : Weave} {classes : List LoadedClass} {s : Attempts} {a : Layers}

theorem Stacked.tail {tcts : Nat → TimeCostTransformer} {all : List Layer}
    (h : Stacked weave classes tcts all) : Stacked weave classes tcts all.tail := by
  cases all with
  | nil => trivial
  | cons l below => exact h.2.2

theorem Mirrors.initial (weave : Weave) (classes : List LoadedClass) :
    Mirrors weave classes .initial .initial where
  calls := rfl
  registered := rfl
  installed := fun _ _ => rfl
  inst := rfl
  tct := rfl
  finalClassSet := rfl
  stacked := trivial
  nodup := List.nodup_nil
  made := fun _ hl => absurd hl List.not_mem_nil
  loaded := fun _ hl => absurd hl List.not_mem_nil

theorem Mirrors.stacked_stack (h : Mirrors weave classes s a) :
    Stacked weave classes s.agent.jvm.tcts a.stack ∧ (a.stack.map Layer.tct).Nodup := by
  unfold Layers.stack
  split
  · exact ⟨h.stacked, h.nodup⟩
  · exact ⟨h.stacked.tail, h.nodup.sublist ((List.tail_sublist _).map _)⟩

/-- An attach puts a layer on the stack. -/
theorem Mirrors.attach (h : Mirrors weave classes s a) (hloader : OneLoader classes)
    {env : AgentEnv} {args : Option String} {methods : List CMethodInfo}
    (hfound : found env args = some methods) (hloaded : env.allLoadedClassed ⊆ classes) :
    Mirrors weave classes (s.step weave (.agentmain env args .returned))
      (a.step (.agentmain env args .returned)) := by
  obtain ⟨hjvm, htct, hinst, hset⟩ := @agentmain_of_found weave env s.calls s.agent args _ hfound
  let l : Layer := ⟨env.inst, a.calls, methods, env.allLoadedClassed⟩
  have hstep : a.step (.agentmain env args .returned) = ⟨l :: a.stack, true, a.calls + 1⟩ := by
    simp only [Layers.step, hfound]
    rfl
  have hfresh : ∀ l' ∈ a.stack, l'.tct ≠ a.calls := fun l' hl' =>
    (h.made l' (a.stack_subset hl')).ne
  obtain ⟨hstacked, hnodup⟩ := h.stacked_stack
  -- the transformer is new: it has saved nothing
  let ready := (s.agent.jvm.newTransformer a.calls l.trans).addTransformer env.inst
    (.timeCost a.calls)
  have hnew : ready.tcts a.calls = .new l.trans := Function.update_self ..
  have hready : Stacked weave classes ready.tcts (l :: a.stack) := by
    refine ⟨by rw [hnew]; rfl, fun c _ b hb => ?_, hstacked.congr fun l' hl' => ?_⟩
    · rw [hnew] at hb
      cases hb
    · exact Function.update_of_ne (hfresh l' hl') ..
  have hnodup' : ((l :: a.stack).map Layer.tct).Nodup := by
    rw [List.map_cons, List.nodup_cons]
    refine ⟨fun hmem => ?_, hnodup⟩
    obtain ⟨l', hl', heq⟩ := List.mem_map.1 hmem
    exact hfresh l' hl' heq
  have hreg : ready.registered = (l :: a.stack).reverse.map Layer.entry ++ [] := by
    rw [List.append_nil, List.reverse_cons, List.map_append]
    exact congrArg (· ++ [l.entry]) h.registered
  have hsub : l.classSet ⊆ classes := l.classSet_subset hloaded
  obtain ⟨hsaved, -, hinstalled⟩ := retransformClasses_layers hloader hreg hready hnodup'
    (fun _ _ _ _ => rfl) hsub
  have hafter : (s.step weave (.agentmain env args .returned)).agent
      = (agentmain weave env s.calls s.agent args).2 := agentmainEnds_returned
  have hattach : (s.step weave (.agentmain env args .returned)).agent.jvm
      = ready.retransformClasses weave l.classSet := by
    rw [hafter, hjvm, h.calls]
    rfl
  rw [hstep]
  refine ⟨congrArg (· + 1) h.calls, ?_, fun c hc => ?_, by rw [hafter, hinst]; rfl, ?_,
    by rw [hafter, hset]; rfl, ?_, hnodup', ?_, ?_⟩
  · rw [hattach, Jvm.registered_retransformClasses, hreg, List.append_nil]
    rfl
  · rw [hattach, hinstalled c]
    split
    · rfl
    · next hout =>
        show ready.installed c = runsUnder weave c (l :: a.stack)
        rw [runsUnder_cons_of_not_mem weave hloader _ hloaded hc hout]
        exact h.installed c hc
  · rw [hafter, htct, h.calls]
    rfl
  · rw [hattach]
    exact hsaved
  · intro l' hl'
    rcases List.mem_cons.1 hl' with rfl | hl'
    · exact Nat.lt_succ_self _
    · exact (h.made l' (a.stack_subset hl')).trans (Nat.lt_succ_self _)
  · intro l' hl'
    rcases List.mem_cons.1 hl' with rfl | hl'
    · exact hloaded
    · exact h.loaded l' (a.stack_subset hl')

/-- Taking a transformer away leaves the layers of the others. -/
theorem filter_entries {l : Layer} {below : List Layer} (hnew : l.tct ∉ below.map Layer.tct) :
    (below.reverse.map Layer.entry).filter (fun r => r ≠ l.entry)
      = below.reverse.map Layer.entry := by
  refine List.filter_eq_self.2 (fun r hr => decide_eq_true ?_)
  obtain ⟨l', hl', rfl⟩ := List.mem_map.1 hr
  intro heq
  have htct : l'.tct = l.tct := Transformer.timeCost.inj (congrArg Prod.snd heq)
  exact hnew (htct ▸ List.mem_map_of_mem (List.mem_reverse.1 hl'))

theorem filter_reset (inst thread : Nat) (tct : Option Nat) (below : List Layer) :
    (below.reverse.map Layer.entry ++ [(inst, Transformer.reset thread tct)]).filter
        (fun r => r ≠ (inst, Transformer.reset thread tct)) = below.reverse.map Layer.entry := by
  have hnone : ∀ r ∈ below.reverse.map Layer.entry,
      decide (r ≠ (inst, Transformer.reset thread tct)) = true := by
    intro r hr
    obtain ⟨l', -, rfl⟩ := List.mem_map.1 hr
    exact decide_eq_true (fun h => by cases congrArg Prod.snd h)
  rw [List.filter_append, List.filter_eq_self.2 hnone]
  simp

/-- The `ResetTransformer` of a layer hands out what the layers below it make of a class. -/
theorem runTransformers_reset {tcts tcts' : Nat → TimeCostTransformer} {l : Layer}
    {below : List Layer} (hsaved : SavedUnder weave classes tcts l below) {c : LoadedClass}
    (hc : c ∈ classes) (hsame : tcts' l.tct = tcts l.tct) (thread : Nat) :
    Jvm.runTransformers weave c [(l.inst, .reset thread (some l.tct))] tcts'
      (runsUnder weave c below) = (runsUnder weave c below, tcts') := by
  simp only [Jvm.runTransformers, Jvm.runTransformer, hsame]
  cases hb : (tcts l.tct).originalClassBytesMap.lookup c.className with
  | none => rfl
  | some b =>
      rw [hsaved c hc b hb]
      rfl

/-- A clean-up takes the last layer from the stack, if it is still there. -/
theorem Mirrors.bootGone (h : Mirrors weave classes s a) (hloader : OneLoader classes)
    (thread : Nat) :
    Mirrors weave classes (s.step weave (.bootGone thread .returned))
      (a.step (.bootGone thread .returned)) := by
  obtain ⟨all, live, calls⟩ := a
  cases all with
  | nil =>
      -- nothing was published, and the clean-up does nothing
      have hstep : s.step weave (.bootGone thread .returned) = s := by
        have hinst : s.agent.config.inst = none := h.inst
        simp [Attempts.step, checkBootExit, exitThread, cleanUp, hinst, Outcome.ret]
      have hstack : Layers.stack ⟨[], live, calls⟩ = [] := by cases live <;> rfl
      rw [hstep]
      refine ⟨h.calls, ?_, ?_, h.inst, h.tct, h.finalClassSet, h.stacked, h.nodup, h.made, h.loaded⟩
      · exact h.registered.trans (by rw [hstack]; rfl)
      · exact fun c hc => (h.installed c hc).trans (by rw [hstack]; rfl)
  | cons l below =>
      obtain ⟨hmethods, hsaved, hbelow⟩ := h.stacked
      obtain ⟨hnew, hnodup⟩ := List.nodup_cons.1 h.nodup
      have hloaded : l.loaded ⊆ classes := h.loaded l (List.mem_cons_self ..)
      have hattached : Attached ⟨s.agent.config, s.agent.jvm, s.manager⟩ l.inst l.tct l.classSet :=
        ⟨h.inst, h.tct, h.finalClassSet⟩
      have hclean := @cleanUp_returned weave thread _ _ _ _ hattached
      set jvm := s.agent.jvm with hjvm
      let between := (jvm.removeTransformer l.inst (.timeCost l.tct)).addTransformer l.inst
        (.reset thread (some l.tct))
      have hremoved : jvm.registered.filter (fun r => r ≠ l.entry)
          = below.reverse.map Layer.entry := by
        rw [h.registered, Layers.stack]
        cases live with
        | true =>
            rw [if_pos rfl, List.reverse_cons, List.map_append, List.filter_append,
              filter_entries hnew]
            simp
        | false => exact filter_entries hnew
      have hreg : between.registered
          = below.reverse.map Layer.entry ++ [(l.inst, .reset thread (some l.tct))] :=
        congrArg (· ++ [(l.inst, Transformer.reset thread (some l.tct))]) hremoved
      obtain ⟨hafter, hother, hinstalled⟩ := retransformClasses_layers hloader hreg hbelow hnodup
        (fun c hc _ hsame => runTransformers_reset hsaved hc (hsame l.tct hnew) thread)
        (l.classSet_subset hloaded)
      have hl : (between.retransformClasses weave l.classSet).tcts l.tct = jvm.tcts l.tct :=
        hother l.tct hnew
      have hstep : s.step weave (.bootGone thread .returned) =
          ⟨{ s.agent with jvm := jvm.detach weave l.inst l.tct thread l.classSet },
            s.manager.canRecord false, s.calls⟩ := by
        simp only [Attempts.step, checkBootExit, exitThread, if_true]
        rw [hclean]
        rfl
      have hstack :
          (Layers.step ⟨l :: below, live, calls⟩ (.bootGone thread .returned)).stack = below := rfl
      rw [hstep]
      refine ⟨h.calls, ?_, fun c hc => ?_, h.inst, h.tct, h.finalClassSet, ?_, h.nodup, h.made,
        h.loaded⟩
      · rw [hstack]
        show (between.retransformClasses weave l.classSet).registered.filter _ = _
        rw [Jvm.registered_retransformClasses, hreg]
        exact filter_reset ..
      · rw [hstack]
        refine (hinstalled c).trans ?_
        split
        · rfl
        · next hout =>
            refine (h.installed c hc).trans ?_
            cases live with
            | true => exact runsUnder_cons_of_not_mem weave hloader below hloaded hc hout
            | false => rfl
      · refine ⟨?_, fun c hc b hb => hsaved c hc b ?_, hafter⟩
        · exact (congrArg TimeCostTransformer.methods hl).trans hmethods
        · exact (congrArg (fun t => t.originalClassBytesMap.lookup c.className) hl).symm.trans hb

theorem Mirrors.step (h : Mirrors weave classes s a) (hloader : OneLoader classes)
    (e : AttachEvent) (hreturns : e.Returns) (hloaded : ∀ env args answer,
      e = .agentmain env args answer → env.allLoadedClassed ⊆ classes) :
    Mirrors weave classes (s.step weave e) (a.step e) := by
  cases e with
  | bootGone thread answer =>
      obtain rfl : answer = .returned := hreturns
      exact h.bootGone hloader thread
  | agentmain env args answer =>
      obtain rfl : answer = .returned := hreturns
      cases hfound : found env args with
      | some methods => exact h.attach hloader hfound (hloaded env args _ rfl)
      | none =>
          obtain ⟨hjvm, hconfig⟩ := @agentmain_of_not_found weave env s.calls s.agent args hfound
          obtain ⟨htct, hinst, hset⟩ := preCheckAndConfig_published env s.agent.config args
          rw [← hconfig] at htct hinst hset
          have hstep :
              a.step (.agentmain env args .returned) = { a with calls := a.calls + 1 } := by
            simp only [Layers.step, hfound]
          have hafter : (s.step weave (.agentmain env args .returned)).agent
              = (agentmain weave env s.calls s.agent args).2 := agentmainEnds_returned
          rw [← hafter] at hjvm htct hinst hset
          rw [hstep]
          refine ⟨congrArg (· + 1) h.calls, ?_, ?_, hinst.trans h.inst, htct.trans h.tct,
            hset.trans h.finalClassSet, ?_, h.nodup,
            fun l hl => (h.made l hl).trans (Nat.lt_succ_self _), h.loaded⟩
          · exact (congrArg Jvm.registered hjvm).trans h.registered
          · exact fun c hc => (congrFun (congrArg Jvm.installed hjvm) c).trans (h.installed c hc)
          · rw [hjvm]
            exact h.stacked

end

/-! ## What is left -/

/-- The classes that are loaded at some attach. -/
def loadedIn (es : List AttachEvent) : List LoadedClass :=
  es.flatMap (fun e =>
    match e with
    | .agentmain env _ _ => env.allLoadedClassed
    | .bootGone _ _ => [])

theorem Mirrors.run {weave : Weave} {classes : List LoadedClass} (hloader : OneLoader classes)
    {es : List AttachEvent} (hreturns : ∀ e ∈ es, e.Returns) (hloaded : loadedIn es ⊆ classes)
    {s : Attempts} {a : Layers} (h : Mirrors weave classes s a) :
    Mirrors weave classes (s.run weave es) (a.run es) := by
  induction es generalizing s a with
  | nil => exact h
  | cons e rest ih =>
      rw [loadedIn, List.flatMap_cons, List.append_subset] at hloaded
      rw [List.forall_mem_cons] at hreturns
      refine ih hreturns.2 hloaded.2 (h.step hloader e hreturns.1 ?_)
      rintro env args answer rfl
      exact hloaded.1

/-- A heartbeat thread finds its boot gone before the next attach is completed. -/
def cleanedUp : List AttachEvent → Bool
  | [] => false
  | .bootGone _ _ :: _ => true
  | .agentmain env args _ :: rest => if (found env args).isSome then false else cleanedUp rest

/-- The completed attaches that are not cleaned up before the next one is completed, when `calls`
    calls of `agentmain` were made before. -/
def remaining (calls : Nat) : List AttachEvent → List Layer
  | [] => []
  | .bootGone _ _ :: rest => remaining calls rest
  | .agentmain env args _ :: rest =>
      match found env args with
      | none => remaining (calls + 1) rest
      | some methods =>
          if cleanedUp rest then remaining (calls + 1) rest
          else ⟨env.inst, calls, methods, env.allLoadedClassed⟩ :: remaining (calls + 1) rest

namespace Layers

theorem stack_run (a : Layers) (es : List AttachEvent) : (a.run es).stack
    = (remaining a.calls es).reverse ++ if cleanedUp es then a.all.tail else a.stack := by
  induction es generalizing a with
  | nil => rfl
  | cons e rest ih =>
      refine (ih (a.step e)).trans ?_
      cases e with
      | bootGone thread answer =>
          rw [remaining, cleanedUp, if_pos rfl]
          exact congrArg _ (ite_self _)
      | agentmain env args answer =>
          cases hfound : found env args with
          | none =>
              simp only [step, hfound, remaining, cleanedUp, Option.isSome_none]
              rfl
          | some methods =>
              simp only [step, hfound, remaining, cleanedUp, Option.isSome_some, if_true]
              by_cases hclean : cleanedUp rest = true
              · simp [hclean]
              · simp [hclean, stack]

end Layers

theorem remaining_eq_nil_iff (calls : Nat) (es : List AttachEvent) : remaining calls es = [] ↔
    ∀ p env args answer q, es = p ++ .agentmain env args answer :: q →
      (found env args).isSome = true → cleanedUp q = true := by
  induction es generalizing calls with
  | nil => simp [remaining]
  | cons e rest ih =>
      have hcons : (∀ p env args answer q, e :: rest = p ++ .agentmain env args answer :: q →
          (found env args).isSome = true → cleanedUp q = true) ↔
          (∀ env args answer, e = .agentmain env args answer → (found env args).isSome = true →
            cleanedUp rest = true) ∧
          ∀ p env args answer q, rest = p ++ .agentmain env args answer :: q →
            (found env args).isSome = true → cleanedUp q = true := by
        constructor
        · exact fun h => ⟨fun env args answer he => h [] env args answer rest (by rw [he]; rfl),
            fun p env args answer q hrest => h (e :: p) env args answer q (by rw [hrest]; rfl)⟩
        · rintro ⟨hfirst, hlater⟩ (_ | ⟨_, p⟩) env args answer q hsplit
          · cases hsplit
            exact hfirst env args answer rfl
          · cases hsplit
            exact hlater p env args answer q rfl
      rw [hcons]
      cases e with
      | bootGone thread answer => simp [remaining, ih]
      | agentmain env args answer =>
          cases hfound : found env args with
          | none => simp [remaining, hfound, ih]
          | some methods =>
              by_cases hclean : cleanedUp rest = true <;> simp [remaining, hfound, hclean, ih]

/-- **What overlapping attaches leave.** Boots attach to one JVM and are found gone, in any order,
    and some attaches fail; no retransformation throws. The transformers that stay are those of the
    completed attaches without a clean-up before the next completed one, and every class runs what
    the last of these that weaves it makes of it. So nothing stays, and every class runs its own
    bytes, exactly when every completed attach is cleaned up before the next one is completed; later
    clean-ups, however many, do not make up for it. -/
theorem overlapping_attaches (weave : Weave) (es : List AttachEvent)
    (hreturns : ∀ e ∈ es, e.Returns) (hloader : OneLoader (loadedIn es)) :
    (Attempts.initial.run weave es).agent.jvm.registered = (remaining 0 es).map Layer.entry ∧
    (∀ c ∈ loadedIn es, (Attempts.initial.run weave es).agent.jvm.installed c
      = runsUnder weave c (remaining 0 es).reverse) ∧
    ((Attempts.initial.run weave es).agent.jvm.registered = [] ↔
      ∀ p env args answer q, es = p ++ .agentmain env args answer :: q →
        (found env args).isSome = true → cleanedUp q = true) := by
  have hmirrors :=
    (Mirrors.initial weave (loadedIn es)).run hloader hreturns (List.Subset.refl _)
  have hstack : (Layers.initial.run es).stack = (remaining 0 es).reverse := by
    rw [Layers.stack_run]
    exact (congrArg _ (ite_self _)).trans (List.append_nil _)
  have hregistered := hmirrors.registered
  rw [hstack, List.reverse_reverse] at hregistered
  refine ⟨hregistered, fun c hc => ?_, ?_⟩
  · rw [hmirrors.installed c hc, hstack]
  · rw [hregistered, List.map_eq_nil_iff]
    exact remaining_eq_nil_iff 0 es

open OneSession in
/-- A second boot attaches before the first one is gone; then both exit. -/
def secondBoot : List AttachEvent :=
  [.agentmain (target.env 0) (some "{}") .returned, .agentmain (target.env 1) (some "{}") .returned,
    .bootGone 0 .returned, .bootGone 1 .returned]

theorem secondBoot_returns : ∀ e ∈ secondBoot, e.Returns := by
  intro e he
  simp only [secondBoot, List.mem_cons, List.not_mem_nil, or_false] at he
  rcases he with rfl | rfl | rfl | rfl <;> rfl

open OneSession in
/-- The first transformer stays, and `p.A` runs what it has woven. -/
theorem secondBoot_remains :
    (Attempts.initial.run target.weave secondBoot).agent.jvm.registered = [(0, .timeCost 0)] ∧
      (Attempts.initial.run target.weave secondBoot).agent.jvm.installed ⟨1, "p.A", [1]⟩
        = [0, 1] := by
  obtain ⟨hregistered, hinstalled, -⟩ :=
    overlapping_attaches target.weave secondBoot secondBoot_returns (by unfold OneLoader; decide)
  rw [hregistered, hinstalled _ (by decide)]
  decide

end Jma
