import Retrograd.Agent.Reach

/-!
# The loop refines its members

The lockstep loop as a program against the world, stage by stage (`Asks`, `Calls`), and what it
comes to: a turn moves every member of the group along the steps of the member system
(`lockstepTurn_moves`), and so do all turns together (`turns_moves`). The only facts used about
the world are that a member has an environment when tools are offered, and that it **honors** the
answers the member system allows.
-/

namespace Retrograd.Agent

open List Option
open Infer (Token)
open Logic
open Training (SamplingParams)

variable {σ ε : Type}

/-! ### Stages and the world -/

/-- Nothing but the policy has moved. -/
structure Keeps (world world' : World σ ε) : Prop where
  environments : world'.environments = world.environments
  renderings : world'.renderings = world.renderings

theorem Keeps.refl {world : World σ ε} : Keeps world world := ⟨rfl, rfl⟩

theorem Keeps.trans {world world' world'' : World σ ε} (h : Keeps world world')
    (h' : Keeps world' world'') : Keeps world world'' :=
  ⟨h'.environments.trans h.environments, h'.renderings.trans h.renderings⟩

/-- A stage that moves nothing but the policy, returns a value with property `P` when it
returns, and fails with an error that has property `E`. -/
def Asks {α : Type} (m : RolloutM σ ε α) (P : α → Prop) (E : Error → Prop) : Prop :=
  ∀ world : World σ ε, wp m (fun a world' => Keeps world world' ∧ P a)
    (fun e world' => Keeps world world' ∧ E e) world

/-- A stage that may step the environments: what it returns is related to them by `R`. -/
def Calls {α : Type} (environments : List ε) (m : RolloutM σ ε α) (R : α → List ε → Prop)
    (E : Error → Prop) : Prop :=
  ∀ world : World σ ε, world.environments = environments →
    wp m (fun a world' => world'.renderings = world.renderings ∧ R a world'.environments)
      (fun e world' => world'.renderings = world.renderings ∧ E e) world

variable {α β : Type} {P P' : α → Prop} {E E' : Error → Prop} {m : RolloutM σ ε α}

namespace Asks

theorem mono (h : Asks m P E) (hP : ∀ a, P a → P' a) (hE : ∀ e, E e → E' e) : Asks m P' E' :=
  fun world => wp_mono (h world) (fun a _ ha => ⟨ha.1, hP a ha.2⟩) fun e _ he => ⟨he.1, hE e he.2⟩

theorem imp (h : Asks m P E) (hP : ∀ a, P a → P' a) : Asks m P' E := h.mono hP fun _ he => he

theorem pure {a : α} (h : P a) : Asks (Pure.pure a : RolloutM σ ε α) P E := fun _ => ⟨.refl, h⟩

theorem throw {e : Error} (h : E e) : Asks (MonadExcept.throw e : RolloutM σ ε α) P E :=
  fun _ => ⟨.refl, h⟩

theorem bind {Q : β → Prop} {f : α → RolloutM σ ε β} (h : Asks m P E)
    (hf : ∀ a, P a → Asks (f a) Q E) : Asks (m >>= f) Q E := fun world =>
  (wp_bind f).mpr <| wp_mono (h world)
    (fun a world' ⟨hkeeps, ha⟩ => wp_mono (hf a ha world')
      (fun _ _ ⟨hkeeps', hb⟩ => ⟨hkeeps.trans hkeeps', hb⟩)
      fun _ _ ⟨hkeeps', he⟩ => ⟨hkeeps.trans hkeeps', he⟩)
    fun _ _ he => he

theorem map {Q : β → Prop} {f : α → β} (h : Asks m (fun a => Q (f a)) E) : Asks (f <$> m) Q E :=
  fun world => (wp_map f).mpr (h world)

/-- A stage whose failure is a value does not fail. -/
theorem settled (h : Asks m P E) : Asks (Agent.settled m)
    (fun result => (∀ a, result = .ok a → P a) ∧ ∀ e, result = .error e → E e)
    fun _ => False := fun world =>
  wp_settle.mpr <| wp_mono (h world)
    (fun _ _ ⟨hkeeps, ha⟩ => ⟨hkeeps, fun _ hb => Except.ok.inj hb ▸ ha, fun _ he => nomatch he⟩)
    fun _ _ ⟨hkeeps, he⟩ => ⟨hkeeps, fun _ hb => (nomatch hb), fun _ h => Except.error.inj h ▸ he⟩

theorem ask {call : σ → Except Error α × σ} :
    Asks (ε := ε) (Agent.ask call) (fun a => ∃ policy, (call policy).1 = .ok a)
      fun e => ∃ policy, (call policy).1 = .error e := by
  refine fun world => wp_intro (fun a world' h => ?_) fun e world' h => ?_
  · unfold Agent.ask at h
    split at h
    · next hcall =>
      cases h
      exact ⟨⟨rfl, rfl⟩, world.policy, by rw [hcall]⟩
    · cases h
  · unfold Agent.ask at h
    split at h
    · cases h
    · next hcall =>
      cases h
      exact ⟨⟨rfl, rfl⟩, world.policy, by rw [hcall]⟩

theorem mapM {l : List α} {f : α → RolloutM σ ε β} {R : α → β → Prop}
    (h : ∀ a ∈ l, Asks (f a) (R a) E) : Asks (l.mapM f) (Forall₂ R l) E := by
  induction l with
  | nil => exact pure .nil
  | cons a rest ih =>
    rw [mapM_cons]
    exact (h a mem_cons_self).bind fun b hb =>
      (ih fun c hc => h c (mem_cons_of_mem a hc)).bind fun bs hbs => pure (.cons hb hbs)

variable {out : Outside σ ε} {engine : Engine}

/-- Without a budget nothing is ever late, and the clock does not fail. -/
theorem isLate : Asks (Agent.isLate out engine)
    (fun late => late = true → 0 < engine.limits.maxRolloutSecs) E := by
  unfold Agent.isLate
  split
  · next hbudget => exact ask.mono (fun _ _ _ => hbudget) fun _ ⟨_, h⟩ => nomatch h
  · exact pure fun h => nomatch h

/-- A stage the deadline may cut short. -/
theorem beforeDeadline (h : Asks m P E) : Asks (Agent.beforeDeadline out engine m)
    (fun result => (∀ a, result = some a → P a) ∧
      (result = none → 0 < engine.limits.maxRolloutSecs)) E := by
  refine isLate.bind fun late hlate => ?_
  split
  · next hyes => exact pure ⟨fun a ha => (nomatch ha), fun _ => hlate hyes⟩
  · exact map (h.imp fun a ha => ⟨fun b hb => some.inj hb ▸ ha, fun hnone => nomatch hnone⟩)

end Asks

namespace Calls

variable {environments : List ε} {R R' : α → List ε → Prop}

theorem mono (h : Calls environments m R E) (hR : ∀ a environments', R a environments' →
    R' a environments') (hE : ∀ e, E e → E' e) : Calls environments m R' E' :=
  fun world hworld => wp_mono (h world hworld) (fun a _ ha => ⟨ha.1, hR a _ ha.2⟩)
    fun e _ he => ⟨he.1, hE e he.2⟩

theorem imp (h : Calls environments m R E) (hR : ∀ a environments', R a environments' →
    R' a environments') : Calls environments m R' E :=
  h.mono hR fun _ he => he

theorem pure {a : α} (h : R a environments) :
    Calls environments (Pure.pure a : RolloutM σ ε α) R E :=
  fun _ hworld => ⟨rfl, by rw [hworld]; exact h⟩

theorem throw {e : Error} (h : E e) :
    Calls environments (MonadExcept.throw e : RolloutM σ ε α) R E :=
  fun _ _ => ⟨rfl, h⟩

theorem bind {Q : β → List ε → Prop} {f : α → RolloutM σ ε β} (h : Calls environments m R E)
    (hf : ∀ a environments', R a environments' → Calls environments' (f a) Q E) :
    Calls environments (m >>= f) Q E := fun world hworld =>
  (wp_bind f).mpr <| wp_mono (h world hworld)
    (fun a world' ⟨hcache, ha⟩ => wp_mono (hf a _ ha world' rfl)
      (fun _ _ ⟨hcache', hb⟩ => ⟨hcache'.trans hcache, hb⟩)
      fun _ _ ⟨hcache', he⟩ => ⟨hcache'.trans hcache, he⟩)
    fun _ _ h' => h'

variable {out : Outside σ ε} {engine : Engine}

/-- A stage that steps the environments, unless the deadline lands first. -/
theorem beforeDeadline (h : Calls environments m R E) :
    Calls environments (Agent.beforeDeadline out engine m)
      (fun result environments' => (∀ a, result = some a → R a environments') ∧
        (result = none → environments' = environments ∧ 0 < engine.limits.maxRolloutSecs)) E := by
  unfold Agent.beforeDeadline
  refine fun world hworld => (wp_bind _).mpr ?_
  refine wp_mono (Asks.isLate (E := E) world) (fun late world' ⟨hkeeps, hlate⟩ => ?_)
    fun _ _ ⟨hkeeps, he⟩ => ⟨hkeeps.renderings, he⟩
  have hworld' := hkeeps.environments.trans hworld
  split
  · next hyes =>
    exact ⟨hkeeps.renderings, fun a ha => (nomatch ha), fun _ => ⟨hworld', hlate hyes⟩⟩
  · refine (wp_map _).mpr (wp_mono (h world' hworld') (fun a _ ⟨hcache, ha⟩ => ?_)
      fun _ _ ⟨hcache, he⟩ => ⟨hcache.trans hkeeps.renderings, he⟩)
    exact ⟨hcache.trans hkeeps.renderings, fun b hb => some.inj hb ▸ ha,
      fun hnone => nomatch hnone⟩

end Calls

/-- A stage that asks leaves the environments as they are. -/
theorem Asks.calls (h : Asks m P E) (environments : List ε) :
    Calls environments m (fun a environments' => environments' = environments ∧ P a) E :=
  fun world hworld => wp_mono (h world)
    (fun _ _ ⟨hkeeps, ha⟩ => ⟨hkeeps.renderings, hkeeps.environments.trans hworld, ha⟩)
    fun _ _ ⟨hkeeps, he⟩ => ⟨hkeeps.renderings, he⟩

/-- A stage that asks, and what comes after it. -/
theorem Asks.then {environments : List ε} {Q : β → List ε → Prop} {f : α → RolloutM σ ε β}
    (h : Asks m P E) (hf : ∀ a, P a → Calls environments (f a) Q E) :
    Calls environments (m >>= f) Q E :=
  (h.calls environments).bind fun a _ ⟨henvs, ha⟩ => henvs ▸ hf a ha

/-! ### The contract -/

/-- A batch that came back: an answer allowed for each request, or anything may be lost. -/
def Answered {γ δ : Type} (allowed : γ → δ → Prop) (lost : Error → Prop) (requests : List γ) :
    Except Error (List δ) → Prop
  | .ok answers => (answers.length = requests.length → List.Forall₂ allowed requests answers) ∧
    (answers.length ≠ requests.length → ∀ e, lost e)
  | .error e => lost e

/-- The world gives no answer that is not allowed. -/
structure Honors (out : Outside σ ε) (engine : Engine) (may : Answers) : Prop where
  generates : ∀ (sharedPrompt : Option (List Token × String)) (turn : ℕ)
    (requests : List (List Token × SamplingParams)),
    (∀ prompt, turn = 0 → sharedPrompt = some prompt → ∀ r ∈ requests, r.1 = prompt.1) →
    Asks (ε := ε) (settled (generate out sharedPrompt turn requests))
      (Answered may.generation may.lost requests) fun _ => False
  renders : ∀ messages specs policy,
    may.render messages specs (out.renderChatFraming messages specs policy).1
  scores : ∀ batch policy,
    Answered may.score may.lost batch (out.scoreMaskedBatch batch policy).1
  late : 0 < engine.limits.maxRolloutSecs → may.late
  notes : ∀ waiting policy e, (out.noteToolWait waiting policy).1 = .error e → may.broken e

/-! ### A turn -/

section Turn

variable {out : Outside σ ε} {engine : Engine} {rendering : ToolRendering} {may : Answers}
  {states : List RolloutState} {environments : List ε}
  {sharedPrompt : Option (List Token × String)} {turn : ℕ}

/-- Without tools no turn waits on an environment. -/
theorem applyTurn_none (state : RolloutState) (generation : PolicyGeneration) :
    (applyTurn engine .none turn state generation).2 = none := by
  unfold applyTurn applyGeneration
  split
  · rfl
  · dsimp only
    split
    · rfl
    · simp [readTurn, expectCall, ToolRendering.declaredTools, ToolRendering.specs]

/-- A walk says nothing of the members it does not name. -/
private theorem updateAll_over {β γ : Type} {update : RolloutState → β → RolloutState × Option γ}
    {entries : List (ℕ × β)} {live : List ℕ} (hnodup : (entries.map Prod.fst).Nodup)
    (hsub : ∀ j ∈ entries.map Prod.fst, j ∈ live)
    (hover : ∀ (j : ℕ) (s : RolloutState), states[j]? = some s → j ∉ live → s.finished = true)
    (j : ℕ) (s : RolloutState) (hs : (updateAll update states entries).1[j]? = some s)
    (hj : j ∉ live) : s.finished = true := by
  rw [updateAll_getElem? hnodup, entryOf_eq_none fun hmem => hj (hsub j hmem)] at hs
  obtain ⟨before, hbefore, rfl⟩ := map_eq_some_iff.mp hs
  exact hover j before hbefore hj

/-- Past the deadline every member is over: the live ones were stopped. -/
private theorem truncate_finished {indices : List ℕ} (hnodup : indices.Nodup)
    (hover : ∀ (j : ℕ) (s : RolloutState), states[j]? = some s → j ∉ indices → s.finished = true)
    {s : RolloutState} (h : s ∈ truncate states indices) : s.finished = true := by
  obtain ⟨j, hj⟩ := mem_iff_getElem?.mp h
  have hfst : (indices.map fun index => (index, ())).map Prod.fst = indices := by
    simp [Function.comp_def]
  rw [truncate, modifyAll_getElem? (hfst.symm ▸ hnodup)] at hj
  obtain ⟨before, hbefore, rfl⟩ := map_eq_some_iff.mp hj
  by_cases hmem : j ∈ indices
  · have hentry : entryOf (indices.map fun index => (index, ())) j = some () :=
      (entryOf_eq_some (hfst.symm ▸ hnodup)).mpr (List.mem_map.mpr ⟨j, hmem, rfl⟩)
    rw [hentry]
    dsimp only
    split
    · assumption
    · rfl
  · rw [entryOf_eq_none (hfst.symm ▸ hmem)]
    exact hover j before hbefore hmem

/-- The environments of the members that wait are stepped, and no other is. -/
theorem stepAll_calls {pending : List (ℕ × ParsedAssistant)}
    (hsorted : (pending.map Prod.fst).Pairwise (· < ·))
    (hbound : ∀ entry ∈ pending, entry.1 < environments.length) :
    Calls environments (stepAll out pending) (fun turns environments' =>
      Forall₂ (fun entry turn => ∃ environment : ε,
        environments[entry.1]? = some environment ∧
        turn = (stepEnvironment out.step environment entry.2).1) pending turns ∧
      ∀ j, environments'[j]? = environments[j]?.map fun environment =>
        match entryOf pending j with
        | some parsed => (stepEnvironment out.step environment parsed).2
        | none => environment) E := by
  rintro world rfl
  obtain ⟨hturns, henvs⟩ := @stepPending_spec ε out.step 0 world.environments pending hsorted
    fun entry he => ⟨Nat.zero_le _, by rw [Nat.zero_add]; exact hbound entry he⟩
  simp only [Nat.zero_add, Nat.sub_zero] at hturns henvs
  exact ⟨rfl, hturns, henvs⟩

theorem concludeTurn_moves {live : List ℕ} {pending : List (ℕ × ParsedAssistant)}
    {turns : List EnvironmentTurn} {environments' : List ε} (hhonors : Honors out engine may)
    (hlive : live.Nodup) (hpending : (pending.map Prod.fst).Nodup)
    (hsub : ∀ j ∈ pending.map Prod.fst, j ∈ live)
    (hover : ∀ (j : ℕ) (s : RolloutState), states[j]? = some s → j ∉ live → s.finished = true)
    (hturns : Forall₂ (fun entry turn => ∃ environment : ε,
      environments[entry.1]? = some environment ∧
      turn = (stepEnvironment out.step environment entry.2).1) pending turns)
    (henvs : ∀ j, environments'[j]? = environments[j]?.map fun environment =>
      match entryOf pending j with
      | some parsed => (stepEnvironment out.step environment parsed).2
      | none => environment) :
    Asks (concludeTurn out engine rendering live states pending turns) (fun result =>
      Moved out engine rendering may (phasesOf (.ofCall turn) pending) states environments
        (fun _ => .idle (turn + 1)) result.1 environments' ∧
      (result.2 = false → ∀ s ∈ result.1, s.finished = true)) E := by
  have hobserved : Moved out engine rendering may (phasesOf (.ofCall turn) pending) states
      environments (phasesOf (.ofObservation turn)
        (updateAll (observe rendering) states ((pending.map Prod.fst).zip turns)).2)
      (updateAll (observe rendering) states ((pending.map Prod.fst).zip turns)).1
      environments' :=
    observed_moved hpending hturns henvs
  have hfst : ((pending.map Prod.fst).zip turns).map Prod.fst = pending.map Prod.fst :=
    map_fst_zip (by rw [length_map, hturns.length_eq])
  have hentries : (((pending.map Prod.fst).zip turns).map Prod.fst).Nodup := hfst.symm ▸ hpending
  have hover' := @updateAll_over states _ _ (observe rendering) _ live hentries (hfst.symm ▸ hsub)
    hover
  have hgoing : ((updateAll (observe rendering) states
      ((pending.map Prod.fst).zip turns)).2.map Prod.fst).Nodup := going_nodup hentries
  unfold concludeTurn
  dsimp only
  split
  · next hnone =>
    -- nobody goes on, so every member is ready for the next turn
    refine Asks.pure ⟨?_, fun h => nomatch h⟩
    rw [List.isEmpty_iff.mp hnone] at hobserved
    exact hobserved
  · have hrenders : Asks ((updateAll (observe rendering) states
        ((pending.map Prod.fst).zip turns)).2.mapM fun entry => renderMember out rendering
          (updateAll (observe rendering) states ((pending.map Prod.fst).zip turns)).1 entry.1)
        (Forall₂ (fun (entry : ℕ × Observation) render => ∀ s : RolloutState,
          (updateAll (observe rendering) states ((pending.map Prod.fst).zip turns)).1[entry.1]? =
            some s → may.render s.messages rendering.templateSpecs render)
          (updateAll (observe rendering) states ((pending.map Prod.fst).zip turns)).2) E := by
      refine Asks.mapM fun entry _ => ?_
      unfold renderMember
      split
      · next hnone => exact Asks.pure fun s hs => nomatch hnone.symm.trans hs
      · next state hstate =>
        refine (Asks.ask.settled).mono (fun render ⟨hok, herror⟩ s hs => ?_) fun _ h => h.elim
        obtain rfl : state = s := some.inj (hstate.symm.trans hs)
        cases render with
        | ok rendered =>
          obtain ⟨policy, hpolicy⟩ := hok rendered rfl
          exact hpolicy ▸ hhonors.renders _ _ policy
        | error e =>
          obtain ⟨policy, hpolicy⟩ := herror e rfl
          exact hpolicy ▸ hhonors.renders _ _ policy
    refine (Asks.beforeDeadline hrenders).bind fun result ⟨hresult, hlate⟩ => ?_
    cases result with
    | none =>
      refine Asks.pure ⟨hobserved.trans (truncate_moved (hhonors.late (hlate rfl)) hlive
        fun j s hs hj => .inr (hover' j s hs hj)), fun _ s hs => ?_⟩
      exact truncate_finished hlive hover' hs
    | some renders =>
      exact Asks.pure ⟨hobserved.trans (folded_moved hgoing (hresult renders rfl)),
        fun h => nomatch h⟩

theorem stepTurn_moves {live : List ℕ} {pending : List (ℕ × ParsedAssistant)}
    (hhonors : Honors out engine may) (hlive : live.Nodup)
    (hsorted : (pending.map Prod.fst).Pairwise (· < ·))
    (hsub : ∀ j ∈ pending.map Prod.fst, j ∈ live)
    (hover : ∀ (j : ℕ) (s : RolloutState), states[j]? = some s → j ∉ live → s.finished = true)
    (hbound : ∀ entry ∈ pending, entry.1 < environments.length) :
    Calls environments (stepTurn out engine rendering live states pending)
      (fun result environments' =>
        Moved out engine rendering may (phasesOf (.ofCall turn) pending) states environments
          (fun _ => .idle (turn + 1)) result.1 environments' ∧
        (result.2 = false → ∀ s ∈ result.1, s.finished = true)) may.broken := by
  have hpending : (pending.map Prod.fst).Nodup := hsorted.imp fun h => Nat.ne_of_lt h
  have hnote : ∀ waiting, Asks (ε := ε) (ask (out.noteToolWait waiting)) (fun _ => True)
      may.broken := fun waiting =>
    Asks.ask.mono (fun _ _ => trivial) fun e ⟨policy, he⟩ => hhonors.notes waiting policy e he
  unfold stepTurn
  split
  · next hnone =>
    rw [List.isEmpty_iff.mp hnone]
    exact Calls.pure ⟨.refl, fun h => nomatch h⟩
  · refine (hnote true).then fun _ _ => ?_
    refine (Calls.beforeDeadline (stepAll_calls hsorted hbound)).bind
      fun result environments' ⟨hresult, hlate⟩ => ?_
    refine (hnote false).then fun _ _ => ?_
    cases result with
    | none =>
      obtain ⟨rfl, hbudget⟩ := hlate rfl
      exact Calls.pure ⟨truncate_moved (hhonors.late hbudget) hlive
        fun j s hs hj => .inr (hover j s hs hj), fun _ s hs => truncate_finished hlive hover hs⟩
    | some turns =>
      obtain ⟨hturns, henvs⟩ := hresult turns rfl
      exact ((concludeTurn_moves hhonors hlive hpending hsub hover hturns henvs).calls _).imp
        fun _ _ ⟨henv, h⟩ => henv ▸ h

theorem generatedTurn_moves {live : List ℕ} {generated : Except Error (List PolicyGeneration)}
    (hhonors : Honors out engine may) (hmore : turn < engine.limits.maxTurns)
    (hsorted : live.Pairwise (· < ·))
    (hlive : ∀ j ∈ live, ∃ s, states[j]? = some s ∧ s.finished = false ∧
      s.tokens.length < engine.limits.maxTrajectoryTokens)
    (hover : ∀ (j : ℕ) (s : RolloutState), states[j]? = some s → j ∉ live → s.finished = true)
    (hequipped : rendering = .none ∨ environments.length = states.length)
    (hgen : ∀ l, generated = .ok l → l.length = live.length →
      ∀ (j : ℕ) (s : RolloutState) (generation : PolicyGeneration), states[j]? = some s →
        (j, generation) ∈ live.zip l →
        may.generation (turnRequest engine.limits turn s) generation)
    (hlost : ∀ e, generated = .error e → may.lost e)
    (hmiscounted : ∀ l, generated = .ok l → l.length ≠ live.length → ∀ e, may.lost e) :
    Calls environments (generatedTurn out engine rendering turn live states generated)
      (fun result environments' =>
        Moved out engine rendering may (fun _ => .idle turn) states environments
          (fun _ => .idle (turn + 1)) result.1 environments' ∧
        (result.2 = false → ∀ s ∈ result.1, s.finished = true)) may.broken := by
  have hnodup : live.Nodup := hsorted.imp fun h => Nat.ne_of_lt h
  unfold generatedTurn
  cases generated with
  | error e =>
    exact Calls.pure ⟨failAll_moved (hlost e rfl) hnodup hover, fun h => nomatch h⟩
  | ok l =>
    dsimp only
    split
    · next hlen =>
      exact Calls.pure ⟨failAll_moved (hmiscounted l rfl hlen _) hnodup hover,
        fun h => nomatch h⟩
    · next hlen =>
      have hlen : l.length = live.length := by omega
      have hmoved : Moved out engine rendering may (fun _ => .idle turn) states environments
          (phasesOf (.ofCall turn)
            (updateAll (applyTurn engine rendering turn) states (live.zip l)).2)
          (updateAll (applyTurn engine rendering turn) states (live.zip l)).1 environments :=
        generated_moved hmore hlen hnodup hlive hover (hgen l rfl hlen)
      have hfst : (live.zip l).map Prod.fst = live := map_fst_zip (by omega)
      have hentries : ((live.zip l).map Prod.fst).Nodup := hfst.symm ▸ hnodup
      have hsublist : ((updateAll (applyTurn engine rendering turn) states
          (live.zip l)).2.map Prod.fst).Sublist live := by
        have hnamed := @updateAll_sublist _ _ _ states (applyTurn engine rendering turn) hentries
        rwa [hfst] at hnamed
      have hpend : ∀ entry ∈ (updateAll (applyTurn engine rendering turn) states
          (live.zip l)).2, entry.1 < environments.length := by
        intro entry hentry
        rcases hequipped with rfl | hn
        · rw [updateAll_going hentries, mem_filterMap] at hentry
          obtain ⟨e, -, he⟩ := hentry
          obtain ⟨s, -, he⟩ := bind_eq_some_iff.mp he
          rw [applyTurn_none] at he
          cases he
        · obtain ⟨s, hs, -⟩ := hlive entry.1 (hsublist.subset (List.mem_map_of_mem hentry))
          exact hn ▸ (List.getElem?_eq_some_iff.mp hs).1
      exact (stepTurn_moves hhonors hnodup (hsorted.sublist hsublist)
        (fun j hj => hsublist.subset hj)
        (updateAll_over hentries (fun j hj => hfst ▸ hj) hover) hpend).imp
          fun _ _ ⟨h, hend⟩ => ⟨hmoved.trans h, hend⟩

/-- The requests of a turn, by the member they are for. -/
theorem requests_getElem? {α : Type} {f : RolloutState → α} {live : List ℕ}
    (hlive : ∀ j ∈ live, ∃ s, states[j]? = some s) (k : ℕ) :
    (live.filterMap fun index => states[index]?.map f)[k]? =
      live[k]?.bind fun index => states[index]?.map f := by
  induction live generalizing k with
  | nil => simp
  | cons j rest ih =>
    obtain ⟨s, hs⟩ := hlive j mem_cons_self
    rw [filterMap_cons, hs]
    cases k with
    | zero => simp [hs]
    | succ k => simpa using ih (fun i hi => hlive i (mem_cons_of_mem _ hi)) k

theorem requests_length {α : Type} {f : RolloutState → α} {live : List ℕ}
    (hlive : ∀ j ∈ live, ∃ s, states[j]? = some s) :
    (live.filterMap fun index => states[index]?.map f).length = live.length := by
  induction live with
  | nil => rfl
  | cons j rest ih =>
    obtain ⟨s, hs⟩ := hlive j mem_cons_self
    rw [filterMap_cons, hs]
    simpa using ih fun i hi => hlive i (mem_cons_of_mem _ hi)

theorem liveTurn_moves {live : List ℕ} (hhonors : Honors out engine may)
    (hmore : turn < engine.limits.maxTurns) (hsorted : live.Pairwise (· < ·))
    (hlive : ∀ j ∈ live, ∃ s, states[j]? = some s ∧ s.finished = false ∧
      s.tokens.length < engine.limits.maxTrajectoryTokens)
    (hover : ∀ (j : ℕ) (s : RolloutState), states[j]? = some s → j ∉ live → s.finished = true)
    (hequipped : rendering = .none ∨ environments.length = states.length)
    (hshared : ∀ prompt, turn = 0 → sharedPrompt = some prompt → ∀ s ∈ states,
      s.finished = false → s.tokens = prompt.1) :
    Calls environments (liveTurn out engine rendering sharedPrompt turn live states)
      (fun result environments' =>
        Moved out engine rendering may (fun _ => .idle turn) states environments
          (fun _ => .idle (turn + 1)) result.1 environments' ∧
        (result.2 = false → ∀ s ∈ result.1, s.finished = true)) may.broken := by
  have hstate : ∀ j ∈ live, ∃ s, states[j]? = some s := fun j hj =>
    (hlive j hj).imp fun _ h => h.1
  have hcontexts : ∀ prompt, turn = 0 → sharedPrompt = some prompt →
      ∀ r ∈ live.filterMap (fun index => states[index]?.map (turnRequest engine.limits turn)),
        r.1 = prompt.1 := by
    intro prompt hturn hprompt r hr
    obtain ⟨j, hj, hr⟩ := mem_filterMap.mp hr
    obtain ⟨s, hs, rfl⟩ := map_eq_some_iff.mp hr
    obtain ⟨s', hs', hunfinished, -⟩ := hlive j hj
    obtain rfl : s = s' := some.inj (hs.symm.trans hs')
    exact hshared prompt hturn hprompt s (mem_of_getElem? hs) hunfinished
  have hcount := @requests_length states _ (turnRequest engine.limits turn) live hstate
  unfold liveTurn
  refine (Asks.beforeDeadline ((hhonors.generates sharedPrompt turn _ hcontexts).mono
    (fun _ h => h) fun _ h => h.elim)).then fun result ⟨hresult, hlate⟩ => ?_
  cases result with
  | none =>
    have hnodup : live.Nodup := hsorted.imp fun h => Nat.ne_of_lt h
    exact Calls.pure ⟨truncate_moved (hhonors.late (hlate rfl)) hnodup
      fun j s hs hj => .inr (hover j s hs hj), fun _ s hs => truncate_finished hnodup hover hs⟩
  | some generated =>
    have hanswered := hresult generated rfl
    refine generatedTurn_moves hhonors hmore hsorted hlive hover hequipped
      (fun l hl hlen j s generation hs hmem => ?_) (fun e he => ?_) fun l hl hlen e => ?_
    · subst hl
      obtain ⟨k, hk⟩ := mem_iff_getElem?.mp hmem
      obtain ⟨hj, hgeneration⟩ := getElem?_zip_eq_some.mp hk
      obtain ⟨request, hrequest, hallowed⟩ :=
        forall₂_getElem? (hanswered.1 (hlen.trans hcount.symm)) hgeneration
      rw [requests_getElem? hstate, hj, bind_some, hs, map_some,
        some.injEq] at hrequest
      exact hrequest ▸ hallowed
    · subst he
      exact hanswered
    · subst hl
      exact hanswered.2 (by omega) e

/-- **One turn of the group** moves every member along its own steps, and the loop only ends
early when every member is over. -/
theorem lockstepTurn_moves (hhonors : Honors out engine may)
    (hmore : turn < engine.limits.maxTurns)
    (hequipped : rendering = .none ∨ environments.length = states.length)
    (hshared : ∀ prompt, turn = 0 → sharedPrompt = some prompt → ∀ s ∈ states,
      s.finished = false → s.tokens = prompt.1) :
    Calls environments (lockstepTurn out engine rendering sharedPrompt turn states)
      (fun result environments' =>
        Moved out engine rendering may (fun _ => .idle turn) states environments
          (fun _ => .idle (turn + 1)) result.1 environments' ∧
        (result.2 = false → ∀ s ∈ result.1, s.finished = true)) may.broken := by
  unfold lockstepTurn
  refine Asks.isLate.then fun expired hexpired => ?_
  generalize hstates : (if expired then truncate states (List.range states.length) else states) =
    current
  have hall : ∀ (j : ℕ) (s : RolloutState), states[j]? = some s → j ∉ List.range states.length →
      s.finished = true := fun j s hs hj =>
    absurd (mem_range.mpr (List.getElem?_eq_some_iff.mp hs).1) hj
  have hcurrent : Moved out engine rendering may (fun _ => .idle turn) states environments
      (fun _ => .idle turn) current environments := by
    subst hstates
    split
    · next hyes =>
      exact truncate_moved (hhonors.late (hexpired hyes)) nodup_range fun _ _ _ _ => .inl rfl
    · exact .refl
  have hopened := hcurrent.trans (openTurn_moved hmore)
  dsimp only
  split
  · next hnone =>
    have hover : ∀ s ∈ (openTurn engine.limits current).1, s.finished = true := by
      intro s hs
      obtain ⟨j, hj⟩ := mem_iff_getElem?.mp hs
      exact openTurn_over hj (by rw [List.isEmpty_iff.mp hnone]; exact not_mem_nil)
    refine Calls.pure ⟨⟨hopened.length, hopened.equipment, fun j s s' hs hs' => ?_⟩,
      fun _ => hover⟩
    exact (hopened.reach j s s' hs hs').tail
      (.settle _ _ s' _ (hover s' (mem_of_getElem? hs')))
  · refine (liveTurn_moves hhonors hmore (pairwise_lt_range.filter _) (fun j hj => ?_)
      (fun j s hs hj => openTurn_over hs hj) ?_
      fun prompt hturn hprompt s hs hunfinished => ?_).imp
        fun _ _ ⟨h, hend⟩ => ⟨hopened.trans h, hend⟩
    · obtain ⟨s, hs, -, hlive⟩ := openTurn_live hj
      exact ⟨s, hs, hlive⟩
    · exact hequipped.imp_right fun h => h.trans hopened.length.symm
    · -- a member that still runs was not touched by the deadline or by its budget
      obtain ⟨before, hbefore, hstop⟩ := List.mem_map.mp hs
      have hsame : before = s := by
        split at hstop
        · rw [← hstop] at hunfinished
          simp [RolloutState.stop] at hunfinished
        · exact hstop
      subst hsame hstates
      split at hbefore
      · rw [truncate_finished nodup_range hall hbefore] at hunfinished
        cases hunfinished
      · exact hshared prompt hturn hprompt before hbefore hunfinished

/-- **All turns of the group** move every member along its own steps, up to the last turn. -/
theorem turns_moves (hhonors : Honors out engine may) (remaining : ℕ)
    (hturns : turn + remaining = engine.limits.maxTurns)
    (hequipped : rendering = .none ∨ environments.length = states.length)
    (hshared : ∀ prompt, turn = 0 → sharedPrompt = some prompt → ∀ s ∈ states,
      s.finished = false → s.tokens = prompt.1) :
    Calls environments (turns out engine rendering sharedPrompt remaining turn states)
      (Moved out engine rendering may (fun _ => .idle turn) states environments
        (fun _ => .idle engine.limits.maxTurns)) may.broken := by
  induction remaining generalizing turn states environments with
  | zero =>
    rw [Nat.add_zero] at hturns
    exact Calls.pure (hturns ▸ .refl)
  | succ remaining ih =>
    refine (lockstepTurn_moves hhonors (by omega) hequipped hshared).bind
      fun result environments' ⟨hmoved, hend⟩ => ?_
    obtain ⟨states', again⟩ := result
    dsimp only at hmoved hend ⊢
    split
    · refine (ih (by omega) (hequipped.imp_right fun h => ?_)
        fun _ hturn => absurd hturn (Nat.succ_ne_zero turn)).imp fun _ _ h => hmoved.trans h
      rw [hmoved.equipment, hmoved.length, h]
    · next hagain =>
      -- every member is over, so the turns that are left would not touch it
      refine Calls.pure ⟨hmoved.length, hmoved.equipment, fun j s s' hs hs' => ?_⟩
      exact (hmoved.reach j s s' hs hs').tail
        (.settle _ _ s' _ (hend (by simpa using hagain) s' (mem_of_getElem? hs')))

end Turn

end Retrograd.Agent
