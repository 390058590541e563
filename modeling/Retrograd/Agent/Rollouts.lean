import Retrograd.Agent.Refine

/-!
# Whole rollouts

A rollout from end to end: what it opens its members on, the steps they take, and how a member
that is left becomes a trajectory. `rolloutMany_trajectory` says where every returned trajectory
comes from: **a run of the member system from an opening member, scored and finished**. A property
of trajectories is proved from there by induction on the steps, with no loop in sight.

An engine serves many rollouts and caches how it renders a catalog, so the statement is about
every engine state that rollouts can leave behind (`Served`).
-/

namespace Retrograd.Agent

open List Option
open Infer (Token)
open Logic
open Training (SamplingParams)

variable {σ ε : Type} {out : Outside σ ε} {engine : Engine}

variable {world : World σ ε}

/-- A stage the deadline may cut short, run on the same world up to the policy's state. -/
theorem wp_beforeDeadline {α : Type} {stage : RolloutM σ ε α} {Q : Option α → World σ ε → Prop}
    {E : Error → World σ ε → Prop} (hlate : ∀ policy, Q none { world with policy })
    (hstage : ∀ policy, wp stage (fun a world' => Q (some a) world') E { world with policy }) :
    wp (beforeDeadline out engine stage) Q E world := by
  have hclock : wp (isLate out engine) (fun _ world' => ∃ policy, world' = { world with policy })
      (fun _ _ => False) world := by
    unfold isLate
    split
    · exact ⟨(out.late world.policy).2, rfl⟩
    · exact ⟨world.policy, rfl⟩
  unfold beforeDeadline
  rw [wp_bind]
  refine wp_mono hclock (fun late world' ⟨policy, hworld⟩ => ?_) fun _ _ h => h.elim
  subst hworld
  split
  · exact hlate policy
  · exact (wp_map _).mpr (hstage policy)

/-! ### The rendering -/

/-- A rendering the engine can have decided on: a prompt-described catalog comes with its own
instructions. -/
def Resolved (out : Outside σ ε) (rendering : ToolRendering) : Prop :=
  ∀ instructions specs, rendering = .prompt instructions specs →
    promptToolInstructions out.encode (specs.map TemplateTool.ofSpec) = .ok instructions

/-- Every rendering the engine keeps is one it decided on. -/
def CacheSound (out : Outside σ ε) (world : World σ ε) : Prop :=
  ∀ entry ∈ world.renderings, Resolved out entry.2

variable {rendering : ToolRendering}

theorem resolveToolRenderingWith_resolved {native : Bool} {parser : Option Parser}
    {specs : List ToolSpec} (h : resolveToolRenderingWith out native parser specs = .ok rendering) :
    Resolved out rendering := by
  unfold resolveToolRenderingWith at h
  split at h
  · cases h
    exact fun _ _ h => nomatch h
  · obtain ⟨instructions, hinstructions, h⟩ := ok_of_bind h
    cases h
    intro instructions' specs' h
    cases h
    exact hinstructions

theorem resolveToolRendering_asks (specs : List ToolSpec) :
    Asks (resolveToolRendering out specs) (Resolved out) fun _ => True := by
  unfold resolveToolRendering
  split
  · exact Asks.pure fun _ _ h => nomatch h
  · refine (Asks.ask.mono (fun _ _ => trivial) fun _ _ => trivial).bind fun native _ => ?_
    have hparser : Asks (toolCallParser out native specs) (fun _ => True) fun _ => True := by
      unfold toolCallParser
      split
      · exact Asks.ask.mono (fun _ _ => trivial) fun _ _ => trivial
      · exact Asks.pure trivial
    refine hparser.bind fun parser _ => ?_
    split
    · exact Asks.throw trivial
    · next hresolved => exact Asks.pure (resolveToolRenderingWith_resolved hresolved)

/-- Deciding on a rendering keeps the cache sound, and the environments where they are. -/
theorem cachedRendering_spec (specs : List ToolSpec) (hsound : CacheSound out world) :
    wp (cachedRendering out specs) (fun rendering world' => (world'.environments =
        world.environments ∧ CacheSound out world') ∧ Resolved out rendering)
      (fun _ world' => CacheSound out world') world := by
  unfold cachedRendering
  cases out.encode (.array (specs.map specJson)) with
  | error e => exact hsound
  | ok key =>
    dsimp only
    rw [wp_bind, wp_get]
    cases hfind : world.renderings.find? fun entry => entry.1 = key with
    | some entry => exact ⟨⟨rfl, hsound⟩, hsound entry (mem_of_find?_eq_some hfind)⟩
    | none =>
      dsimp only
      rw [wp_bind]
      refine wp_mono (resolveToolRendering_asks specs world)
        (fun rendering world' ⟨hkeeps, hresolved⟩ => ?_) fun _ world' ⟨hkeeps, _⟩ => ?_
      · rw [wp_bind, wp_modify]
        refine ⟨⟨hkeeps.environments, fun entry hentry => ?_⟩, hresolved⟩
        rcases mem_append.mp hentry with hold | hnew
        · exact hsound entry (hkeeps.renderings ▸ hold)
        · rw [mem_singleton.mp hnew]
          exact hresolved
      · intro entry hentry
        exact hsound entry (hkeeps.renderings ▸ hentry)

theorem toolRendering_spec (hsound : CacheSound out world) :
    wp (toolRendering out) (fun rendering world' => (world'.environments =
        world.environments ∧ CacheSound out world') ∧ Resolved out rendering ∧
          (world.environments = [] → rendering = .none))
      (fun _ world' => CacheSound out world') world := by
  unfold toolRendering
  rw [wp_bind, wp_get]
  split
  · next hnone => exact ⟨⟨rfl, hsound⟩, fun _ _ h => (nomatch h), fun _ => rfl⟩
  · next environment rest hsome =>
    cases out.tools environment with
    | error e => exact hsound
    | ok specs =>
      refine wp_mono (cachedRendering_spec specs hsound)
        (fun rendering world' ⟨hkeep, hresolved⟩ => ⟨hkeep, hresolved, fun hnil => ?_⟩)
        fun _ _ h => h
      rw [hsome] at hnil
      cases hnil

/-! ### The opening -/

/-- How a member opens: what its environment opens with, and the environment it goes on with. -/
def resetOf (out : Outside σ ε) (environment : Option ε) (seed : UInt64) :
    Except Error (Option String) × Option ε :=
  match environment with
  | none => (.ok none, none)
  | some environment => ((out.reset environment seed).1, some (out.reset environment seed).2)

/-- The openings of a group, each from its member's own environment and seed. -/
structure Openings (out : Outside σ ε) (environments : List ε) (seeds : List UInt64)
    (openings : List (Except Error (Option String))) (environments' : List ε) : Prop where
  length : openings.length = seeds.length
  equipment : environments'.length = environments.length
  opening : ∀ (j : ℕ) (seed : UInt64), seeds[j]? = some seed →
    openings[j]? = some (resetOf out environments[j]? seed).1 ∧
      environments'[j]? = (resetOf out environments[j]? seed).2

variable {seeds : List UInt64}

theorem openAll_calls {environments : List ε}
    (hcount : environments = [] ∨ environments.length = seeds.length) :
    Calls environments (openAll out engine seeds) (Openings out environments seeds)
      fun _ => 0 < engine.limits.maxRolloutSecs := by
  rintro world rfl
  unfold openAll
  rw [wp_bind, wp_get]
  split
  · next hnone =>
    have hnil : world.environments = [] := List.isEmpty_iff.mp hnone
    refine ⟨rfl, length_map .., rfl, fun j seed hseed => ?_⟩
    rw [hnil, getElem?_map, hseed]
    exact ⟨rfl, rfl⟩
  · next hsome =>
    have hlen : world.environments.length = seeds.length :=
      hcount.resolve_left fun hnil => hsome (by simp [hnil])
    have hreset : Calls world.environments (resetAll out seeds)
        (Openings out world.environments seeds) fun _ => 0 < engine.limits.maxRolloutSecs := by
      rintro world' hworld'
      refine ⟨rfl, ?_, ?_, fun j seed hseed => ?_⟩
      · simp [hworld', hlen]
      · simp [hworld', hlen]
      · have hj : j < world.environments.length :=
          hlen ▸ (List.getElem?_eq_some_iff.mp hseed).1
        simp [hworld', getElem?_zipWith, getElem?_eq_getElem hj, hseed, resetOf]
    refine (Calls.beforeDeadline hreset).bind (fun result environments' h => ?_) world rfl
    obtain ⟨hresult, hlate⟩ := h
    cases result with
    | none => exact Calls.throw (hlate rfl).2
    | some openings => exact Calls.pure (hresult openings rfl)

/-- The prompt a render leaves, when there is room to answer in. -/
def promptOf (engine : Engine) (render : Except Error RenderedFraming) :
    Except Error (List Token × String) :=
  match render with
  | .error error => .error error
  | .ok rendered =>
    if rendered.tail.isEmpty || engine.limits.maxTrajectoryTokens ≤ rendered.tail.length then
      .error (.invalid "rendered scenario leaves no room in max_trajectory_tokens")
    else .ok (rendered.tail, rendered.framing.tail)

variable {prompt : List Token × String}

/-- A prompt is not empty and leaves room. -/
theorem promptOf_room {render : Except Error RenderedFraming}
    (h : promptOf engine render = .ok prompt) :
    prompt.1 ≠ [] ∧ prompt.1.length < engine.limits.maxTrajectoryTokens := by
  unfold promptOf at h
  split at h
  · cases h
  · next rendered =>
    split at h
    · cases h
    · next hroom =>
      cases h
      simp only [Bool.or_eq_true, decide_eq_true_eq, not_or, Nat.not_le,
        List.isEmpty_iff] at hroom
      exact hroom

variable {may : Answers}

theorem renderPrompt_asks {messages : List Message} (hhonors : Honors out engine may) :
    Asks (ε := ε) (renderPrompt out engine messages rendering)
      (fun prompt => ∃ render, may.render messages rendering.templateSpecs render ∧
        promptOf engine render = .ok prompt)
      fun e => ∃ render, may.render messages rendering.templateSpecs render ∧
        promptOf engine render = .error e := by
  have hrender : Asks (ε := ε) (renderFraming out messages rendering)
      (fun rendered => may.render messages rendering.templateSpecs (.ok rendered))
      fun e => may.render messages rendering.templateSpecs (.error e) :=
    Asks.ask.mono (fun _ ⟨policy, h⟩ => h ▸ hhonors.renders messages _ policy)
      fun _ ⟨policy, h⟩ => h ▸ hhonors.renders messages _ policy
  unfold renderPrompt
  refine (hrender.mono (fun _ h => h) fun e he => ⟨_, he, rfl⟩).bind fun rendered hrendered => ?_
  split
  · next hfull => exact Asks.throw ⟨_, hrendered, by rw [promptOf, if_pos hfull]⟩
  · next hroom => exact Asks.pure ⟨_, hrendered, by rw [promptOf, if_neg hroom]⟩

/-- What the renders of an opening come to: what each member's own render leaves, and the same
prompt for all of them when they share it. -/
structure Prompts (engine : Engine) (may : Answers) (messages : List Message)
    (rendering : ToolRendering) (openings : List (Except Error (Option String)))
    (result : Option (List Token × String) × List (Except Error (List Token × String))) :
    Prop where
  length : result.2.length = openings.length
  shared : ∀ prompt, result.1 = some prompt → ∀ p ∈ result.2, p = .ok prompt
  rendered : ∀ (j : ℕ) (opening : Except Error (Option String)), openings[j]? = some opening →
    ∃ render, may.render (openingMessages messages opening) rendering.templateSpecs render ∧
      result.2[j]? = some (promptOf engine render)

variable {openings : List (Except Error (Option String))} {opening : Except Error (Option String)}

private theorem openingMessages_shared {messages : List Message}
    (hshared : sharesPrompt openings = true) (h : opening ∈ openings) :
    openingMessages messages opening = messages := by
  have hopening := List.all_eq_true.mp hshared opening h
  unfold openingMessages
  split
  · simp at hopening
  · rfl

theorem renderPrompts_asks {messages : List Message} (hhonors : Honors out engine may) :
    Asks (ε := ε) (renderPrompts out engine messages openings rendering)
      (Prompts engine may messages rendering openings)
      fun _ => 0 < engine.limits.maxRolloutSecs ∨ sharesPrompt openings = true ∧
        ∃ render e, may.render messages rendering.templateSpecs render ∧
          promptOf engine render = .error e := by
  unfold renderPrompts
  split
  · next hshared =>
    refine (Asks.beforeDeadline ((renderPrompt_asks hhonors).mono (fun _ h => h)
      fun e ⟨render, hrender, he⟩ => .inr ⟨hshared, render, e, hrender, he⟩)).bind
        fun result ⟨hresult, hlate⟩ => ?_
    cases result with
    | none => exact Asks.throw (.inl (hlate rfl))
    | some prompt =>
      obtain ⟨render, hrender, hprompt⟩ := hresult prompt rfl
      refine Asks.pure ⟨length_map .., fun p hp q hq => ?_, fun j opening hopening => ?_⟩
      · cases hp
        obtain ⟨_, -, rfl⟩ := List.mem_map.mp hq
        rfl
      · refine ⟨render, ?_, by rw [getElem?_map, hopening, map_some, hprompt]⟩
        rw [openingMessages_shared hshared (mem_of_getElem? hopening)]
        exact hrender
  · have hrenders : Asks (ε := ε) (openings.mapM fun opening => settled
        (renderPrompt out engine (openingMessages messages opening) rendering))
        (Forall₂ (fun opening prompt => ∃ render,
          may.render (openingMessages messages opening) rendering.templateSpecs render ∧
            prompt = promptOf engine render) openings)
        fun _ => 0 < engine.limits.maxRolloutSecs ∨ sharesPrompt openings = true ∧
          ∃ render e, may.render messages rendering.templateSpecs render ∧
            promptOf engine render = .error e := by
      refine Asks.mapM fun opening _ => ((renderPrompt_asks hhonors).settled).mono
        (fun prompt ⟨hok, herror⟩ => ?_) fun _ h => h.elim
      cases prompt with
      | ok prompt => exact (hok prompt rfl).imp fun _ ⟨h, hp⟩ => ⟨h, hp.symm⟩
      | error e => exact (herror e rfl).imp fun _ ⟨h, hp⟩ => ⟨h, hp.symm⟩
    refine (Asks.beforeDeadline hrenders).bind fun result ⟨hresult, hlate⟩ => ?_
    cases result with
    | none => exact Asks.throw (.inl (hlate rfl))
    | some prompts =>
      have hall := hresult prompts rfl
      refine Asks.pure ⟨hall.length_eq.symm, fun _ h => (nomatch h), fun j opening hopening => ?_⟩
      have hj : j < prompts.length :=
        hall.length_eq ▸ (List.getElem?_eq_some_iff.mp hopening).1
      obtain ⟨_, hown, render, hrender, hprompt⟩ :=
        forall₂_getElem? hall (getElem?_eq_getElem hj)
      obtain rfl := some.inj (hopening.symm.trans hown)
      exact ⟨render, hrender, by rw [getElem?_eq_getElem hj, hprompt]⟩

/-- The members a shared prompt opens all stand on it, as long as they run. -/
private theorem openMember_shared {messages : List Message} {seed : UInt64}
    (h : (openMember messages seed opening (.ok prompt)).finished = false) :
    (openMember messages seed opening (.ok prompt)).tokens = prompt.1 := by
  cases opening with
  | ok text => rfl
  | error e => simp [openMember, RolloutState.fail] at h

/-! ### The scores -/

/-- What the rescore does to a member: nothing when it failed before, a failure, or its scores. -/
inductive Scored (may : Answers) (state : RolloutState) : RolloutState → Prop where
  | failed (h : state.failure.isSome = true) : Scored may state state
  | lost (error : Error) (h : may.late ∨ may.lost error) :
    Scored may state (state.fail error.duplicate)
  | scored (scores : List Float32) (live : state.failure = none)
    (h : may.score (state.tokens, state.trainMask) scores) :
    Scored may state { state with oldLogprobs := some scores }

section Scores

variable {states : List RolloutState}

private theorem scorable_nodup : (scorable states).Nodup := nodup_range.filter _

private theorem mem_scorable {j : ℕ} :
    j ∈ scorable states ↔ ∃ state, states[j]? = some state ∧ state.failure = none := by
  simp only [scorable, mem_filter, mem_range, Option.any_eq_true, isNone_iff_eq_none]
  exact ⟨fun h => h.2, fun h => ⟨(List.getElem?_eq_some_iff.mp h.choose_spec.1).1, h⟩⟩

/-- The batch to score, by the member each row is of. -/
private theorem batch_getElem? (k : ℕ) :
    ((scorable states).filterMap fun index => states[index]?.map fun state =>
      (state.tokens, state.trainMask))[k]? =
      (scorable states)[k]?.bind fun index => states[index]?.map fun state =>
        (state.tokens, state.trainMask) :=
  requests_getElem? (fun _ hj => (mem_scorable.mp hj).imp fun _ h => h.1) k

/-- A batch that failed fails its members, and the others had failed before. -/
private theorem failAll_scored {error : Error} (herror : may.late ∨ may.lost error) {j : ℕ}
    {state' : RolloutState} (h : (failAll states (scorable states) error)[j]? = some state') :
    ∃ state, states[j]? = some state ∧ Scored may state state' := by
  have hfst : ((scorable states).map fun index => (index, ())).map Prod.fst = scorable states := by
    simp [Function.comp_def]
  rw [failAll, modifyAll_getElem? (hfst.symm ▸ scorable_nodup)] at h
  obtain ⟨state, hs, hstate'⟩ := map_eq_some_iff.mp h
  refine ⟨state, hs, ?_⟩
  split at hstate'
  · exact hstate' ▸ .lost error herror
  · next hnone =>
    subst hstate'
    refine .failed ?_
    by_contra hsome
    have hmem : j ∈ scorable states :=
      mem_scorable.mpr ⟨state, hs, by simpa using hsome⟩
    have hentry : entryOf ((scorable states).map fun index => (index, ())) j = some () :=
      (entryOf_eq_some (hfst.symm ▸ scorable_nodup)).mpr (List.mem_map.mpr ⟨j, hmem, rfl⟩)
    cases hnone.symm.trans hentry

variable {scores : Option (Except Error (List (List Float32)))}

theorem applyScores_scored (hlate : scores = none → may.late)
    (hscores : ∀ result, scores = some result → Answered may.score may.lost ((scorable states).filterMap fun index => states[index]?.map fun state => (state.tokens, state.trainMask)) result)
    {j : ℕ} {state' : RolloutState}
    (h : (applyScores states (scorable states) scores)[j]? = some state') :
    ∃ state, states[j]? = some state ∧ Scored may state state' := by
  have hcount := @requests_length states _ (fun state => (state.tokens, state.trainMask))
    (scorable states) fun _ hj => (mem_scorable.mp hj).imp fun _ h => h.1
  unfold applyScores at h
  split at h
  · next rows =>
    have hanswered := hscores _ rfl
    split at h
    · next hlen =>
      have hentries : (((scorable states).zip rows).map Prod.fst).Nodup := by
        rw [map_fst_zip (by omega)]
        exact scorable_nodup
      rw [modifyAll_getElem? hentries] at h
      obtain ⟨state, hs, hstate'⟩ := map_eq_some_iff.mp h
      refine ⟨state, hs, ?_⟩
      split at hstate'
      · next row hrow =>
        obtain ⟨k, hk⟩ := mem_iff_getElem?.mp ((entryOf_eq_some hentries).mp hrow)
        obtain ⟨hj, hrow⟩ := getElem?_zip_eq_some.mp hk
        obtain ⟨request, hrequest, hallowed⟩ :=
          forall₂_getElem? (hanswered.1 (by omega)) hrow
        rw [batch_getElem?, hj, bind_some, hs, map_some,
          some.injEq] at hrequest
        obtain ⟨_, hs', hunfailed⟩ := mem_scorable.mp (mem_of_getElem? hj)
        obtain rfl := some.inj (hs.symm.trans hs')
        exact hstate' ▸ .scored row hunfailed (hrequest ▸ hallowed)
      · next hnone =>
        subst hstate'
        refine .failed ?_
        by_contra hsome
        have hmem : j ∈ ((scorable states).zip rows).map Prod.fst := by
          rw [map_fst_zip (by omega)]
          exact mem_scorable.mpr ⟨state, hs, by simpa using hsome⟩
        obtain ⟨⟨i, row⟩, hin, rfl⟩ := List.mem_map.mp hmem
        rw [(entryOf_eq_some hentries).mpr hin] at hnone
        cases hnone
    · exact failAll_scored (.inr (hanswered.2 (by omega) _)) h
  · next e => exact failAll_scored (.inr (hscores _ rfl)) h
  · exact failAll_scored (.inl (hlate rfl)) h

theorem applyScores_length {indices : List ℕ} :
    (applyScores states indices scores).length = states.length := by
  unfold applyScores
  split
  · split
    · exact modifyAll_length
    · exact modifyAll_length
  · exact modifyAll_length
  · exact modifyAll_length

theorem scoreAll_asks (hhonors : Honors out engine may) {E : Error → Prop} :
    Asks (ε := ε) (scoreAll out engine states) (fun states' => states'.length = states.length ∧
      ∀ (j : ℕ) (state' : RolloutState), states'[j]? = some state' →
        ∃ state, states[j]? = some state ∧ Scored may state state') E := by
  have hscores : Asks (ε := ε) (maskedScores out engine states) (fun scores =>
      (scores = none → may.late) ∧ ∀ result, scores = some result →
        Answered may.score may.lost ((scorable states).filterMap fun index =>
          states[index]?.map fun state => (state.tokens, state.trainMask)) result) E := by
    unfold maskedScores
    dsimp only
    split
    · next hnone =>
      refine Asks.pure ⟨fun h => (nomatch h), fun result h => ?_⟩
      cases h
      rw [List.isEmpty_iff.mp hnone]
      exact ⟨fun _ => .nil, fun h => absurd rfl h⟩
    · refine (Asks.beforeDeadline ((Asks.ask.settled).mono (fun _ h => h)
        fun _ h => h.elim)).imp fun scores ⟨hresult, hlate⟩ =>
          ⟨fun hnone => hhonors.late (hlate hnone), fun result hsome => ?_⟩
      obtain ⟨hok, herror⟩ := hresult result hsome
      cases result with
      | ok rows =>
        obtain ⟨policy, hpolicy⟩ := hok rows rfl
        exact hpolicy ▸ hhonors.scores _ policy
      | error e =>
        obtain ⟨policy, hpolicy⟩ := herror e rfl
        exact hpolicy ▸ hhonors.scores _ policy
  exact hscores.bind fun scores ⟨hlate, hresult⟩ => Asks.pure ⟨applyScores_length,
    fun j state' h => applyScores_scored hlate hresult h⟩

end Scores

/-! ### Trajectories -/

/-- A member's own run, from its seed and its environment to the state it is finished from. -/
def Ran (out : Outside σ ε) (engine : Engine) (rendering : ToolRendering) (may : Answers)
    (scenario : Scenario) (seed : UInt64) (environment : Option ε) (state' : RolloutState) : Prop :=
  ∃ (render : Except Error RenderedFraming) (state : RolloutState) (environment' : Option ε),
    may.render (openingMessages (scenarioMessages scenario rendering)
      (resetOf out environment seed).1) rendering.templateSpecs render ∧
    MemberReach out engine rendering may
      ⟨.idle 0, openMember (scenarioMessages scenario rendering) seed
        (resetOf out environment seed).1 (promptOf engine render), (resetOf out environment seed).2⟩
      ⟨.idle engine.limits.maxTurns, state, environment'⟩ ∧
    Scored may state state'

/-- What a rollout of a group returns: for each seed, what its member's own run comes to. -/
structure Returned (out : Outside σ ε) (engine : Engine) (rendering : ToolRendering)
    (may : Answers) (scenario : Scenario) (seeds : List UInt64) (environments : List ε)
    (results : List (Except Error Trajectory)) : Prop where
  length : results.length = seeds.length
  ran : ∀ (member : ℕ) (seed : UInt64), seeds[member]? = some seed →
    ∃ state, Ran out engine rendering may scenario seed environments[member]? state ∧
      results[member]? = some (finishTrajectory scenario rendering member state)

/-- Where a trajectory comes from: a member's own run, scored and finished. -/
def Origin (out : Outside σ ε) (engine : Engine) (may : Answers) (scenario : Scenario)
    (seed : UInt64) (environment : Option ε) (member : ℕ) (trajectory : Trajectory) : Prop :=
  ∃ (rendering : ToolRendering) (state : RolloutState), Resolved out rendering ∧
    Ran out engine rendering may scenario seed environment state ∧
    finishTrajectory scenario rendering member state = .ok trajectory

variable {scenario : Scenario} {results : List (Except Error Trajectory)}

variable {trajectory : Trajectory}

theorem Returned.origin {environments : List ε} {member : ℕ} (hresolved : Resolved out rendering)
    (h : Returned out engine rendering may scenario seeds environments results)
    (hresult : results[member]? = some (.ok trajectory)) : ∃ seed, seeds[member]? = some seed ∧
      Origin out engine may scenario seed environments[member]? member trajectory := by
  have hpos : member < seeds.length := h.length ▸ (List.getElem?_eq_some_iff.mp hresult).1
  refine ⟨_, getElem?_eq_getElem hpos, ?_⟩
  obtain ⟨state, hran, hfinish⟩ := h.ran member _ (getElem?_eq_getElem hpos)
  exact ⟨rendering, state, hresolved, hran, some.inj (hfinish.symm.trans hresult)⟩

/-- The lockstep loop once the rendering of its catalog is decided. -/
def rolloutRendered (out : Outside σ ε) (engine : Engine) (scenario : Scenario)
    (seeds : List UInt64) (rendering : ToolRendering) :
    RolloutM σ ε (List (Except Error Trajectory)) := do
  let openings ← openAll out engine seeds
  let prompts ← renderPrompts out engine (scenarioMessages scenario rendering) openings rendering
  let states ← turns out engine rendering prompts.1 engine.limits.maxTurns 0
    (((seeds.zip openings).zip prompts.2).map fun entry =>
      openMember (scenarioMessages scenario rendering) entry.1.1 entry.1.2 entry.2)
  let states ← scoreAll out engine states
  pure (states.zipIdx.map fun entry => finishTrajectory scenario rendering entry.2 entry.1)

theorem rolloutLockstep_eq (scenario : Scenario) (seeds : List UInt64) :
    rolloutLockstep out engine scenario seeds = (do
      match ← beforeDeadline out engine (toolRendering out) with
      | none => throw (.tool (deadlineExpired "listing the environment tools"))
      | some rendering => rolloutRendered out engine scenario seeds rendering) := rfl

/-- Why a rollout may break off as a whole: late, or on a call nobody rides on alone. -/
def BreaksOff (out : Outside σ ε) (engine : Engine) (rendering : ToolRendering) (may : Answers)
    (scenario : Scenario) (seeds : List UInt64) (environments : List ε) (e : Error) : Prop :=
  0 < engine.limits.maxRolloutSecs ∨ may.broken e ∨
    (∀ (j : ℕ) (seed : UInt64) (text : String), seeds[j]? = some seed →
      (resetOf out environments[j]? seed).1 ≠ .ok (some text)) ∧
    ∃ render e', may.render (scenarioMessages scenario rendering) rendering.templateSpecs render ∧
      promptOf engine render = .error e'

section Rendered

variable {rendering : ToolRendering} {scenario : Scenario} {seeds : List UInt64}
  {environments : List ε}

/-- The part of a rollout after its members are opened. -/
private theorem members_calls {environments' : List ε} {E : Error → Prop}
    {openings : List (Except Error (Option String))}
    {prompts : Option (List Token × String) × List (Except Error (List Token × String))}
    (hhonors : Honors out engine may) (hbroken : ∀ e, may.broken e → E e)
    (hequipped : rendering = .none ∨ environments.length = seeds.length)
    (hopened : Openings out environments seeds openings environments')
    (hprompts : Prompts engine may (scenarioMessages scenario rendering) rendering openings
      prompts) :
    Calls environments' (do
      let states ← turns out engine rendering prompts.1 engine.limits.maxTurns 0
        (((seeds.zip openings).zip prompts.2).map fun entry =>
          openMember (scenarioMessages scenario rendering) entry.1.1 entry.1.2 entry.2)
      let states ← scoreAll out engine states
      pure (states.zipIdx.map fun entry => finishTrajectory scenario rendering entry.2 entry.1))
      (fun results _ =>
        Returned out engine rendering may scenario seeds environments results) E := by
  have hlen := hprompts.length
  have hopenings := hopened.length
  generalize hstates : (((seeds.zip openings).zip prompts.2).map fun entry =>
    openMember (scenarioMessages scenario rendering) entry.1.1 entry.1.2 entry.2) = states
  have hcount : states.length = seeds.length := by
    rw [← hstates, length_map, length_zip, length_zip]
    omega
  have hshared : ∀ prompt, 0 = 0 → prompts.1 = some prompt → ∀ s ∈ states,
      s.finished = false → s.tokens = prompt.1 := by
    intro prompt _ hprompt s hs hunfinished
    rw [← hstates] at hs
    obtain ⟨entry, hentry, rfl⟩ := List.mem_map.mp hs
    have hp := hprompts.shared prompt hprompt entry.2 (of_mem_zip hentry).2
    rw [hp] at hunfinished ⊢
    exact openMember_shared hunfinished
  have hequipped' : rendering = .none ∨ environments'.length = states.length :=
    hequipped.imp_right fun h => by rw [hopened.equipment, h, hcount]
  refine ((turns_moves hhonors _ (Nat.zero_add _) hequipped' hshared).mono
    (fun _ _ h => h) hbroken).bind fun states' environments'' hmoved => ?_
  refine (scoreAll_asks hhonors).then fun final ⟨hfinal, hscored⟩ => Calls.pure ⟨?_, ?_⟩
  · rw [length_map, length_zipIdx, hfinal, hmoved.length, hcount]
  · intro member seed hseed
    obtain ⟨hopening, henvironment⟩ := hopened.opening member seed hseed
    obtain ⟨render, hrender, hprompt⟩ := hprompts.rendered member _ hopening
    -- the member's own opening state, the state its turns leave, and its scored state
    have hfirst : states[member]? = some (openMember (scenarioMessages scenario rendering) seed
        (resetOf out environments[member]? seed).1 (promptOf engine render)) := by
      have hentry : ((seeds.zip openings).zip prompts.2)[member]? = some
          ((seed, (resetOf out environments[member]? seed).1), promptOf engine render) :=
        getElem?_zip_eq_some.mpr
          ⟨getElem?_zip_eq_some.mpr ⟨hseed, hopening⟩, hprompt⟩
      rw [← hstates, getElem?_map, hentry]
      rfl
    have hpos : member < final.length := by
      rw [hfinal, hmoved.length]
      exact (List.getElem?_eq_some_iff.mp hfirst).1
    obtain ⟨state, hstate, hscore⟩ := hscored member _ (getElem?_eq_getElem hpos)
    refine ⟨final[member], ⟨render, state, environments''[member]?, hrender, ?_, hscore⟩, ?_⟩
    · rw [← henvironment]
      exact hmoved.reach member _ state hfirst hstate
    · rw [getElem?_map, getElem?_zipIdx, getElem?_eq_getElem hpos]
      simp

/-- **A rollout with its rendering decided** returns what each member's own run comes to. -/
theorem rolloutRendered_calls (hhonors : Honors out engine may)
    (hequipped : rendering = .none ∨ environments.length = seeds.length)
    (hcount : environments = [] ∨ environments.length = seeds.length) :
    Calls environments (rolloutRendered out engine scenario seeds rendering)
      (fun results _ =>
        Returned out engine rendering may scenario seeds environments results)
      (BreaksOff out engine rendering may scenario seeds environments) := by
  unfold rolloutRendered
  refine ((openAll_calls hcount).mono (fun _ _ h => h) fun e he => .inl he).bind
    fun openings environments' hopened => ?_
  refine ((renderPrompts_asks hhonors).mono (fun _ h => h) fun e he => ?_).then
    fun prompts hprompts => members_calls hhonors (fun e he => .inr (.inl he)) hequipped hopened
      hprompts
  rcases he with hlate | ⟨hshared, hrender⟩
  · exact .inl hlate
  · refine .inr (.inr ⟨fun j seed text hseed htext => ?_, hrender⟩)
    have hall := List.all_eq_true.mp hshared _
      (mem_of_getElem? (hopened.opening j seed hseed).1)
    rw [htext] at hall
    simp at hall

end Rendered

theorem rolloutLockstep_spec (hhonors : Honors out engine may) (hsound : CacheSound out world)
    (hcount : world.environments = [] ∨ world.environments.length = seeds.length) :
    wp (rolloutLockstep out engine scenario seeds) (fun results world' =>
        CacheSound out world' ∧ ∃ rendering, Resolved out rendering ∧
          Returned out engine rendering may scenario seeds world.environments results)
      (fun _ world' => CacheSound out world') world := by
  rw [rolloutLockstep_eq, wp_bind]
  refine wp_beforeDeadline (fun policy => hsound) fun policy => ?_
  refine wp_mono (toolRendering_spec (show CacheSound out { world with policy } from hsound))
    (fun rendering world' ⟨⟨henvs, hcache⟩, hresolved, hnil⟩ => ?_) fun _ _ h => h
  have hequipped : rendering = .none ∨ world.environments.length = seeds.length :=
    hcount.imp hnil id
  refine wp_mono (rolloutRendered_calls hhonors hequipped hcount world' henvs)
    (fun results final ⟨hkept, hreturned⟩ =>
      ⟨fun entry hentry => hcache entry (hkept ▸ hentry), rendering, hresolved, hreturned⟩)
    fun _ final ⟨hkept, _⟩ entry hentry => hcache entry (hkept ▸ hentry)

/-- **Where trajectories come from**, for one rollout of a group. -/
theorem rolloutMany_spec (hhonors : Honors out engine may) (hsound : CacheSound out world) :
    wp (rolloutMany out engine scenario seeds) (fun results world' =>
        CacheSound out world' ∧ ∃ (environments : List ε) (rendering : ToolRendering),
          Resolved out rendering ∧
          Returned out engine rendering may scenario seeds environments results)
      (fun _ world' => CacheSound out world') world := by
  have hcreate : Asks (ε := ε) (createEnvironments out engine seeds.length)
      (fun environments => environments = [] ∨ environments.length = seeds.length)
      fun _ => True := by
    unfold createEnvironments
    split
    · have hall : Asks (ε := ε) ((List.range seeds.length).mapM fun _ => ask out.create)
          (Forall₂ (fun _ _ => True) (List.range seeds.length)) fun _ => True :=
        Asks.mapM fun _ _ => Asks.ask.mono (fun _ _ => trivial) fun _ _ => trivial
      exact hall.imp fun environments h => .inr (by rw [← h.length_eq, length_range])
    · exact Asks.pure (.inl rfl)
  unfold rolloutMany
  cases scenario.validate with
  | error e => exact hsound
  | ok _ =>
    dsimp only
    split
    · exact hsound
    · rw [wp_bind]
      refine wp_beforeDeadline (fun policy => hsound) fun policy => ?_
      refine wp_mono (hcreate { world with policy }) (fun environments world' ⟨hkeeps, hcount⟩ => ?_)
        fun _ world' ⟨hkeeps, _⟩ entry hentry => hsound entry (hkeeps.renderings ▸ hentry)
      dsimp only
      rw [wp_bind, wp_modify]
      have hsound' : CacheSound out { world' with environments } := fun entry hentry =>
        hsound entry (hkeeps.renderings ▸ hentry)
      exact wp_mono (rolloutLockstep_spec hhonors hsound' hcount)
        (fun results final ⟨hcache, rendering, hreturned⟩ =>
          ⟨hcache, environments, rendering, hreturned⟩) fun _ _ h => h

/-! ### The life of an engine -/

/-- The worlds an engine can stand in: fresh, after any rollout whatever became of it, and after
anything else that leaves the engine's own renderings alone. -/
inductive Served (out : Outside σ ε) (engine : Engine) : World σ ε → Prop where
  | fresh (world : World σ ε) (h : world.renderings = []) : Served out engine world
  | rollout {world world' : World σ ε} (served : Served out engine world) (scenario : Scenario)
    (seeds : List UInt64) (results : List (Except Error Trajectory))
    (h : rolloutMany out engine scenario seeds world = .ok results world') :
    Served out engine world'
  | failed {world world' : World σ ε} (served : Served out engine world) (scenario : Scenario)
    (seeds : List UInt64) (error : Error)
    (h : rolloutMany out engine scenario seeds world = .error error world') :
    Served out engine world'
  | other {world world' : World σ ε} (served : Served out engine world)
    (h : world'.renderings = world.renderings) : Served out engine world'

/-- Nothing at all is ruled out. -/
def Answers.any : Answers where
  generation := fun _ _ => True
  render := fun _ _ _ => True
  score := fun _ _ => True
  late := True
  lost := fun _ => True
  broken := fun _ => True

private theorem answered_any {γ δ : Type} {requests : List γ} {result : Except Error (List δ)} :
    Answered (fun _ _ => True) (fun _ => True) requests result := by
  cases result with
  | error e => trivial
  | ok answers =>
    refine ⟨fun hlen => ?_, fun _ _ => trivial⟩
    exact forall₂_iff_get.mpr ⟨hlen.symm, fun _ _ _ => trivial⟩

private theorem inChunks_asks {γ δ : Type} {call : List γ → RolloutM σ ε (List δ)}
    (hcall : ∀ l, Asks (call l) (fun _ => True) fun _ => True) (capacity : ℕ)
    (requests : List γ) :
    Asks (inChunks call capacity requests) (fun _ => True) fun _ => True := by
  have hparts : Asks ((inChunks.chunksOf (max capacity 1) requests.length requests).mapM call)
      (Forall₂ (fun _ _ => True) _) fun _ => True := Asks.mapM fun l _ => hcall l
  exact hparts.bind fun _ _ => Asks.pure trivial

/-- Every world honors that. -/
theorem honors_any : Honors out engine .any where
  generates := fun sharedPrompt turn requests _ => by
    have hany : Asks (ε := ε) (generate out sharedPrompt turn requests) (fun _ => True)
        fun _ => True := by
      unfold generate
      split
      · exact inChunks_asks (fun _ => Asks.ask.mono (fun _ _ => trivial) fun _ _ => trivial) _ _
      · exact inChunks_asks (fun _ => Asks.ask.mono (fun _ _ => trivial) fun _ _ => trivial) _ _
    exact hany.settled.imp fun _ _ => answered_any
  renders := fun _ _ _ => trivial
  scores := fun _ _ => answered_any
  late := fun _ => trivial
  notes := fun _ _ _ _ => trivial

/-- Every rendering an engine ever caches is one it decided on. -/
theorem Served.sound (h : Served out engine world) : CacheSound out world := by
  induction h with
  | fresh world h =>
    intro entry hentry
    rw [h] at hentry
    cases hentry
  | rollout _ scenario seeds results h ih =>
    exact (wp_of_ok (rolloutMany_spec honors_any ih) h).1
  | failed _ scenario seeds error h ih =>
    have hspec : wp (rolloutMany out engine scenario seeds) _ _ _ := rolloutMany_spec honors_any ih
    rw [wp, h] at hspec
    exact hspec
  | other _ h ih => exact fun entry hentry => ih entry (h ▸ hentry)

variable {world world' : World σ ε}

/-- **Where trajectories come from**, over the whole life of an engine. -/
theorem rolloutMany_trajectory {member : ℕ} (hserved : Served out engine world)
    (hhonors : Honors out engine may)
    (h : rolloutMany out engine scenario seeds world = .ok results world')
    (hresult : results[member]? = some (.ok trajectory)) :
    ∃ seed environment, seeds[member]? = some seed ∧
      Origin out engine may scenario seed environment member trajectory := by
  obtain ⟨-, environments, rendering, hresolved, hreturned⟩ :=
    wp_of_ok (rolloutMany_spec hhonors hserved.sound) h
  obtain ⟨seed, hseed, horigin⟩ := hreturned.origin hresolved hresult
  exact ⟨seed, environments[member]?, hseed, horigin⟩

/-- A rollout returns one result for each of its seeds. -/
theorem rolloutMany_length (hserved : Served out engine world)
    (h : rolloutMany out engine scenario seeds world = .ok results world') :
    results.length = seeds.length := by
  obtain ⟨-, _, _, -, hreturned⟩ := wp_of_ok (rolloutMany_spec honors_any hserved.sound) h
  exact hreturned.length

end Retrograd.Agent
