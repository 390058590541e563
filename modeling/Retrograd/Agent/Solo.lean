import Retrograd.Agent.Contract

/-!
# A member alone

In a world that answers each request by itself, and without a deadline, a member's run is a
**function of its own seed and environment**: the member system has one step to take from any
member that is not over, so whatever becomes of the other members of a group, this one returns
what it would have returned beside any others (`lockstep_alone`).
-/

namespace Retrograd.Agent

open Infer (Token)
open Logic
open Training (SamplingParams)
open Relation (ReflTransGen)

variable {σ ε : Type} {out : Outside σ ε} {engine : Engine} {rendering : ToolRendering}
  {answer : List Token × SamplingParams → PolicyGeneration}
  {rendered : List Message → List ToolSpec → Except Error RenderedFraming}
  {score : List Token × List Bool → List Float32}

/-! ### One step -/

/-- A member that waits is not over. -/
def Seat.Waiting (seat : Seat ε) : Prop := seat.phase.waits → seat.state.finished = false

variable {environment : Option ε}

theorem Seat.waiting_idle {turn : ℕ} {state : RolloutState} :
    Seat.Waiting ⟨.idle turn, state, environment⟩ := fun h => h.elim

variable {may : Answers}

variable {seat seat' : Seat ε}

theorem MemberStep.waiting (h : MemberStep out engine rendering may seat seat')
    (hwaiting : seat.Waiting) : seat'.Waiting := by
  cases h with
  | cut phase next state environment h => exact fun h => h.elim
  | exhaust turn state environment more live full => exact fun h => h.elim
  | lose phase next state environment error h => exact fun h => h.elim
  | settle phase next state environment h => exact fun h => h.elim
  | generate turn state environment generation more live room answer =>
    intro hwaits
    cases hgoing : (applyTurn engine rendering turn state generation).2 with
    | none =>
      rw [hgoing] at hwaits
      exact hwaits.elim
    | some parsed => exact (applyGeneration_going hgoing).trans live
  | answer turn parsed state environment =>
    intro hwaits
    have hlive : state.finished = false := hwaiting trivial
    unfold observe at hwaits ⊢
    dsimp only at hwaits ⊢
    split at hwaits
    · exact hwaits.elim
    · exact hlive
  | fold turn observation state environment render rendered => exact fun h => h.elim

/-- A member that is over, or has had its last turn, is left as it is. -/
def Seat.Rests (engine : Engine) (seat : Seat ε) : Prop :=
  seat.state.finished = true ∨ seat.phase = .idle engine.limits.maxTurns

/-- **One step of a member that runs** is the only one it can take. -/
theorem MemberStep.unique {seat seat' seat'' : Seat ε}
    (hrun : ¬seat.Rests engine)
    (h : MemberStep out engine rendering (.perRequest answer rendered score) seat seat')
    (h' : MemberStep out engine rendering (.perRequest answer rendered score) seat seat'') :
    seat' = seat'' := by
  cases h with
  | cut phase next state environment h => exact h.elim
  | exhaust turn state environment more live full =>
    cases h' with
    | cut _ next _ _ h => exact h.elim
    | exhaust _ _ _ _ _ _ => rfl
    | lose _ next _ _ error h => exact h.elim
    | settle _ next _ _ h => exact absurd (.inl h) hrun
    | generate _ _ _ generation _ _ room _ => exact absurd room (Nat.not_lt.mpr full)
  | lose phase next state environment error h => exact h.elim
  | settle phase next state environment h => exact absurd (.inl h) hrun
  | generate turn state environment generation more live room hanswer =>
    cases h' with
    | cut _ next _ _ h => exact h.elim
    | exhaust _ _ _ _ _ full => exact absurd room (Nat.not_lt.mpr full)
    | lose _ next _ _ error h => exact h.elim
    | settle _ next _ _ h => exact absurd (.inl h) hrun
    | generate _ _ _ generation' _ _ _ hanswer' =>
      obtain rfl : generation = generation' := hanswer.trans hanswer'.symm
      rfl
  | answer turn parsed state environment =>
    cases h' with
    | cut _ next _ _ h => exact h.elim
    | lose _ next _ _ error h => exact h.elim
    | settle _ next _ _ h => exact absurd (.inl h) hrun
    | answer _ _ _ _ => rfl
  | fold turn observation state environment render hrendered =>
    cases h' with
    | cut _ next _ _ h => exact h.elim
    | lose _ next _ _ error h => exact h.elim
    | settle _ next _ _ h => exact absurd (.inl h) hrun
    | fold _ _ _ _ render' hrendered' =>
      obtain rfl : render = render' := hrendered.trans hrendered'.symm
      rfl

/-- A step of a member at rest does not touch it. -/
theorem MemberStep.rests (hwaiting : seat.Waiting) (hrests : seat.Rests engine)
    (h : MemberStep out engine rendering (.perRequest answer rendered score) seat seat') :
    seat'.state = seat.state ∧ seat'.Rests engine := by
  cases h with
  | cut phase next state environment h => exact h.elim
  | exhaust turn state environment more live full =>
    rcases hrests with hover | hphase
    · exact absurd (live.symm.trans hover) Bool.false_ne_true
    · cases hphase
      exact absurd more (Nat.lt_irrefl _)
  | lose phase next state environment error h => exact h.elim
  | settle phase next state environment h => exact ⟨rfl, .inl h⟩
  | generate turn state environment generation more live room hanswer =>
    rcases hrests with hover | hphase
    · exact absurd (live.symm.trans hover) Bool.false_ne_true
    · cases hphase
      exact absurd more (Nat.lt_irrefl _)
  | answer turn parsed state environment =>
    rcases hrests with hover | hphase
    · exact absurd ((hwaiting trivial).symm.trans hover) Bool.false_ne_true
    · cases hphase
  | fold turn observation state environment render hrendered =>
    rcases hrests with hover | hphase
    · exact absurd ((hwaiting trivial).symm.trans hover) Bool.false_ne_true
    · cases hphase

/-! ### A whole run -/

theorem MemberReach.rests
    (h : MemberReach out engine rendering (.perRequest answer rendered score) seat seat')
    (hwaiting : seat.Waiting) (hrests : seat.Rests engine) : seat'.state = seat.state := by
  induction h using ReflTransGen.head_induction_on with
  | refl => rfl
  | head hstep _ ih =>
    obtain ⟨hsame, hrests'⟩ := hstep.rests hwaiting hrests
    exact (ih (hstep.waiting hwaiting) hrests').trans hsame

/-- **A member's run has one end**: two runs from one seat that had all their turns end alike. -/
theorem MemberReach.unique {seat seat' seat'' : Seat ε} (hwaiting : seat.Waiting)
    (h : MemberReach out engine rendering (.perRequest answer rendered score) seat seat')
    (h' : MemberReach out engine rendering (.perRequest answer rendered score) seat seat'')
    (hend : seat'.phase = .idle engine.limits.maxTurns)
    (hend' : seat''.phase = .idle engine.limits.maxTurns) :
    seat'.state = seat''.state := by
  induction h using ReflTransGen.head_induction_on with
  | refl => exact (h'.rests hwaiting (.inr hend)).symm
  | @head seat next hstep hrest ih =>
    by_cases hrests : seat.Rests engine
    · have hsame := MemberReach.rests (ReflTransGen.head hstep hrest) hwaiting hrests
      exact hsame.trans (h'.rests hwaiting hrests).symm
    · rcases ReflTransGen.cases_head h' with rfl | ⟨next', hstep', hrest'⟩
      · exact absurd (.inr hend') hrests
      · obtain rfl : next = next' := hstep.unique hrests hstep'
        exact ih (hstep.waiting hwaiting) hrest'

variable {scenario : Scenario}

theorem Ran.unique {seed : UInt64} {state state' : RolloutState}
    (h : Ran out engine rendering (.perRequest answer rendered score) scenario seed environment state)
    (h' : Ran out engine rendering (.perRequest answer rendered score) scenario seed environment state') :
    state = state' := by
  obtain ⟨render, last, environment', hrender, hreach, hscored⟩ := h
  obtain ⟨render', last', environment'', hrender', hreach', hscored'⟩ := h'
  obtain rfl : render = render' := hrender.trans hrender'.symm
  obtain rfl : last = last' := hreach.unique Seat.waiting_idle hreach' rfl rfl
  cases hscored with
  | failed h =>
    cases hscored' with
    | failed _ => rfl
    | lost error h' => exact (h'.elim id id).elim
    | scored scores live _ => simp [live] at h
  | lost error h => exact (h.elim id id).elim
  | scored scores live h =>
    cases hscored' with
    | failed h' => simp [live] at h'
    | lost error h' => exact (h'.elim id id).elim
    | scored scores' _ h' =>
      obtain rfl : scores = scores' := h.trans h'.symm
      rfl

/-- A member whose prompt could not be rendered comes to nothing. -/
private theorem Ran.refused {seed : UInt64} {member : ℕ} {state : RolloutState}
    {trajectory : Trajectory} {e : Error}
    (h : Ran out engine rendering (.perRequest answer rendered score) scenario seed environment state)
    (hprompt : promptOf engine (rendered (openingMessages (scenarioMessages scenario rendering) (resetOf out environment seed).1) rendering.templateSpecs) = .error e) :
    finishTrajectory scenario rendering member state ≠ .ok trajectory := by
  obtain ⟨render, last, environment', rfl, hreach, hscored⟩ := h
  rw [hprompt] at hreach
  have hopened : (openMember (scenarioMessages scenario rendering) seed
      (resetOf out environment seed).1 (.error e)).finished = true ∧
      (openMember (scenarioMessages scenario rendering) seed
        (resetOf out environment seed).1 (.error e)).failure.isSome = true := by
    unfold openMember
    dsimp only
    split <;> exact ⟨rfl, rfl⟩
  have hlast := hreach.rests Seat.waiting_idle (.inl hopened.1)
  dsimp only at hlast
  have hfailed : last.failure.isSome = true := hlast ▸ hopened.2
  obtain ⟨error, herror⟩ := Option.isSome_iff_exists.mp hfailed
  intro hfinish
  cases hscored with
  | failed h =>
    rw [finishTrajectory, herror] at hfinish
    cases hfinish
  | lost error h => exact (h.elim id id).elim
  | scored scores live h => simp [live] at hfailed

/-! ### What a rollout sees of the environments -/

/-- The same result, beside other environments. -/
def beside {α : Type} (environments : List ε) :
    EStateM.Result Error (World σ ε) α → EStateM.Result Error (World σ ε) α
  | .ok a world => .ok a { world with environments }
  | .error e world => .error e { world with environments }

/-- A stage that does not look at the environments, and leaves them as they are. -/
def Blind {α : Type} (m : RolloutM σ ε α) : Prop :=
  ∀ (world : World σ ε) (environments : List ε),
    m { world with environments } = beside environments (m world)

namespace Blind

variable {α β : Type}

theorem pure {a : α} : Blind (Pure.pure a : RolloutM σ ε α) := fun _ _ => rfl

theorem throw {e : Error} : Blind (MonadExcept.throw e : RolloutM σ ε α) := fun _ _ => rfl

theorem ask {call : σ → Except Error α × σ} : Blind (ε := ε) (Agent.ask call) := by
  intro world environments
  unfold Agent.ask
  dsimp only
  split <;> rfl

theorem bind {m : RolloutM σ ε α} {f : α → RolloutM σ ε β} (h : Blind m)
    (hf : ∀ a, Blind (f a)) : Blind (m >>= f) := by
  intro world environments
  simp only [Bind.bind, EStateM.bind, h world environments]
  cases m world with
  | error e world' => rfl
  | ok a world' => exact hf a world' environments

end Blind

private theorem resolveToolRendering_blind (specs : List ToolSpec) :
    Blind (ε := ε) (resolveToolRendering out specs) := by
  unfold resolveToolRendering
  split
  · exact .pure
  · refine Blind.ask.bind fun native => ?_
    have hparser : Blind (ε := ε) (toolCallParser out native specs) := by
      unfold toolCallParser
      split
      · exact .ask
      · exact .pure
    refine hparser.bind fun parser => ?_
    split
    · exact .throw
    · exact .pure

private theorem cachedRendering_blind (specs : List ToolSpec) :
    Blind (ε := ε) (cachedRendering out specs) := by
  intro world environments
  unfold cachedRendering
  cases out.encode (.array (specs.map specJson)) with
  | error e => rfl
  | ok key =>
    simp only [bind, EStateM.bind, get, getThe, MonadStateOf.get, EStateM.get]
    cases world.renderings.find? fun entry => entry.1 = key with
    | some entry => rfl
    | none =>
      have hresolve := @resolveToolRendering_blind σ ε out specs world environments
      simp only [EStateM.bind, hresolve]
      cases resolveToolRendering out specs world with
      | error e world' => rfl
      | ok rendering world' => rfl

/-- What is decided on the first of the environments. -/
private def firstRendering (out : Outside σ ε) (environments : List ε) : RolloutM σ ε ToolRendering :=
  match environments with
  | [] => pure .none
  | environment :: _ =>
    match out.tools environment with
    | .error e => throw e
    | .ok specs => cachedRendering out specs

private theorem toolRendering_run (world : World σ ε) :
    toolRendering out world =
      match world.environments.head?.map out.tools with
      | none => .ok .none world
      | some (.error e) => .error e world
      | some (.ok specs) => cachedRendering out specs world := by
  have hrun : toolRendering out world = firstRendering out world.environments world := rfl
  rw [hrun]
  cases world.environments with
  | nil => rfl
  | cons environment rest =>
    dsimp only [List.head?_cons, Option.map_some, firstRendering]
    cases out.tools environment with
    | error e => rfl
    | ok specs => rfl

/-- The rendering of a group depends on its first environment's catalog alone. -/
private theorem toolRendering_same {world : World σ ε} {environments : List ε}
    (htools : environments.head?.map out.tools = world.environments.head?.map out.tools) :
    toolRendering out { world with environments } =
      beside environments (toolRendering out world) := by
  rw [toolRendering_run, toolRendering_run, htools]
  cases world.environments.head?.map out.tools with
  | none => rfl
  | some listing =>
    cases listing with
    | error e => rfl
    | ok specs => exact @cachedRendering_blind σ ε out specs world environments

/-- Deciding on the rendering leaves the environments as they are. -/
private theorem toolRendering_keeps {world world' : World σ ε} {rendering : ToolRendering}
    (h : toolRendering out world = .ok rendering world') :
    world'.environments = world.environments ∧ (world.environments = [] → rendering = .none) := by
  constructor
  · have hsame := @toolRendering_same σ ε out world world.environments rfl
    rw [h] at hsame
    have hworld : world' = { world' with environments := world.environments } := by
      injection hsame
    rw [hworld]
  · intro hnil
    unfold toolRendering at h
    simp only [bind, EStateM.bind, get, getThe, MonadStateOf.get, EStateM.get, hnil] at h
    cases h
    rfl

/-- Without a budget a stage is never cut short. -/
private theorem beforeDeadline_eq {α : Type} {stage : RolloutM σ ε α}
    (hbudget : engine.limits.maxRolloutSecs = 0) :
    beforeDeadline out engine stage = some <$> stage := by
  have hlate : isLate out engine = (pure false : RolloutM σ ε Bool) := by
    rw [isLate, if_neg (by simp [hbudget])]
  rw [beforeDeadline, hlate]
  rfl

/-- Without a budget a rollout is its rendering and what comes after. -/
private theorem rolloutLockstep_run {seeds : List UInt64} {world : World σ ε}
    (hbudget : engine.limits.maxRolloutSecs = 0) : rolloutLockstep out engine scenario seeds world =
      match toolRendering out world with
      | .ok rendering world' => rolloutRendered out engine scenario seeds rendering world'
      | .error e world' => .error e world' := by
  rw [rolloutLockstep_eq, beforeDeadline_eq hbudget]
  simp only [bind, EStateM.bind, Functor.map, EStateM.map]
  cases toolRendering out world with
  | ok rendering world' => rfl
  | error e world' => rfl

/-! ### Beside any others -/

/-- **A member returns what it would have returned beside any others**: two rollouts of a group
that agree on the catalog and on one member's environment give that member the same trajectory,
whatever the other environments do. -/
theorem lockstep_alone {seeds : List UInt64} {world final : World σ ε} {others : List ε}
    {results : List (Except Error Trajectory)} {member : ℕ} {trajectory : Trajectory}
    (hworld : PerRequest out answer rendered score) (hbudget : engine.limits.maxRolloutSecs = 0)
    (hcount : world.environments = [] ∨ world.environments.length = seeds.length)
    (hothers : others = [] ∨ others.length = seeds.length)
    (htools : others.head?.map out.tools = world.environments.head?.map out.tools)
    (hown : others[member]? = world.environments[member]?)
    (h : rolloutLockstep out engine scenario seeds world = .ok results final)
    (hresult : results[member]? = some (.ok trajectory)) :
    ∃ results' final', rolloutLockstep out engine scenario seeds
        { world with environments := others } = .ok results' final' ∧
      results'[member]? = some (.ok trajectory) := by
  have hhonors := honors_perRequest hworld hbudget
  rw [rolloutLockstep_run hbudget] at h
  rw [rolloutLockstep_run hbudget, toolRendering_same htools]
  cases hrendering : toolRendering out world with
  | error e world' =>
    rw [hrendering] at h
    cases h
  | ok rendering world' =>
    rw [hrendering] at h
    dsimp only at h ⊢
    obtain ⟨henvs, hnil⟩ := toolRendering_keeps hrendering
    have hnil' : others = [] → rendering = .none := fun hothers => by
      rw [hothers] at htools
      refine hnil (List.head?_eq_none_iff.mp (Option.map_eq_none_iff.mp htools.symm))
    -- this member's own run, beside the first others
    obtain ⟨-, hreturned⟩ := wp_of_ok (rolloutRendered_calls hhonors (hcount.imp hnil id) hcount
      world' henvs) h
    have hpos : member < seeds.length :=
      hreturned.length ▸ (List.getElem?_eq_some_iff.mp hresult).1
    have hseed := List.getElem?_eq_getElem hpos
    obtain ⟨state, hran, hfinish⟩ := hreturned.ran member _ hseed
    have hfinish := Option.some.inj (hfinish.symm.trans hresult)
    have hspec := @rolloutRendered_calls σ ε out engine _ rendering scenario seeds others hhonors
      (hothers.imp hnil' id) hothers { world' with environments := others } rfl
    cases hrun : rolloutRendered out engine scenario seeds rendering
        { world' with environments := others } with
    | error e final' =>
      -- nothing but the shared render breaks a rollout off, and that one is the member's own
      rw [wp, hrun] at hspec
      obtain ⟨-, hlate | hbroken | ⟨hshared, render, e', rfl, hprompt⟩⟩ := hspec
      · exact absurd hbudget hlate.ne'
      · exact hbroken.elim
      · refine absurd hfinish (hran.refused (e := e') ?_)
        rw [← hprompt]
        congr 2
        unfold openingMessages
        split
        · next text htext => exact absurd (hown ▸ htext) (hshared member _ text hseed)
        · rfl
    | ok results' final' =>
      rw [wp, hrun] at hspec
      obtain ⟨-, hreturned'⟩ := hspec
      obtain ⟨state', hran', hfinish'⟩ := hreturned'.ran member _ hseed
      rw [hown] at hran'
      obtain rfl : state = state' := hran.unique hran'
      exact ⟨results', final', hrun, hfinish'.trans (by rw [hfinish])⟩

end Retrograd.Agent
