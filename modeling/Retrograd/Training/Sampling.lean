import Retrograd.Training.Outside
import Retrograd.Logic.Except

/-!
# Sampling rollout groups

The driver that turns groups of `(prompt, sampling parameters)` into completions through the
scheduler. Requests go out in waves of single completions (`lockstep`) or all at once, a group
wider than the pool in chunks (`continuous`); either way every completion is written back at
its own group and member, so the result **has the shape of the request whatever the scheduler
answers** (`runRolloutGroups_shape`).
-/

namespace Retrograd.Training

open List
open Infer (Token Request InferError F32)
open Logic

variable {σ : Type} (out : Outside σ)

/-! ### Requests -/

/-- Rollout parameters as serving parameters, every further knob neutral. -/
def SamplingParams.toServing (params : SamplingParams) : Infer.SamplingParams where
  temperature := ⟨params.temperature.toBits⟩
  topP := ⟨params.topP.toBits⟩
  maxNewTokens := params.maxNewTokens
  seed := params.seed
  topK := 0
  minP := ⟨0⟩
  repeatPenalty := ⟨0x3f800000⟩
  frequencyPenalty := ⟨0⟩
  presencePenalty := ⟨0⟩
  penaltyWindow := 0
  logitBias := []
  grammarGbnf := none

/-- The request for completions of one prompt, one for every parameter set. -/
def rolloutRequest (prompt : List Token) (params : List SamplingParams) : Request where
  prompt := prompt
  sampling := params.map SamplingParams.toServing
  stop := []
  nTopLogprobs := 0
  logprobs := false
  adapter := none
  unparseSpecial := false
  retention := none

/-- `From<InferError> for Error`. -/
def ofInferError : InferError → Error
  | .invalidArgument message => .invalidArgument message
  | .overflow message => .overflow message
  | .kvFull needed available =>
    .runtime s!"kv pool saturated: {needed} cells needed, {available} available"
  | .queueFull capacity => .runtime s!"admission queue saturated: capacity {capacity}"
  | .cancelled => .runtime "request cancelled"
  | .backend message => .runtime message
  | .core message => .runtime message
  | .failed message => .runtime message

/-- Runs requests to completion. -/
def runWave (requests : List Request) : OutM σ (List RequestOutcome) :=
  ask fun s => match out.runRequests requests s with
    | (.ok outcomes, s') => (.ok outcomes, s')
    | (.error e, s') => (.error (ofInferError e), s')

/-- Any forced token fails the whole call. -/
def refuseForced (outcomes : List RequestOutcome) : Except Error Unit :=
  if outcomes.any fun outcome => outcome.completions.any fun c => c.forced.any id then
    .error (.invalidArgument ("the reasoning budget forced tokens into a generation whose " ++
      "caller cannot mask them; use generate_sampled_continuous"))
  else .ok ()

/-! ### Waves -/

/-- The sampling waves under construction: the finished ones and the one being filled. -/
structure Waves where
  done : List (List (ℕ × ℕ))
  current : List (ℕ × ℕ)

/-- Ends the current wave. -/
def Waves.flush (waves : Waves) : Waves := ⟨waves.done ++ [waves.current], []⟩

/-- One round of a group's loop: a group that would straddle a wave boundary starts the next
wave instead, then as many of its members as fit are taken. -/
def waveStep (capacity group size member : ℕ) (waves : Waves) : ℕ × Waves :=
  let remaining := size - member
  let waves := if !waves.current.isEmpty && member = 0 && remaining ≤ capacity
      && capacity < waves.current.length + remaining then waves.flush else waves
  let take := min (capacity - waves.current.length) remaining
  let waves := { waves with
    current := waves.current ++ (List.range' member take).map fun m => (group, m) }
  (member + take, if waves.current.length = capacity then waves.flush else waves)

/-- The loop over one group's members; every round takes at least one, so a round for each
member is enough. -/
def waveLoop (capacity group size : ℕ) : ℕ → ℕ → Waves → Waves
  | 0, _, waves => waves
  | rounds + 1, member, waves =>
    if member < size then
      let (member, waves) := waveStep capacity group size member waves
      waveLoop capacity group size rounds member waves
    else waves

/-- Splits groups into physical sampling waves of at most `capacity` sequences, as
`(group, member)` pairs in submission order. -/
def continuousWaves (sizes : List ℕ) (capacity : ℕ) : List (List (ℕ × ℕ)) :=
  let waves := sizes.zipIdx.foldl
    (fun waves entry => waveLoop capacity entry.2 entry.1 entry.1 0 waves) ⟨[], []⟩
  if waves.current.isEmpty then waves.done else waves.flush.done

/-! ### The driver -/

/-- The completions of every group, by group and member. -/
abbrev Completions := List (List RolloutCompletion)

/-- Writes one completion at its group and member. -/
def Completions.put (completions : Completions) (group member : ℕ) (c : RolloutCompletion) :
    Completions :=
  completions.modify group fun members => members.set member c

/-- Clamps a group's budgets to the room beside its prompt in the trained window. -/
def clampGroup (layout : RowLayout) (group : List Token × List SamplingParams) :
    Except Error (List Token × List SamplingParams) := do
  let room ← generationRoom layout group.1.length
  pure (group.1, group.2.map fun params =>
    { params with maxNewTokens := min params.maxNewTokens room })

/-- The one completion of a single-member request. -/
def takeSingle (outcome : RequestOutcome) : Except Error RolloutCompletion :=
  match outcome.error, outcome.completions with
  | some error, _ => .error (ofInferError error.clone)
  | none, [single] => .ok single
  | none, _ => .error (.runtime "a single-completion request returned no completion")

/-- Places a multi-member request's completions at `output[group][base..]`. -/
def takeMembers (outcome : RequestOutcome) (group base : ℕ) (output : Completions) :
    Except Error Completions :=
  match outcome.error with
  | some error => .error (ofInferError error.clone)
  | none =>
    match output[group]? with
    | none => .error (.panic "index out of bounds")
    | some members =>
      if members.length < base + outcome.completions.length then
        .error (.runtime "the scheduler returned more completions than the group asked for")
      else
        .ok (outcome.completions.zipIdx.foldl
          (fun output entry => output.put group (base + entry.2) entry.1) output)

/-- The request of one wave member. -/
def memberRequest (groups : List (List Token × List SamplingParams)) (slot : ℕ × ℕ) :
    Except Error Request :=
  match groups[slot.1]? with
  | none => .error (.panic "index out of bounds")
  | some (prompt, params) =>
    match params[slot.2]? with
    | none => .error (.panic "index out of bounds")
    | some p => .ok (rolloutRequest prompt [p])

/-- One physical wave: submitted whole, run to idle, written back member by member. -/
def lockstepWave (queueCapacity : ℕ) (groups : List (List Token × List SamplingParams))
    (output : Completions) (wave : List (ℕ × ℕ)) : OutM σ Completions :=
  if queueCapacity < wave.length then
    throw (.invalidArgument (s!"a lockstep wave of {wave.length} requests exceeds the " ++
      s!"scheduler queue capacity {queueCapacity}"))
  else do
    let requests ← check (wave.mapM (memberRequest groups))
    let outcomes ← runWave out requests
    check (refuseForced outcomes)
    (wave.zip outcomes).foldlM (fun output entry => do
      let completion ← check (takeSingle entry.2)
      pure (output.put entry.1.1 entry.1.2 completion)) output

/-- The chunks of one group: at most `capacity` members each, from member `base` on. -/
def chunkGroup (capacity group : ℕ) (prompt : List Token) (params : List SamplingParams) :
    ℕ → ℕ → List (ℕ × ℕ × Request)
  | 0, _ => []
  | rounds + 1, base =>
    if base < params.length then
      let take := min (params.length - base) capacity
      (group, base, rolloutRequest prompt ((params.drop base).take take))
        :: chunkGroup capacity group prompt params rounds (base + take)
    else []

/-- Every request of the call at once. -/
def continuousPlan (capacity : ℕ) (groups : List (List Token × List SamplingParams)) :
    List (ℕ × ℕ × Request) :=
  groups.zipIdx.flatMap fun entry =>
    chunkGroup capacity entry.2 entry.1.1 entry.1.2 entry.1.2.length 0

/-- Runs one batch of groups through the scheduler and returns the completions in the
original group and member order. -/
def runRolloutGroups (layout : RowLayout) (queueCapacity capacity : ℕ)
    (groups : List (List Token × List SamplingParams)) : OutM σ Completions :=
  if groups.isEmpty || capacity = 0 then
    throw (.invalidArgument "continuous rollout sampling requires capacity and groups")
  else if groups.any fun group => group.2.isEmpty then
    throw (.invalidArgument "continuous rollout groups must not be empty")
  else do
    let clamped ← check (groups.mapM (clampGroup layout))
    let output : Completions := clamped.map fun group => List.replicate group.2.length ⟨[], []⟩
    match layout.rolloutAdmission with
    | .lockstep =>
      let sizes := clamped.map fun group => group.2.length
      (continuousWaves sizes capacity).foldlM (lockstepWave out queueCapacity clamped) output
    | .continuous =>
      let plan := continuousPlan capacity clamped
      let outcomes ← runWave out (plan.map fun entry => entry.2.2)
      check (refuseForced outcomes)
      (plan.zip outcomes).foldlM
        (fun output entry => check (takeMembers entry.2 entry.1.1 entry.1.2.1 output)) output

/-- One group's completions as rollouts with their text. -/
def decodeGroup (prompt : List Token) (completions : List RolloutCompletion) :
    OutM σ (List (Rollout × String)) :=
  completions.mapM fun completion => do
    let text ← ask (out.detokenize completion.tokens)
    let tokens := prompt ++ completion.tokens
    pure ({ tokens, trainMask := makeTrainMask prompt.length tokens.length, oldLogprobs := [] },
      text)

/-- Samples prompt groups; member `m` of a group draws with the seed shifted by its offset. -/
def sampleRolloutGroupsContinuous (layout : RowLayout) (sampling : SamplingParams)
    (capacity : ℕ) (groups : List (List Token × List ℕ)) :
    OutM σ (List (List (Rollout × String))) :=
  if groups.isEmpty || capacity = 0 then
    throw (.invalidArgument "continuous rollout sampling requires capacity and groups")
  else if groups.any fun group => group.2.isEmpty then
    throw (.invalidArgument "continuous rollout groups must not be empty")
  else do
    let requestGroups := groups.map fun group =>
      (group.1, group.2.map fun offset =>
        { sampling with seed := (sampling.seed + offset) % 2 ^ 32 })
    let queueBound := max (requestGroups.map fun group => group.2.length).sum 1
    ask (out.newScheduler queueBound)
    let completions ←
      runRolloutGroups out layout (max (max queueBound layout.generationSlots) 1) capacity
        requestGroups
    (completions.zip groups).mapM fun entry => decodeGroup out entry.2.1 entry.1

/-! ### The shape of the result -/

/-- One list of members for every group, of the sizes given. -/
def Completions.Shaped (sizes : List ℕ) (completions : Completions) : Prop :=
  completions.map List.length = sizes

variable {sizes : List ℕ}

theorem Completions.Shaped.put {completions : Completions} (h : completions.Shaped sizes)
    (group member : ℕ) (c : RolloutCompletion) : (completions.put group member c).Shaped sizes := by
  rw [Completions.Shaped, ← h]
  refine ext_getElem? fun i => ?_
  simp only [Completions.put, getElem?_map, getElem?_modify]
  by_cases hi : group = i
  · subst hi
    cases completions[group]? <;> simp
  · simp [hi]

private theorem takeMembers_shape {outcome : RequestOutcome} {group base : ℕ}
    {output output' : Completions} (h : takeMembers outcome group base output = .ok output')
    (hshape : output.Shaped sizes) : output'.Shaped sizes := by
  have hfold : ∀ (entries : List (RolloutCompletion × ℕ)) (output : Completions),
      output.Shaped sizes → Completions.Shaped sizes (entries.foldl
        (fun output entry => output.put group (base + entry.2) entry.1) output) := by
    intro entries
    induction entries with
    | nil => exact fun _ h => h
    | cons entry rest ih => exact fun output h => ih _ (h.put _ _ _)
  unfold takeMembers at h
  split at h
  · cases h
  · split at h
    · cases h
    · split at h
      · cases h
      · cases h
        exact hfold _ _ hshape

private theorem lockstepWave_shape {queueCapacity : ℕ}
    {groups : List (List Token × List SamplingParams)} {output : Completions}
    {wave : List (ℕ × ℕ)} (hshape : output.Shaped sizes) :
    Returns (lockstepWave out queueCapacity groups output wave)
      (Completions.Shaped sizes) := by
  refine Returns.ite (fun _ => Returns.throw) fun _ => ?_
  refine Returns.any.bind fun _ _ => Returns.any.bind fun _ _ => Returns.any.bind fun _ _ => ?_
  refine Returns.foldlM hshape fun output entry _ hshape => ?_
  exact Returns.any.bind fun c _ => Returns.pure (hshape.put _ _ c)

variable {layout : RowLayout}

private theorem clampGroup_length {group clamped : List Token × List SamplingParams}
    (h : clampGroup layout group = .ok clamped) : clamped.2.length = group.2.length := by
  obtain ⟨room, -, h⟩ := ok_of_bind h
  cases h
  exact length_map ..

/-- The driver returns a completion for every member of every group, and nothing more. -/
theorem runRolloutGroups_shape {queueCapacity capacity : ℕ}
    {groups : List (List Token × List SamplingParams)} :
    Returns (runRolloutGroups out layout queueCapacity capacity groups)
      (Completions.Shaped (groups.map fun group => group.2.length)) := by
  refine Returns.ite (fun _ => Returns.throw) fun _ => Returns.ite (fun _ => Returns.throw)
    fun _ => ?_
  refine (returns_check fun clamped h => h).bind fun clamped hclamped => ?_
  have hclamps := forall₂_of_mapM hclamped
  have hinit : Completions.Shaped (groups.map fun group => group.2.length)
      (clamped.map fun group => List.replicate group.2.length ⟨[], []⟩) := by
    unfold Completions.Shaped
    rw [map_map]
    refine (forall₂_eq_eq_eq ▸ forall₂_map_left_iff.mpr
      (forall₂_map_right_iff.mpr (hclamps.flip.imp fun c g h => ?_)))
    simpa using clampGroup_length h
  cases layout.rolloutAdmission with
  | lockstep => exact Returns.foldlM hinit fun output wave _ h => lockstepWave_shape out h
  | continuous =>
    refine Returns.any.bind fun _ _ => Returns.any.bind fun _ _ => ?_
    exact Returns.foldlM hinit fun output entry _ h =>
      returns_check fun output' hok => takeMembers_shape hok h

/-- A rollout sampled after a prompt, with the text the runtime decoded its tokens to. -/
def SampledAfter (prompt : List Token) (member : Rollout × String) : Prop :=
  ∃ tokens s s', out.detokenize tokens s = (.ok member.2, s') ∧ member.1 =
    ⟨prompt ++ tokens, makeTrainMask prompt.length (prompt ++ tokens).length, []⟩

/-- A sampled group: one member for every seed offset, each after the group's prompt. -/
structure SampledGroup (group : List Token × List ℕ) (members : List (Rollout × String)) :
    Prop where
  length : members.length = group.2.length
  sampled : ∀ member ∈ members, SampledAfter out group.1 member

private theorem decodeGroup_returns {prompt : List Token}
    {completions : List RolloutCompletion} :
    Returns (decodeGroup out prompt completions) fun members =>
      members.length = completions.length ∧ ∀ m ∈ members, SampledAfter out prompt m := by
  refine (Returns.mapM (R := fun _ m => SampledAfter out prompt m) fun completion _ => ?_).mono
    fun members h => ⟨h.length_eq.symm, fun m hm => ?_⟩
  · refine Returns.bind (P := fun text => ∃ s s', out.detokenize completion.tokens s =
      (.ok text, s')) (fun s => ?_) fun text ⟨s, s', h⟩ => Returns.pure ⟨_, s, s', h, rfl⟩
    refine wp_intro (fun text s' h => ?_) fun _ _ _ => trivial
    unfold ask at h
    split at h
    · next hcall => cases h; exact ⟨s, _, hcall⟩
    · cases h
  · obtain ⟨i, hi⟩ := mem_iff_getElem?.mp hm
    exact (forall₂_getElem? h hi).elim fun _ h => h.2

/-- Sampling returns every group it was asked for, in order and in full. -/
theorem sampleRolloutGroupsContinuous_returns {sampling : SamplingParams} {capacity : ℕ}
    {groups : List (List Token × List ℕ)} :
    Returns (sampleRolloutGroupsContinuous out layout sampling capacity groups)
      (Forall₂ (SampledGroup out) groups) := by
  refine Returns.ite (fun _ => Returns.throw) fun _ => Returns.ite (fun _ => Returns.throw)
    fun _ => Returns.any.bind fun _ _ => ?_
  refine (runRolloutGroups_shape out).bind fun completions hshape => ?_
  simp only [Completions.Shaped, map_map, Function.comp_def, length_map] at hshape
  have hlen : completions.length = groups.length := by
    simpa using congrArg List.length hshape
  refine (Returns.mapM (R := fun entry members => SampledGroup out entry.2 members)
    fun entry hentry => ?_).mono fun members h => ?_
  · obtain ⟨i, hi⟩ := mem_iff_getElem?.mp hentry
    obtain ⟨hc, hg⟩ := getElem?_zip_eq_some.mp hi
    have hsize : entry.1.length = entry.2.2.length := by
      have h := congrArg (·[i]?) hshape
      simpa [hc, hg] using h
    exact (decodeGroup_returns out).mono fun members h => ⟨h.1.trans hsize, h.2⟩
  · have hsnd : (completions.zip groups).map Prod.snd = groups :=
      map_snd_zip (by omega)
    rw [← hsnd]
    exact forall₂_map_left_iff.mpr h

end Retrograd.Training
