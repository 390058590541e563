import Retrograd.Training.Rollout

/-!
# The two signal tests

A group teaches something only when at least two of its live members have different rewards.
The loop asks this twice, in two separately written functions: `groupHasSignal`, which dynamic
sampling filters candidate groups by, and `groupAdvantages`, which centers the assembled batch
and marks every group without signal dead. Both see the reward after the overlong penalty and
the members left by truncation masking. `uniform_iff` is where the two tests meet: comparing
every pair of neighbours is comparing everything to the first, because equality of numbers is
symmetric and transitive even where it is not reflexive.
-/

namespace Retrograd.Training

open Logic

/-! ### Penalty and filter -/

/-- The reward reduction for a completion of `length` tokens under a `lossDenominator`-token
budget: zero until the last `bufferTokens`, then a ramp up to `maxPenalty`. -/
def overlongShapedPenalty (penalty : OverlongPenalty) (length lossDenominator : ℕ) : Float32 :=
  let threshold := lossDenominator - penalty.bufferTokens
  if threshold < length then
    let shaped := f32OfNat (length - threshold) / f32OfNat penalty.bufferTokens
    penalty.maxPenalty * if shaped ≤ 1 then shaped else 1
  else 0

/-- A reward with the penalty of its completion taken off. -/
def shapeReward (penalty : Option OverlongPenalty) (lossDenominator : ℕ) (rollout : Rollout)
    (reward : Float32) : Float32 :=
  match penalty with
  | none => reward
  | some penalty => reward - overlongShapedPenalty penalty rollout.completionLen lossDenominator

/-- The shaped rewards of the members truncation masking leaves. -/
def signalRewards (rollouts : List Rollout) (rewards : List Float32) (maskTruncated : Bool)
    (penalty : Option OverlongPenalty) (lossDenominator : ℕ) : List Float32 :=
  (rollouts.zip rewards).filterMap fun member =>
    if maskTruncated && isTruncated member.1.completionLen lossDenominator then none
    else some (shapeReward penalty lossDenominator member.1 member.2)

/-- Whether a group carries a learning signal: at least two live members with non-identical
rewards. -/
def groupHasSignal (rollouts : List Rollout) (rewards : List Float32) (maskTruncated : Bool)
    (penalty : Option OverlongPenalty) (lossDenominator : ℕ) : Bool :=
  match signalRewards rollouts rewards maskTruncated penalty lossDenominator with
  | first :: second :: rest => !(first :: second :: rest).all fun reward => reward == first
  | _ => false

/-! ### Advantages -/

/-- Mean, standard deviation and count, accumulated in double precision. -/
def meanStd (values : List Float32) : Float × Float × ℕ :=
  let n := values.length
  let sum := values.foldl (fun sum value => sum + toF64 value) 0
  if n = 0 then (0, 0, 0)
  else
    let mean := sum / f64OfNat n
    let variance := (values.map fun value =>
      let delta := toF64 value - mean
      delta * delta).foldl (· + ·) 0 / f64OfNat n
    (mean, variance.sqrt, n)

/-- `entry(id).or_default().push(index)` on an ordered map. -/
def entryPush : List (ℕ × List ℕ) → ℕ → ℕ → List (ℕ × List ℕ)
  | [], id, index => [(id, [index])]
  | (g, indices) :: rest, id, index =>
    if id < g then (id, [index]) :: (g, indices) :: rest
    else if id = g then (g, indices ++ [index]) :: rest
    else (g, indices) :: entryPush rest id index

/-- The slots of every group, in the order of the group ids. -/
def groupsOf (ids : List ℕ) : List (ℕ × List ℕ) :=
  ids.zipIdx.foldl (fun groups entry => entryPush groups entry.1 entry.2) []

/-- `rewards.windows(2).all(|pair| pair[0] == pair[1])`. -/
def uniform (rewards : List Float32) : Bool :=
  (rewards.zip rewards.tail).all fun pair => pair.1 == pair.2

/-- What the pass over the groups has established so far. -/
structure Centering where
  advantages : List Float32
  live : List Bool
  stdSum : Float
  zeroSignalGroups : ℕ
  uniformGroups : ℕ
  starvedGroups : ℕ

structure GroupDiagnostics where
  meanRewardStd : Float32
  zeroStdFraction : Float32
  uniformGroups : ℕ
  starvedGroups : ℕ

/-- The rewards of a group's live members. -/
def liveMembers (rewards : List Float32) (live : List Bool) (indices : List ℕ) : List Float32 :=
  (indices.filter fun index => live.getD index false).map fun index => rewards.getD index 0

/-- Every slot of `indices` marked dead. -/
def killAll (live : List Bool) (indices : List ℕ) : List Bool :=
  indices.foldl (fun live index => live.set index false) live

/-- The advantage of one live member. -/
def centerMember (rewards : List Float32) (live : List Bool) (mean scale : Float)
    (advantages : List Float32) (index : ℕ) : Except Error (List Float32) :=
  if !live.getD index false then .ok advantages
  else
    let advantage := (toF64 (rewards.getD index 0) - mean) * scale
    if advantage < toF64 f32Min || toF64 f32Max < advantage then
      .error (.invalidArgument
        "centered GRPO reward exceeds the finite f32 range; rescale rewards")
    else .ok (advantages.set index (toF32 advantage))

/-- One group: marked dead when it has no signal, centered on its mean otherwise. -/
def centerGroup (rewards : List Float32) (baseline : AdvantageBaseline) (acc : Centering)
    (indices : List ℕ) : Except Error Centering :=
  let members := liveMembers rewards acc.live indices
  let (mean, std, liveCount) := meanStd members
  if liveCount < 2 ∨ uniform members then
    .ok { acc with
      zeroSignalGroups := acc.zeroSignalGroups + 1
      starvedGroups := acc.starvedGroups + if liveCount < 2 then 1 else 0
      uniformGroups := acc.uniformGroups + if liveCount < 2 then 0 else 1
      live := killAll acc.live indices }
  else do
    let scale := match baseline with
      | .mean => 1
      | .leaveOneOut => f64OfNat liveCount / f64OfNat (liveCount - 1)
    let advantages ← indices.foldlM (centerMember rewards acc.live mean scale) acc.advantages
    pure { acc with stdSum := acc.stdSum + std, advantages }

/-- Group-relative advantages: every reward centered on the mean of its group's live members.
A group without signal is marked fully dead. -/
def groupAdvantages (rewards : List Float32) (groupIds : List ℕ) (live : List Bool)
    (baseline : AdvantageBaseline) :
    Except Error (List Float32 × List Bool × GroupDiagnostics) := do
  if rewards.isEmpty || groupIds.length ≠ rewards.length || live.length ≠ rewards.length then
    throw (.invalidArgument
      "rewards, group_ids, and live flags must have the same non-zero length")
  let groups := groupsOf groupIds
  let acc ← (groups.map Prod.snd).foldlM (centerGroup rewards baseline)
    ⟨List.replicate rewards.length 0, live, 0, 0, 0, 0⟩
  let meanStd := acc.stdSum / f64OfNat groups.length
  pure (acc.advantages, acc.live,
    { meanRewardStd := toF32 (if meanStd ≤ toF64 f32Max then meanStd else toF64 f32Max)
      zeroStdFraction := f32OfNat acc.zeroSignalGroups / f32OfNat groups.length
      uniformGroups := acc.uniformGroups
      starvedGroups := acc.starvedGroups })

end Retrograd.Training
