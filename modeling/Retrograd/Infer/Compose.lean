import Retrograd.Infer.State

/-!
# Composing a step

The plan of one step: decode rows first, one token per live decoding member and rotated by a
cursor when there are more than fit, then prefill chunks and terminal rows with what is left of
the token budget. In lockstep mode decode rows wait until no group prefills.
-/

namespace Retrograd.Infer

/-- Which live row a composed step row belongs to. -/
inductive RowKind where
  | decode (group member : ℕ)
  | prefill (group finish : ℕ) (sampledMember : Option ℕ)
  | terminal (group member : ℕ)
  deriving DecidableEq, Repr

/-- The rows of a step, each with what it belongs to. -/
abbrev Plan := List (StepRow × RowKind)

/-- A step position as an `i32`. -/
def position (pos : ℕ) : Except Stop ℕ :=
  if pos ≤ i32Max then .ok pos
  else .error (.error (.overflow "a step position does not fit i32"))

/-- The live members of the groups that decode, as group and member indices. -/
def decodeList (live : List LiveGroup) : List (ℕ × ℕ) :=
  live.zipIdx.flatMap fun (group, g) =>
    if group.phase = .decode then
      group.members.zipIdx.filterMap fun (member, m) => if member.live then some (g, m) else none
    else []

/-- The row of a decoding member. -/
def decodeRow (live : List LiveGroup) (g m : ℕ) : Except Stop (StepRow × RowKind) :=
  match live[g]? with
  | none => .error (.panic .noGroup)
  | some group =>
    match group.members[m]? with
    | none => .error (.panic .noMember)
    | some member => do
      let pos0 ← position (group.prompt.length + member.generated - 1)
      pure (⟨member.requestId, member.slot, [member.nextToken], pos0, true, member.sampling,
        member.nTopLogprobs, member.wantLogprob, group.adapter⟩, .decode g m)

/-- The row of a prefilling group's next `chunk` tokens. -/
def prefillRow (group : LiveGroup) (g pos chunk : ℕ) : Except Stop (StepRow × RowKind) :=
  match group.members[group.leader]? with
  | none => .error (.panic .noMember)
  | some leader => do
    let finish := pos + chunk
    let sampled := group.members.length = 1 ∧ finish = group.prompt.length
    let pos0 ← position pos
    pure (⟨leader.requestId, leader.slot, (group.prompt.take finish).drop pos, pos0, sampled,
      leader.sampling, if sampled then leader.nTopLogprobs else 0,
      sampled && leader.wantLogprob, group.adapter⟩,
      .prefill g finish (if sampled then some 0 else none))

/-- The terminal rows of `members`, the first of which has index `m`. -/
def terminalRows (nBatch : ℕ) (group : LiveGroup) (g : ℕ) :
    ℕ → List LiveMember → ℕ → Except Stop (Plan × ℕ)
  | _, [], used => .ok ([], used)
  | m, member :: members, used =>
    if nBatch ≤ used then .ok ([], used)
    else if !member.live then terminalRows nBatch group g (m + 1) members used
    else do
      let last := group.prompt.length - 1
      let pos0 ← position last
      let (plan, used) ← terminalRows nBatch group g (m + 1) members (used + 1)
      pure ((⟨member.requestId, member.slot, group.prompt.drop last, pos0, true, member.sampling,
        member.nTopLogprobs, member.wantLogprob, group.adapter⟩, .terminal g m) :: plan, used)

/-- The prefill and terminal rows of the groups `live`, the first of which has index `g`. -/
def prefillRows (nBatch : ℕ) : ℕ → List LiveGroup → ℕ → Except Stop (Plan × ℕ)
  | _, [], used => .ok ([], used)
  | g, group :: live, used =>
    if nBatch ≤ used then .ok ([], used)
    else
      match group.phase with
      | .prefill pos =>
        let chunk := min (nBatch - used) (group.prefixEnd - pos)
        if chunk = 0 then prefillRows nBatch (g + 1) live used
        else do
          let row ← prefillRow group g pos chunk
          let (plan, used) ← prefillRows nBatch (g + 1) live (used + chunk)
          pure (row :: plan, used)
      | .terminal next => do
        let (rows, used) ← terminalRows nBatch group g next (group.members.drop next) used
        let (plan, used) ← prefillRows nBatch (g + 1) live used
        pure (rows ++ plan, used)
      | .decode => prefillRows nBatch (g + 1) live used

/-- What `compose` returns: the plan and its number of tokens, and the two rotation states it
leaves. -/
structure Composed where
  plan : Except Stop (Plan × ℕ)
  decodeCursor : ℕ
  prefillTurn : Bool

/-- Composes the next step's plan. -/
def compose (live : List LiveGroup) (nBatch : ℕ) (mode : AdmissionMode) (decodeCursor : ℕ)
    (prefillTurn : Bool) : Composed :=
  let nBatch := max nBatch 1
  let prefillActive := live.any fun group => group.phase != .decode
  let allowDecode := mode = .continuous ∨ !prefillActive
  let decoding := if allowDecode then decodeList live else []
  let shared := mode = .continuous ∧ prefillActive
  let turn := if shared ∧ nBatch = 1 then !prefillTurn else prefillTurn
  let budget :=
    if shared then
      if nBatch = 1 then (if turn then 0 else 1) else nBatch - 1
    else nBatch
  let start := decodeCursor % decoding.length
  let count := min budget decoding.length
  let chosen := (decoding.rotate start).take count
  { plan := do
      let decodes ← chosen.mapM fun (g, m) => decodeRow live g m
      let (prefills, used) ← prefillRows nBatch 0 live chosen.length
      pure (decodes ++ prefills, used)
    decodeCursor := if decoding.isEmpty then decodeCursor else (start + count) % decoding.length
    prefillTurn := turn }

end Retrograd.Infer
