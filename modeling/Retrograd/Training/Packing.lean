import Retrograd.Logic.Except
import Retrograd.Logic.Tiles
import Retrograd.Training.Rollout

/-!
# Choosing the passes of a packed chunk

Members of one prompt group share the tokens of their prompt, and several groups share one physical
micro-batch while its tokens and its sequence slots allow. Every pass is planned before the first
one is trained; the passes of a plan **cover the members** of the chunk, each once and in order,
and each is **the widest that fits**.
-/

namespace Retrograd.Training

open Infer (Token)
open Logic

/-- What the packers read from one member of a weighted step. -/
class PackMember (M : Type) where
  groupId : M → ℕ
  rollout : M → Rollout

inductive PackRefusal where
  | fanoutDoesNotFit (required available : ℕ)
  | divergentPrefix
  | invalidLayout
  deriving DecidableEq

section Widths

variable {M : Type} [PackMember M]

/-- `usize::checked_add`. -/
def checkedAdd (a b : ℕ) (message : String) : Except Error ℕ :=
  if a + b ≤ usizeMax then .ok (a + b) else .error (.overflow message)

/-- How many members of a chunk go on with the group and the shared tokens of its first. -/
def compatibleRun (first : M) (firstTrain : ℕ) (shared : List Token) : List M → Except Error ℕ
  | [] => .ok 0
  | candidate :: chunk =>
    if PackMember.groupId candidate ≠ PackMember.groupId first then .ok 0
    else do
      let rollout := PackMember.rollout candidate
      let candidateTrain ← firstTrainIndex rollout.tokens rollout.trainMask
      if candidateTrain ≠ firstTrain ∨ rollout.tokens.length < shared.length ∨
          rollout.tokens.take shared.length ≠ shared then
        .ok 0
      else
        let run ← compatibleRun first firstTrain shared chunk
        .ok (run + 1)

/-- The end of the run of members that share the prompt of the one at `start`. -/
def compatibleRunEnd (chunk : List M) (start : ℕ) : Except Error ℕ :=
  match chunk[start]? with
  | none => .error (.panic "index out of bounds")
  | some first => do
    let rollout := PackMember.rollout first
    let firstTrain ← firstTrainIndex rollout.tokens rollout.trainMask
    let shared := rollout.tokens.take (firstTrain - 1)
    let run ← compatibleRun first firstTrain shared (chunk.drop (start + 1))
    .ok (start + 1 + run)

/-- The width of the runs from `start` on, over what is already `required`. -/
def runsWidth (chunk : List M) (layout : RowLayout) :
    ℕ → ℕ → ℕ → Except Error (Except PackRefusal ℕ)
  | 0, _, required => .ok (.ok required)
  | fuel + 1, start, required =>
    match chunk[start]? with
    | none => .ok (.ok required)
    | some first => do
      let rollout := PackMember.rollout first
      let firstTrain ← firstTrainIndex rollout.tokens rollout.trainMask
      if firstTrain < 2 then
        .ok (.error .divergentPrefix)
      else
        let stop ← compatibleRunEnd chunk start
        let required ← checkedAdd required (firstTrain - 1) "packed prefix width overflows usize"
        let required ← ((chunk.drop start).take (stop - start)).foldlM (fun required member => do
          let span ← (PackMember.rollout member).trainingSpanLen
          checkedAdd required span "packed training width overflows usize") required
        runsWidth chunk layout fuel stop required

/-- The exact width of a pass, with an isolated token for every sequence slot it leaves unused. -/
def packedWidth (chunk : List M) (layout : RowLayout) : Except Error (Except PackRefusal ℕ) :=
  if chunk.isEmpty ∨ layout.nSeqMax < chunk.length then
    .ok (.error .invalidLayout)
  else do
    match ← runsWidth chunk layout chunk.length 0 (layout.nSeqMax - chunk.length) with
    | .error refusal => .ok (.error refusal)
    | .ok required =>
      if layout.ubatch < required then
        .ok (.error (.fanoutDoesNotFit required layout.ubatch))
      else .ok (.ok required)

end Widths

/-! ### Choosing -/

inductive PackingSelection where
  | packed (ranges : List (ℕ × ℕ))
  | rows (status reason : String)

/-- The reason a chunk is trained by rows. -/
def PackRefusal.reason : PackRefusal → String
  | .fanoutDoesNotFit required available =>
    s!"physical micro-batch too small: requires {required} tokens, available={available} " ++
      "(including unused sequence slots); increase training.micro_batch and, if needed, " ++
      "training.ctx to a compatible size"
  | .divergentPrefix =>
    "a rollout has fewer than two prompt tokens; no shareable teacher-forcing prefix"
  | .invalidLayout => "invalid packed sequence layout"

def PackRefusal.status : PackRefusal → String
  | .fanoutDoesNotFit .. => "width"
  | .divergentPrefix => "prefix"
  | .invalidLayout => "layout"

/-- `{requested:?}`. -/
def SharedPrefixFanout.debug : SharedPrefixFanout → String
  | auto => "Auto"
  | off => "Off"
  | max => "Max"
  | exact width => s!"Exact({width})"

/-- Whether a chunk that does not fit at the requested width is refused, not packed narrower. -/
def SharedPrefixFanout.locked : SharedPrefixFanout → Bool
  | max | exact _ => true
  | auto | off => false

/-- Whether the requested width names the sequence slots it needs. -/
def SharedPrefixFanout.isExact : SharedPrefixFanout → Bool
  | exact _ => true
  | auto | off | max => false

/-- The width asked for in a chunk of so many members. -/
def SharedPrefixFanout.requestedFanout (requested : SharedPrefixFanout) (members : ℕ) : ℕ :=
  match requested with
  | exact value => min value members
  | auto | off | max => members

section Select

variable {M : Type} [PackMember M]

/-- The status and the reason under which packing is not tried. -/
def packingDisabled (chunk : List M) (layout : RowLayout) (capability : Bool) :
    Option (String × String) :=
  if layout.sharedPrefixFanout = .off then
    some ("off", "disabled by training.shared_prefix_fanout=off")
  else if !capability then
    some ("capability", "the model/device does not support shared-prefix packed training; " ++
      "inspect the runtime capability report")
  else if chunk.length < 2 then
    some ("members", "fewer than two live completions in this optimizer chunk")
  else if layout.nSeqMax < 2 then
    some ("sequences", "the optimizer has fewer than two sequence slots (n_seq_max)")
  else none

/-- The widest pass of at most `count` and at least `least` members that fits, and the last refusal. -/
def widestPass (rest : List M) (layout : RowLayout) (least : ℕ) :
    ℕ → Option PackRefusal → Except Error (Option ℕ × Option PackRefusal)
  | 0, last => .ok (none, last)
  | count + 1, last =>
    if count + 1 < least then .ok (none, last)
    else do
      match ← packedWidth (rest.take (count + 1)) layout with
      | .ok _ => .ok (some (count + 1), last)
      | .error refusal => widestPass rest layout least count (some refusal)

/-- The passes from `start` on, behind the ones in `ranges`; or why the chunk falls back to
rows. -/
def planPasses (chunk : List M) (layout : RowLayout) (maxFanout : ℕ) :
    ℕ → ℕ → List (ℕ × ℕ) → Option PackRefusal →
      Except Error (PackRefusal ⊕ List (ℕ × ℕ) × Option PackRefusal)
  | 0, _, ranges, last => .ok (.inr (ranges, last))
  | fuel + 1, start, ranges, last =>
    if chunk.length ≤ start then .ok (.inr (ranges, last))
    else do
      let most := min maxFanout (chunk.length - start)
      let least := if layout.sharedPrefixFanout.locked then most else 1
      let (chosen, last) ← widestPass (chunk.drop start) layout least most last
      match chosen with
      | some count =>
        planPasses chunk layout maxFanout fuel (start + count)
          (ranges ++ [(start, start + count)]) last
      | none =>
        match last with
        | none => .error (.panic "at least one candidate")
        | some refusal =>
          if layout.sharedPrefixFanout.locked then
            .error (.invalidArgument
              s!"training.shared_prefix_fanout={layout.sharedPrefixFanout.debug}: {refusal.reason}")
          else .ok (.inl refusal)

/-- Plans every pass before the optimizer transaction starts. -/
def selectPacking (chunk : List M) (layout : RowLayout) (capability : Bool) :
    Except Error PackingSelection := do
  let requested := layout.sharedPrefixFanout
  if requested = .exact 0 ∨ requested = .exact 1 then
    .error (.invalidArgument
      "shared-prefix fanout must be at least two; use off to disable packing")
  else
    match packingDisabled chunk layout capability with
    | some (status, reason) =>
      if requested.locked ∧ (status = "capability" ∨ status = "sequences") then
        .error (.invalidArgument reason)
      else .ok (.rows status reason)
    | none =>
      let requestedFanout := requested.requestedFanout chunk.length
      -- only an explicit integer names a width the slots must hold
      if requested.isExact ∧ layout.nSeqMax < requestedFanout then
        .error (.invalidArgument
          (s!"training.shared_prefix_fanout={requested.debug} requires {requestedFanout} " ++
            s!"sequence slots, n_seq_max={layout.nSeqMax}"))
      else
        match ← planPasses chunk layout (min requestedFanout layout.nSeqMax) chunk.length 0 []
          none with
        | .inl refusal => .ok (.rows refusal.status refusal.reason)
        | .inr (ranges, last) =>
          if ranges.all fun range => range.2 - range.1 == 1 then
            match last with
            | none => .error (.panic "multi-member candidate refused")
            | some refusal => .ok (.rows refusal.status refusal.reason)
          else .ok (.packed ranges)

/-! ### The passes cover the chunk -/

variable {layout : RowLayout} {last last' : Option PackRefusal}

theorem widestPass_le {rest : List M} {least count chosen : ℕ}
    (h : widestPass rest layout least count last = .ok (some chosen, last')) :
    0 < chosen ∧ chosen ≤ count := by
  induction count generalizing last with
  | zero => cases h
  | succ count ih =>
    rw [widestPass] at h
    split at h
    · cases h
    · obtain ⟨width, -, h⟩ := ok_of_bind h
      cases width with
      | ok width =>
        obtain ⟨hchosen, -⟩ := Prod.mk.inj (Except.ok.inj h)
        obtain rfl := Option.some.inj hchosen
        exact ⟨Nat.succ_pos _, Nat.le_refl _⟩
      | error refusal =>
        obtain ⟨hpos, hle⟩ := ih h
        exact ⟨hpos, by omega⟩

theorem planPasses_tiles {chunk : List M} {maxFanout fuel start : ℕ}
    {ranges ranges' : List (ℕ × ℕ)} (hstart : start ≤ chunk.length)
    (hfuel : chunk.length ≤ start + fuel) (htiles : Tiles 0 start ranges)
    (h : planPasses chunk layout maxFanout fuel start ranges last = .ok (.inr (ranges', last'))) :
    Tiles 0 chunk.length ranges' := by
  induction fuel generalizing start ranges last with
  | zero =>
    obtain ⟨rfl, -⟩ := Prod.mk.inj (Sum.inr.inj (Except.ok.inj h))
    rwa [show chunk.length = start by omega]
  | succ fuel ih =>
    rw [planPasses] at h
    split at h
    · obtain ⟨rfl, -⟩ := Prod.mk.inj (Sum.inr.inj (Except.ok.inj h))
      rwa [show chunk.length = start by omega]
    · obtain ⟨⟨chosen, refused⟩, hpass, h⟩ := ok_of_bind h
      cases chosen with
      | some count =>
        obtain ⟨hpos, hle⟩ := widestPass_le hpass
        exact ih (by omega) (by omega) (htiles.snoc (by omega)) h
      | none =>
        cases refused with
        | none => cases h
        | some refusal =>
          dsimp only at h
          split at h
          · cases h
          · cases h

variable {chunk : List M} {capability : Bool} {ranges : List (ℕ × ℕ)}

/-- A packed chunk has a plan, whose passes do not all hold one member. -/
theorem selectPacking_plan (h : selectPacking chunk layout capability = .ok (.packed ranges)) :
    (∃ last, planPasses chunk layout (min (layout.sharedPrefixFanout.requestedFanout chunk.length)
      layout.nSeqMax) chunk.length 0 [] none = .ok (.inr (ranges, last))) ∧
    ¬(ranges.all fun range => range.2 - range.1 == 1) = true := by
  unfold selectPacking at h
  dsimp only at h
  split at h
  · cases h
  · cases hdisabled : packingDisabled chunk layout capability with
    | some refused =>
      rw [hdisabled] at h
      dsimp only at h
      split at h
      · cases h
      · cases h
    | none =>
      rw [hdisabled] at h
      dsimp only at h
      split at h
      · cases h
      · obtain ⟨plan, hplan, h⟩ := ok_of_bind h
        cases plan with
        | inl refusal => cases h
        | inr plan =>
          obtain ⟨found, last⟩ := plan
          dsimp only at h
          split at h
          · cases last <;> cases h
          · next hmany =>
            obtain rfl := PackingSelection.packed.inj (Except.ok.inj h)
            exact ⟨⟨last, hplan⟩, hmany⟩

/-- The passes of a packed chunk take its members one after another, each once. -/
theorem selectPacking_tiles {chunk : List M} {capability : Bool} {ranges : List (ℕ × ℕ)}
    (h : selectPacking chunk layout capability = .ok (.packed ranges)) :
    Tiles 0 chunk.length ranges := by
  obtain ⟨⟨last, hplan⟩, -⟩ := selectPacking_plan h
  exact planPasses_tiles (Nat.zero_le _) (by omega) (.nil 0) hplan

/-! ### The passes are the widest that fit -/

theorem packedWidth_le {width : ℕ} (h : packedWidth chunk layout = .ok (.ok width)) :
    chunk.length ≤ layout.nSeqMax ∧ width ≤ layout.ubatch := by
  unfold packedWidth at h
  split at h
  · cases h
  · next hslots =>
    obtain ⟨required, -, h⟩ := ok_of_bind h
    cases required with
    | error refusal => cases h
    | ok required =>
      dsimp only at h
      split at h
      · cases h
      · next hfits =>
        cases h
        exact ⟨Nat.le_of_not_lt fun hlt => hslots (.inr hlt), Nat.le_of_not_lt hfits⟩

/-- A pass of `count` of the members `rest` fits, and none of more members, up to `most`, does. -/
def Widest (rest : List M) (layout : RowLayout) (most count : ℕ) : Prop :=
  0 < count ∧ count ≤ most ∧ (∃ width, packedWidth (rest.take count) layout = .ok (.ok width)) ∧
    ∀ more, count < more → more ≤ most →
      ∃ refusal, packedWidth (rest.take more) layout = .ok (.error refusal)

theorem widestPass_widest {rest : List M} {least count chosen : ℕ}
    (h : widestPass rest layout least count last = .ok (some chosen, last')) :
    Widest rest layout count chosen ∧ least ≤ chosen := by
  induction count generalizing last with
  | zero => cases h
  | succ count ih =>
    rw [widestPass] at h
    split at h
    · cases h
    · next hleast =>
      obtain ⟨width, hwidth, h⟩ := ok_of_bind h
      cases width with
      | ok width =>
        cases h
        exact ⟨⟨count.succ_pos, le_rfl, ⟨width, hwidth⟩, fun more hlt hle => by omega⟩, by omega⟩
      | error refusal =>
        obtain ⟨⟨hpos, hle, hfits, hmore⟩, hchosen⟩ := ih h
        refine ⟨⟨hpos, by omega, hfits, fun more hlt hmost => ?_⟩, hchosen⟩
        rcases hmost.lt_or_eq with hmost | rfl
        · exact hmore more hlt (by omega)
        · exact ⟨refusal, hwidth⟩

/-- A pass of a plan: the widest of its start, and as wide as asked for when that is locked. -/
def PlannedPass (chunk : List M) (layout : RowLayout) (maxFanout : ℕ) (range : ℕ × ℕ) : Prop :=
  Widest (chunk.drop range.1) layout (min maxFanout (chunk.length - range.1))
    (range.2 - range.1) ∧
  (layout.sharedPrefixFanout.locked = true →
    range.2 - range.1 = min maxFanout (chunk.length - range.1))

theorem planPasses_planned {maxFanout fuel start : ℕ} {ranges' : List (ℕ × ℕ)}
    (hranges : ∀ range ∈ ranges, PlannedPass chunk layout maxFanout range)
    (h : planPasses chunk layout maxFanout fuel start ranges last = .ok (.inr (ranges', last'))) :
    ∀ range ∈ ranges', PlannedPass chunk layout maxFanout range := by
  induction fuel generalizing start ranges last with
  | zero =>
    cases h
    exact hranges
  | succ fuel ih =>
    rw [planPasses] at h
    split at h
    · cases h
      exact hranges
    · obtain ⟨⟨chosen, refused⟩, hpass, h⟩ := ok_of_bind h
      cases chosen with
      | some count =>
        obtain ⟨hwidest, hleast⟩ := widestPass_widest hpass
        refine ih (fun range hrange => ?_) h
        rcases List.mem_append.mp hrange with hrange | hrange
        · exact hranges range hrange
        · obtain rfl := List.mem_singleton.mp hrange
          rw [PlannedPass, Nat.add_sub_cancel_left]
          -- a locked width is the least that is tried
          exact ⟨hwidest, fun hlocked => le_antisymm hwidest.2.1
            (by rwa [if_pos hlocked] at hleast)⟩
      | none =>
        cases refused with
        | none => cases h
        | some refusal =>
          dsimp only at h
          split at h
          · cases h
          · cases h

/-- **A packed chunk is packed greedily.** Every pass fits the micro-batch and the sequence slots,
no pass that starts with the same member and takes more of the next ones would, a locked width is
never narrowed, and some pass holds two members. -/
theorem selectPacking_greedy (h : selectPacking chunk layout capability = .ok (.packed ranges)) :
    (∀ range ∈ ranges, PlannedPass chunk layout
      (min (layout.sharedPrefixFanout.requestedFanout chunk.length) layout.nSeqMax) range) ∧
    (∀ range ∈ ranges, ∃ width, packedWidth ((chunk.drop range.1).take (range.2 - range.1)) layout =
      .ok (.ok width) ∧ width ≤ layout.ubatch) ∧
    ∃ range ∈ ranges, 2 ≤ range.2 - range.1 := by
  obtain ⟨⟨last, hplan⟩, hmany⟩ := selectPacking_plan h
  have hplanned := planPasses_planned (fun _ hrange => absurd hrange List.not_mem_nil) hplan
  refine ⟨hplanned, fun range hrange => ?_, ?_⟩
  · obtain ⟨⟨-, -, ⟨width, hwidth⟩, -⟩, -⟩ := hplanned range hrange
    exact ⟨width, hwidth, (packedWidth_le hwidth).2⟩
  · obtain ⟨range, hrange, hwide⟩ : ∃ range ∈ ranges, range.2 - range.1 ≠ 1 := by simpa using hmany
    have := (hplanned range hrange).1.1
    exact ⟨range, hrange, by omega⟩

instance : PackMember (ℕ × Rollout) := ⟨Prod.fst, Prod.snd⟩

/-- Three completions of one prompt, one more than there are sequence slots. -/
def threeCompletions : List (ℕ × Rollout) :=
  [3, 4, 5].map fun token => (0, ⟨[1, 2, token], [false, false, true], [0]⟩)

theorem threeCompletions_greedy : ∃ ranges, selectPacking threeCompletions
    ⟨3, 3, 0, 3, 3, 2, .auto, 1, .lockstep, 1, 3⟩ true = .ok (.packed ranges) ∧
    ∃ range ∈ ranges, 2 ≤ range.2 - range.1 := by
  have h : selectPacking threeCompletions ⟨3, 3, 0, 3, 3, 2, .auto, 1, .lockstep, 1, 3⟩ true =
    .ok (.packed [(0, 2), (2, 3)]) := rfl
  exact ⟨_, h, (selectPacking_greedy h).2.2⟩

end Select

end Retrograd.Training
