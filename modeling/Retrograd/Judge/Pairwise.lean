import Retrograd.Judge.PairSchedule
import Mathlib.Algebra.Order.Field.Rat

/-!
# Two trajectories per request

Every scheduled pair is asked once, or once in each presentation order. Comparisons a **cache**
answers need no request; the rest form one wave, and each verdict is stored as a one-element score
row. The verdicts are folded back by pair, the two orders of a pair combined, and the outcomes
turned into one **win rate** per trajectory.

Win rates are exact here: single precision adds halves without rounding, so the division is the one
rounding between these values and the code's.
-/

namespace Retrograd.Judge

/-! ### Verdicts -/

inductive Winner where
  | a
  | b
  | tie
  deriving DecidableEq

/-- The same verdict on the pair presented the other way round. -/
def Winner.exchanged : Winner → Winner
  | .a => .b
  | .b => .a
  | .tie => .tie

/-- A judge's answer to one comparison, with its explanation. -/
abbrev Verdict := Winner × String

structure Score where
  value : ℚ
  valid : Bool
  explanation : Option String
  error : Option String

/-- What a comparison can fail with. -/
inductive JudgeError where
  | invalid (message : String)
  | reward (message : String)
  deriving DecidableEq

/-- Combines the two verdicts on one pair judged in both presentation orders. Only an agreement
counts as a verdict; a disagreement is recorded as a tie. -/
def combineOrders (forward swapped : Winner) : Winner × Bool :=
  if forward = swapped.exchanged then (forward, false) else (.tie, true)

/-- One completed comparison. -/
structure PairOutcome where
  left : ℕ
  right : ℕ
  winner : Winner
  explanation : String

/-! ### Win rates -/

namespace PairOutcome

/-- How often a trajectory takes part. -/
def matchesOf (outcome : PairOutcome) (index : ℕ) : ℕ :=
  (if outcome.left = index then 1 else 0) + (if outcome.right = index then 1 else 0)

/-- What a trajectory wins. -/
def winsOf (outcome : PairOutcome) (index : ℕ) : ℚ :=
  match outcome.winner with
  | .a => if outcome.left = index then 1 else 0
  | .b => if outcome.right = index then 1 else 0
  | .tie => (if outcome.left = index then 1 / 2 else 0) +
      (if outcome.right = index then 1 / 2 else 0)

end PairOutcome

/-- The outcomes between members of the group. -/
def inGroup (size : ℕ) (outcomes : List PairOutcome) : List PairOutcome :=
  outcomes.filter fun outcome => outcome.left < size && outcome.right < size

def matchCount (outcomes : List PairOutcome) (index : ℕ) : ℕ :=
  (outcomes.map (·.matchesOf index)).sum

def winCount (outcomes : List PairOutcome) (index : ℕ) : ℚ :=
  (outcomes.map (·.winsOf index)).sum

/-- The explanations of a trajectory's comparisons. -/
def notesOf (outcomes : List PairOutcome) (index : ℕ) : List String :=
  outcomes.flatMap fun outcome => List.replicate (outcome.matchesOf index) outcome.explanation

/-- Turns comparisons into one score per trajectory. A trajectory with no completed comparison is
reported invalid. -/
def scoresFromPairs (size : ℕ) (outcomes : List PairOutcome) : List Score :=
  (List.range size).map fun index =>
    let outcomes := inGroup size outcomes
    if matchCount outcomes index = 0 then
      { value := 0
        valid := false
        explanation := none
        error := some "no completed pairwise comparison" }
    else
      { value := winCount outcomes index / matchCount outcomes index
        valid := true
        explanation := some (" | ".intercalate (notesOf outcomes index))
        error := none }

/-! ### Outcomes -/

/-- The verdicts of a wave, by scheduled pair and presentation order. -/
abbrev Verdicts := ℕ × ℕ → Bool → Option Verdict

/-- The outcome of one pair from its forward verdict, and the swapped one read back through the
exchange when both orders ran. -/
def pairOutcome (bothOrders : Bool) (verdicts : Verdicts) (pair : ℕ × ℕ) : Option PairOutcome :=
  match verdicts pair false with
  | none => none
  | some (winner, explanation) =>
    match bothOrders, verdicts pair true with
    | true, some (swapped, swappedExplanation) =>
      let (winner, disagreed) := combineOrders winner swapped
      some
        { left := pair.1
          right := pair.2
          winner
          explanation := if disagreed then
            s!"order-dependent verdict: {explanation} / {swappedExplanation}" else explanation }
    | _, _ => some ⟨pair.1, pair.2, winner, explanation⟩

/-- The text of a pair without an outcome. -/
def failedPair (pair : ℕ × ℕ) : JudgeError :=
  .reward s!"the comparison of trajectories {pair.1} and {pair.2} failed"

/-- The outcomes of a schedule, and the last failure. -/
def foldOutcomes (bothOrders : Bool) (verdicts : Verdicts) (schedule : List (ℕ × ℕ))
    (lastError : Option JudgeError) : List PairOutcome × Option JudgeError :=
  schedule.foldl (fun (outcomes, lastError) pair =>
    match pairOutcome bothOrders verdicts pair with
    | some outcome => (outcomes ++ [outcome], lastError)
    | none => (outcomes, some (failedPair pair))) ([], lastError)

/-- The scores of a schedule's verdicts. -/
def scoreVerdicts (size : ℕ) (schedule : List (ℕ × ℕ)) (bothOrders : Bool) (verdicts : Verdicts)
    (lastError : Option JudgeError) : Except JudgeError (List Score) :=
  let (outcomes, lastError) := foldOutcomes bothOrders verdicts schedule lastError
  if outcomes.isEmpty then
    .error (lastError.getD (.reward "every pairwise comparison failed"))
  else .ok (scoresFromPairs size outcomes)

/-! ### The wave -/

/-- One planned comparison: the pair, its cache key, and whether this request is the swapped twin
of another. -/
structure PlannedComparison where
  left : ℕ
  right : ℕ
  swapped : Bool
  key : String

/-- What a wave runs against. `key` is the cache key of the prompt that presents one trajectory
before the other, `complete` the wave's result for each of its requests, and `store` writes a row
to the cache. -/
structure Court where
  key : ℕ → ℕ → String
  cache : String → Option (List Score)
  complete : PlannedComparison → Except JudgeError Verdict
  store : String → List Score → Except JudgeError Unit

/-- The comparison of a pair in one presentation order. -/
def planned (key : ℕ → ℕ → String) (pair : ℕ × ℕ) (swapped : Bool) : PlannedComparison :=
  let (a, b) := if swapped then (pair.2, pair.1) else (pair.1, pair.2)
  ⟨pair.1, pair.2, swapped, key a b⟩

/-- Every comparison, and its swapped twin when both orders are asked for. -/
def plan (key : ℕ → ℕ → String) (schedule : List (ℕ × ℕ)) (bothOrders : Bool) :
    List PlannedComparison :=
  schedule.flatMap fun pair =>
    ([false, true].filter fun swapped => !swapped || bothOrders).map (planned key pair)

/-- The row a verdict is stored as. -/
def verdictRow (verdict : Verdict) : List Score :=
  [{ value := match verdict.1 with
      | .a => 1
      | .b => 0
      | .tie => 1 / 2
     valid := true
     explanation := some verdict.2
     error := none }]

/-- A cached row read back as a verdict. -/
def replay : List Score → Except JudgeError Verdict
  | [] => .error (.reward "empty cached judge verdict")
  | score :: _ =>
    .ok (if 3 / 4 < score.value then .a else if score.value < 1 / 4 then .b else .tie,
      score.explanation.getD "")

/-- The verdict of one comparison, which a failed request or a failed write leaves empty. -/
def Court.judge (court : Court) (comparison : PlannedComparison) :
    Except JudgeError (Option Verdict × Option JudgeError) :=
  match court.cache comparison.key with
  | some row =>
    match replay row with
    | .error e => .error e
    | .ok verdict => .ok (some verdict, none)
  | none =>
    match court.complete comparison with
    | .error e => .ok (none, some e)
    | .ok verdict =>
      match court.store comparison.key (verdictRow verdict) with
      | .error e => .ok (none, some e)
      | .ok () => .ok (some verdict, none)

/-- The planned comparisons with their verdicts, and the last failure. -/
def Court.hear (court : Court) : List PlannedComparison → Option JudgeError →
    Except JudgeError (List (PlannedComparison × Option Verdict) × Option JudgeError)
  | [], lastError => .ok ([], lastError)
  | comparison :: rest, lastError =>
    match court.judge comparison with
    | .error e => .error e
    | .ok (verdict, failure) =>
      match court.hear rest (failure.or lastError) with
      | .error e => .error e
      | .ok (heard, lastError) => .ok ((comparison, verdict) :: heard, lastError)

/-- The verdicts of a wave folded back by pair and order. -/
def byPair (heard : List (PlannedComparison × Option Verdict)) : Verdicts := fun pair swapped =>
  heard.reverse.findSome? fun (comparison, verdict) =>
    if comparison.left = pair.1 ∧ comparison.right = pair.2 ∧ comparison.swapped = swapped then
      verdict
    else none

/-- Runs a comparison schedule and aggregates it into win rates. -/
def scoreScheduled (court : Court) (size : ℕ) (schedule : List (ℕ × ℕ)) (bothOrders : Bool) :
    Except JudgeError (List Score) :=
  if schedule.isEmpty then
    .error (.invalid "pairwise judging needs at least two trajectories")
  else
    match court.hear (plan court.key schedule bothOrders) none with
    | .error e => .error e
    | .ok (heard, lastError) => scoreVerdicts size schedule bothOrders (byPair heard) lastError

def scorePairwiseVia (court : Court) (size : ℕ) (maxPairs : Option ℕ) (bothOrders : Bool) :
    Except JudgeError (List Score) :=
  scoreScheduled court size (pairSchedule size maxPairs) bothOrders

end Retrograd.Judge
