import Mathlib.Data.List.Chain

/-!
# The status of a run

A run's handle is the only thing that writes its state, and `transitionAllowed` decides what may
follow what: **a terminal status is final**. A transition that is granted and moves the run is
published as one event; the outcome of a run is published by a terminal event beside it.
-/

namespace Retrograd.Server

inductive RunStatus
  | queued
  | resolving
  | starting
  | running
  | paused
  | pausing
  | cancelling
  | completed
  | failed
  | cancelled
  /-- Found live in the state directory when the server started. -/
  | interrupted
  deriving DecidableEq, Repr

/-- Whether the run is over. -/
def RunStatus.isTerminal : RunStatus → Bool
  | .completed | .failed | .cancelled | .interrupted => true
  | _ => false

/-- Whether `target` may follow `current`. Re-asserting the current status is no conflict. -/
def transitionAllowed (current target : RunStatus) : Bool :=
  if current = target then true
  else match current with
    | .queued => target ∈ [.resolving, .starting, .cancelled, .failed]
    | .resolving => target ∈ [.starting, .failed, .cancelled]
    -- a run may be paused while its model still loads
    | .starting => target ∈ [.running, .pausing, .failed, .cancelled, .cancelling]
    | .running => target ∈ [.pausing, .cancelling, .completed, .failed, .cancelled]
    | .pausing => target ∈ [.paused, .cancelling, .completed, .failed, .cancelled]
    | .paused => target ∈ [.running, .cancelling, .cancelled, .failed]
    | .cancelling => target ∈ [.cancelled, .completed, .failed]
    | .completed | .failed | .cancelled | .interrupted => false

theorem transitionAllowed_terminal {current target : RunStatus} (hterminal : current.isTerminal)
    (h : transitionAllowed current target) : current = target := by
  cases current <;> cases target <;> simp_all [RunStatus.isTerminal, transitionAllowed]

/-- What an event of a run says. Only the fields that something here reads are kept. -/
inductive RunEventPayload
  | status (status : RunStatus)
  | progress
  | metrics (iteration globalStep : ℕ) (values : List (String × Float32))
  | evaluation
  | checkpoint (path : String)
  | memory (note : String)
  | log (message : String)
  | terminal (status : RunStatus) (error : Option String)

def RunEventPayload.isTerminal : RunEventPayload → Bool
  | .terminal _ _ => true
  | _ => false

/-- Neither a status nor an outcome: what the engine itself reports. -/
def RunEventPayload.isReport : RunEventPayload → Bool
  | .status _ | .terminal _ _ => false
  | _ => true

/-- Where the run is now, and where it has been. -/
structure RunState where
  status : RunStatus
  error : Option String
  transitions : List RunStatus

def RunState.new : RunState := ⟨.queued, none, [.queued]⟩

/-- The locked half of a transition: refused, already there, or moved. -/
inductive Transition
  | refused
  | already
  | moved (state : RunState)

def RunState.transition (state : RunState) (status : RunStatus) : Transition :=
  if transitionAllowed state.status status then
    if state.status = status then .already
    else .moved { state with status, transitions := state.transitions ++ [status] }
  else .refused

/-- The state a transition leaves, whether or not it was granted, and the event still to emit. -/
def RunState.publish (state : RunState) (status : RunStatus) :
    RunState × List RunEventPayload :=
  match state.transition status with
  | .moved state => (state, [.status status])
  | .already | .refused => (state, [])

/-! ### What a transition can do -/

variable {state : RunState} {status : RunStatus}

/-- A transition either leaves the run as it is, or is an allowed move. -/
theorem RunState.publish_cases (state : RunState) (status : RunStatus) :
    state.publish status = (state, []) ∧
        (state.status = status ∨ transitionAllowed state.status status = false) ∨
      transitionAllowed state.status status ∧ state.status ≠ status ∧
        state.publish status = ({ state with status, transitions := state.transitions ++ [status] },
          [.status status]) := by
  unfold RunState.publish RunState.transition
  by_cases hallowed : transitionAllowed state.status status
  · by_cases hsame : state.status = status
    · exact .inl ⟨by rw [if_pos hallowed, if_pos hsame], .inl hsame⟩
    · exact .inr ⟨hallowed, hsame, by rw [if_pos hallowed, if_neg hsame]⟩
  · exact .inl ⟨by rw [if_neg hallowed], .inr (by simpa using hallowed)⟩

theorem RunState.publish_granted (hallowed : transitionAllowed state.status status)
    (hother : state.status ≠ status) :
    state.publish status = ({ state with status, transitions := state.transitions ++ [status] },
      [.status status]) := by
  rcases state.publish_cases status with ⟨-, hsame | hrefused⟩ | ⟨-, -, heq⟩
  · exact absurd hsame hother
  · rw [hallowed] at hrefused
    cases hrefused
  · exact heq

/-- Nothing moves a run that is over. -/
theorem RunState.publish_terminal (hterminal : state.status.isTerminal) (status : RunStatus) :
    state.publish status = (state, []) := by
  rcases state.publish_cases status with ⟨h, -⟩ | ⟨hallowed, hother, -⟩
  · exact h
  · exact absurd (transitionAllowed_terminal hterminal hallowed) hother

theorem RunState.publish_error (state : RunState) (status : RunStatus) :
    (state.publish status).1.error = state.error := by
  rcases state.publish_cases status with ⟨h, -⟩ | ⟨-, -, h⟩ <;> rw [h]

/-- The way of a run so far: allowed transitions only, up to where it is now. -/
structure RunState.Lawful (state : RunState) : Prop where
  chain : state.transitions.IsChain fun current target => transitionAllowed current target
  last : state.transitions.getLast? = some state.status

theorem RunState.new_lawful : RunState.new.Lawful := ⟨.singleton _, rfl⟩

theorem RunState.Lawful.publish (h : state.Lawful) (status : RunStatus) :
    (state.publish status).1.Lawful := by
  rcases state.publish_cases status with ⟨heq, -⟩ | ⟨hallowed, -, heq⟩
  · rw [heq]
    exact h
  · rw [heq]
    refine ⟨List.isChain_append.mpr ⟨h.chain, .singleton _, ?_⟩, by simp⟩
    intro current hcurrent target htarget
    obtain rfl := Option.some.inj (h.last.symm.trans hcurrent)
    obtain rfl : status = target := by simpa using htarget
    exact hallowed

end Retrograd.Server
