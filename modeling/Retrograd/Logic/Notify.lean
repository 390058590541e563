import Mathlib.Data.List.Basic

/-!
# Notifications

What a task waits on. `notifyOne` wakes the first **registered** future or else stores a permit, of
which there is at most one; `notifyWaiters` wakes every future that exists. A future is registered
when it is first polled, and not before: what comes between its creation and that poll reaches it
through the permit or through the count of `notifyWaiters` calls it was created with.
-/

namespace Retrograd.Logic

structure Notify where
  permit : Bool
  /-- How often `notifyWaiters` was called. -/
  calls : ℕ
  /-- The registered futures, the first to be woken first. -/
  waiters : List ℕ
  /-- The futures `notifyOne` chose that were not polled since. -/
  woken : List ℕ
  nextFuture : ℕ
  deriving DecidableEq

/-- A future, with the calls that had been made when it was created. -/
structure Notified where
  id : ℕ
  calls : ℕ
  deriving DecidableEq

namespace Notify

def new : Notify := ⟨false, 0, [], [], 0⟩

variable (notify : Notify)

/-- Creates a future. -/
def notified : Notified × Notify :=
  (⟨notify.nextFuture, notify.calls⟩, { notify with nextFuture := notify.nextFuture + 1 })

/-- The first poll of a future: whether it is ready, and it is registered if not. -/
def poll (future : Notified) : Bool × Notify :=
  if notify.permit then (true, { notify with permit := false })
  else if future.calls ≠ notify.calls then (true, notify)
  else (false, { notify with waiters := notify.waiters ++ [future.id] })

/-- A registered future is polled again. -/
def resume (id : ℕ) : Option Notify :=
  if id ∈ notify.waiters then none else some { notify with woken := notify.woken.erase id }

def notifyOne : Notify :=
  match notify.waiters with
  | [] => { notify with permit := true }
  | id :: waiters => { notify with waiters, woken := id :: notify.woken }

def notifyWaiters : Notify := { notify with calls := notify.calls + 1, waiters := [] }

/-- A registered future is dropped: whether `notifyOne` had chosen it, and is to choose again. -/
def cancel (id : ℕ) : Bool × Notify :=
  if id ∈ notify.waiters then (false, { notify with waiters := notify.waiters.erase id })
  else (decide (id ∈ notify.woken), { notify with woken := notify.woken.erase id })

/-- The permits that are stored. -/
def stored : ℕ := notify.permit.toNat

/-! ### What each operation does -/

variable {notify} {notify' : Notify} {future : Notified} {id : ℕ}

/-- A future that was ready took the permit, or was created before a call. -/
theorem poll_ready (h : notify.poll future = (true, notify')) :
    ∃ permit, notify' = { notify with permit } ∧ notify.stored ≤ notify'.stored + 1 := by
  unfold poll at h
  split_ifs at h <;> cases h
  · have hle := Bool.toNat_le notify.permit
    exact ⟨false, rfl, Nat.le_trans hle (Nat.le_add_left _ _)⟩
  · exact ⟨notify.permit, rfl, Nat.le_succ _⟩

/-- A future that was not is registered, with no permit stored. -/
theorem poll_pending (h : notify.poll future = (false, notify')) :
    notify.permit = false ∧ future.calls = notify.calls ∧
      notify' = { notify with waiters := notify.waiters ++ [future.id] } := by
  unfold poll at h
  split_ifs at h with hpermit hcalls
  · cases h
  · cases h
  · exact ⟨by simpa using hpermit, not_not.mp hcalls, (Prod.mk.inj h).2.symm⟩

/-- A future that is polled again had been woken. -/
theorem resume_spec (h : notify.resume id = some notify') :
    id ∉ notify.waiters ∧ notify' = { notify with woken := notify.woken.erase id } := by
  unfold resume at h
  split_ifs at h with hwaiting
  exact ⟨hwaiting, (Option.some.inj h).symm⟩

/-- A future dropped with no wake-up on its way leaves the others theirs. -/
theorem cancel_asleep (h : notify.cancel id = (false, notify')) :
    ∃ waiters, waiters.Sublist notify.waiters ∧ notify' = { notify with waiters } := by
  unfold cancel at h
  split_ifs at h with hwaiting
  · cases h
    exact ⟨_, List.erase_sublist, rfl⟩
  · obtain ⟨hwoken, rfl⟩ := Prod.mk.inj h
    rw [List.erase_of_not_mem (of_decide_eq_false hwoken)]
    exact ⟨_, .refl _, rfl⟩

/-- A future dropped with a wake-up on its way no longer has it. -/
theorem cancel_chosen (h : notify.cancel id = (true, notify')) :
    ∃ woken : List ℕ, notify.woken.length = woken.length + 1 ∧
      notify' = { notify with woken } := by
  unfold cancel at h
  split_ifs at h with hwaiting
  · cases h
  · obtain ⟨hwoken, rfl⟩ := Prod.mk.inj h
    exact ⟨_, (List.length_erase_add_one (of_decide_eq_true hwoken)).symm, rfl⟩

/-- A call wakes the first of the registered, or stores the permit. -/
theorem notifyOne_spec (notify : Notify) :
    (∃ id waiters, notify.waiters = id :: waiters ∧
      notify.notifyOne = { notify with waiters, woken := id :: notify.woken }) ∨
    (notify.waiters = [] ∧ notify.notifyOne = { notify with permit := true }) := by
  unfold notifyOne
  split
  · next hnone => exact .inr ⟨hnone, rfl⟩
  · next id waiters hsome => exact .inl ⟨id, waiters, hsome, rfl⟩

end Notify

end Retrograd.Logic
