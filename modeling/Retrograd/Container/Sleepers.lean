import Retrograd.Container.Wakeups
import Retrograd.Container.Drained

/-!
# Nobody sleeps on a free slot

A slot that frees up is announced, and a wake-up is never lost while it still has somebody to go
to: the wake-ups that are stored, on their way or still to be announced **cover** the free slots,
or else they cover the callers that wait. Two steps can break the cover. A warm-up whose creation
fails frees its slot **without** an announcement; and an announcement that finds nobody registered
and a permit stored already is lost, which matters when two callers had looked at the state and
were not registered yet.
-/

namespace Retrograd.Container

open List
open Relation (ReflTransGen)
open Logic

/-! ### Wake-ups and waits -/

/-- The slots a caller could take. -/
def Served.free (config : PoolConfig) (served : Served) : ℕ :=
  served.pool.idle.length + (config.maxLive - served.pool.live)

/-- An announcement that is still to be made. -/
def Caller.owes : Caller → ℕ
  | .announcing .one _ => 1
  | _ => 0

/-- A caller that was woken and has not looked at the state since. -/
def Caller.roused : Caller → ℕ
  | .looping true | .listening _ true => 1
  | _ => 0

/-- A caller that found no slot and is not registered yet. -/
def Caller.hesitates : Caller → ℕ
  | .unpolled _ => 1
  | _ => 0

/-- A warm-up whose creation failed, and whose slot is still to be freed. -/
def Task.fails : Task → ℕ
  | .warmFailed => 1
  | _ => 0

/-- A closing that is still to be announced. -/
def Caller.closes : Caller → ℕ
  | .pooled (.emptying _) | .pooled (.emptied _) | .announcing .waiters _ => 1
  | _ => 0

/-- A wake-up is stored, on its way to a waiter, or still to be announced. -/
def WakeUp (c : Serving) : Prop :=
  c.shared.available.permit = true ∨ c.shared.available.woken ≠ [] ∨ c.shared.owed = true ∨
    ∃ caller ∈ c.threads, caller.owes + caller.roused + caller.closes ≠ 0

/-- Some `acquire` is suspended and registered. -/
def Asleep (c : Serving) : Prop :=
  ∃ id, .suspended id ∈ c.threads ∧ id ∈ c.shared.available.waiters

/-- A caller that sleeps with no wake-up to come sleeps for a reason. -/
def Rested (config : PoolConfig) (c : Serving) : Prop :=
  Asleep c → ¬WakeUp c →
    c.shared.pool.idle = [] ∧ c.shared.pool.live = config.maxLive ∧ c.shared.pool.closed = false

/-- The wake-ups cover the free slots, or those not on their way yet cover the callers that
wait. -/
def Served.Covered (config : PoolConfig) (served : Served) (owed roused hesitant : ℕ) : Prop :=
  served.free config ≤ served.available.stored + (served.available.woken.length + roused) +
      (served.owed.toNat + owed) ∨
    served.available.waiters.length + hesitant ≤
      served.available.stored + (served.owed.toNat + owed)

/-- One more free slot would be covered too, or so would `lost` more callers that wait. -/
def Served.Spares (config : PoolConfig) (served : Served) (lost owed roused hesitant : ℕ) : Prop :=
  served.free config + 1 ≤ served.available.stored +
      (served.available.woken.length + roused) + (served.owed.toNat + owed) ∨
    served.available.waiters.length + hesitant + lost ≤
      served.available.stored + (served.owed.toNat + owed)

def Covers (config : PoolConfig) (c : Serving) : Prop :=
  c.shared.Covered config (total Caller.owes c.threads) (total Caller.roused c.threads)
    (total Caller.hesitates c.threads)

def Spare (config : PoolConfig) (lost : ℕ) (c : Serving) : Prop :=
  c.shared.Spares config lost (total Caller.owes c.threads) (total Caller.roused c.threads)
    (total Caller.hesitates c.threads)

/-- An announcement would be lost. -/
def Served.Saturated (served : Served) : Prop :=
  served.available.permit = true ∧ served.available.waiters = []

/-- The steps that lose no wake-up somebody needs: while the pool is open, a slot that is freed
without an announcement, and an announcement that is lost, can be spared. -/
inductive Heeded (config : PoolConfig) : Serving → Serving → Prop
  | own {served served' fine} (threads) (h : served.reclaim config fine = some served')
      (hcall : served.pool.closed = false → served.owed = true → served.Saturated →
        Spare config 1 ⟨served, threads⟩) :
    Heeded config ⟨served, threads⟩ ⟨served', threads⟩
  | spawn {caller} (served threads) (h : Caller.Fresh config caller) :
    Heeded config ⟨served, threads⟩ ⟨served, caller :: threads⟩
  | act {served served' caller caller' choice} (before after)
      (h : caller.act config served choice = some (caller', served'))
      (hcall : served.pool.closed = false → caller.owes = 1 → served.Saturated →
        Spare config 1 ⟨served, before ++ caller :: after⟩)
      (hfailed : served.pool.closed = false → caller = .pooled .warmFailed →
        Spare config 0 ⟨served, before ++ caller :: after⟩) :
    Heeded config ⟨served, before ++ caller :: after⟩ ⟨served', before ++ caller' :: after⟩

theorem Heeded.serves {config : PoolConfig} {c c' : Serving} (h : Heeded config c c') :
    Serves config c c' := by
  cases h with
  | own threads h hcall => exact .own threads ⟨_, h⟩
  | spawn served threads h => exact .spawn served threads h
  | act before after h hcall hfailed => exact .act before after ⟨_, h⟩

/-! ### The cover -/

section Cover

variable {config : PoolConfig} {pool pool' : Pool} {task task' : Task} {choice : Choice}
  {served served' : Served} {caller caller' : Caller} {promised underway hesitant : ℕ}

/-- A section that leaves the pool open frees at most the slot it announces, or that of a warm-up
that failed. -/
theorem Task.act_free (h : task.act config pool choice = some (task', pool'))
    (hacquiring : task ≠ .acquiring) (hemptied : ∀ idle, task = .emptied idle → pool.closed = true)
    (hopen : pool'.closed = false) : pool.closed = false ∧
      pool'.idle.length + (config.maxLive - pool'.live) ≤
        pool.idle.length + (config.maxLive - pool.live) +
          (task.goesOn task').owes + task.fails := by
  have hclosed : pool.closed = false := by
    by_contra hclosed
    have := (Task.act_closed h).2.1 (by simpa using hclosed)
    rw [hopen] at this
    cases this
  refine ⟨hclosed, ?_⟩
  cases task with
  | acquiring => exact absurd rfl hacquiring
  | warming count =>
    cases choice with
    | go =>
      simp only [Task.act] at h
      split at h
      · cases h
        exact Nat.le_add_right_of_le (Nat.le_add_right _ _)
      · cases h
        dsimp only
        omega
    | drop =>
      cases h
      exact Nat.le_add_right_of_le (Nat.le_add_right _ _)
    | fail | poison | sweep => cases h
  | warmed count container =>
    cases choice with
    | go =>
      simp only [Task.act, hclosed, Bool.false_eq_true, if_false] at h
      cases h
      simp only [length_cons, Task.goesOn, Task.announces, Caller.owes]
      omega
    | fail | drop | poison | sweep => cases h
  | createFailed | warmFailed =>
    cases choice <;> cases h
    simp only [Task.goesOn, Task.announces, Caller.owes, Task.fails]
    omega
  | emptied idle =>
    rw [hemptied idle rfl] at hclosed
    cases hclosed
  | closing | forcing =>
    cases choice <;> cases h
    cases hopen
  | creating born | warmCreating _ born | abandoned born =>
    cases born <;> cases choice <;> cases h <;> exact Nat.le_add_right_of_le (Nat.le_add_right _ _)
  | emptying idle =>
    cases idle <;> cases choice <;> cases h
    exact Nat.le_add_right_of_le (Nat.le_add_right _ _)
  | waiting | handing | holding | discarding | sweeping | undestroyed | done =>
    cases choice <;> cases h <;> exact Nat.le_add_right_of_le (Nat.le_add_right _ _)

/-- The janitor announces what it frees. -/
theorem Pool.reclaim_free {fine : Bool} (h : pool.reclaim config fine = some pool') :
    pool'.closed = pool.closed ∧ pool'.idle.length + (config.maxLive - pool'.live) ≤
      pool.idle.length + (config.maxLive - pool.live) + pool.janitor.frees.toNat := by
  unfold Pool.reclaim at h
  split at h
  · split at h
    · cases h
    · cases h
      exact ⟨rfl, Nat.le_add_right _ _⟩
  · split at h <;> cases h <;> exact ⟨rfl, Nat.le_add_right _ _⟩
  · split at h <;> cases h <;> exact ⟨rfl, Nat.le_add_right _ _⟩
  · split at h <;> cases h <;> exact ⟨rfl, Nat.le_add_right _ _⟩
  · next hrecycled =>
    cases h
    refine ⟨rfl, ?_⟩
    simp only [hrecycled, Janitor.frees, length_cons, Bool.toNat_true]
    omega
  · cases h
    exact ⟨rfl, Nat.le_add_right _ _⟩
  · next hdestroyed =>
    cases h
    refine ⟨rfl, ?_⟩
    simp only [hdestroyed, Janitor.frees, Bool.toNat_true]
    omega

/-- An announcement keeps the cover, unless it is lost and cannot be spared. -/
theorem Served.Covered.notifyOne (h : served.Covered config (promised + 1) underway hesitant)
    (hspare : served.Saturated → served.Spares config 1 (promised + 1) underway hesitant) :
    Served.Covered config { served with available := served.available.notifyOne } promised underway
      hesitant := by
  rcases served.available.notifyOne_spec with ⟨id, waiters, hwaiters, heq⟩ | ⟨hnone, heq⟩
  · unfold Covered at h ⊢
    simp only [heq, hwaiters, Notify.stored, free, length_cons] at h ⊢
    omega
  · cases hpermit : served.available.permit with
    | false =>
      unfold Covered at h ⊢
      simp only [heq, hnone, hpermit, Notify.stored, free, Bool.toNat_false, Bool.toNat_true] at h ⊢
      omega
    | true =>
      have hspare := hspare ⟨hpermit, hnone⟩
      unfold Spares at hspare
      unfold Covered
      simp only [heq, hnone, hpermit, Notify.stored, free, Bool.toNat_true, length_nil]
        at hspare ⊢
      omega

/-- Tasks that act on a closed pool. -/
def Task.Closing : Task → Prop
  | .discarding _ _ | .emptying _ | .emptied _ => True
  | _ => False

def Caller.Closing : Caller → Prop
  | .pooled task | .announcing .one task => task.Closing
  | .announcing .waiters _ | .draining | .drainListening _ | .drainUnpolled _ | .drainSuspended _
  | .drainPassing | .drained => True
  | .looping _ | .listening _ _ | .unpolled _ | .suspended _ => False

@[simp] theorem Task.goesOn_roused (task task' : Task) : (task.goesOn task').roused = 0 := by
  unfold Task.goesOn
  cases task.announces task' <;> rfl

@[simp] theorem Task.goesOn_hesitates (task task' : Task) : (task.goesOn task').hesitates = 0 := by
  unfold Task.goesOn
  cases task.announces task' <;> rfl

/-- **One step keeps the cover.** -/
theorem Caller.Moves.covered (h : Caller.Moves config caller served caller' served')
    (hclosing : caller.Closing → served.pool.closed = true)
    (hcover : served.pool.closed = false → served.Covered config (caller.owes + promised)
      (caller.roused + underway) (caller.hesitates + hesitant))
    (hcall : served.pool.closed = false → caller.owes = 1 → served.Saturated →
      served.Spares config 1 (caller.owes + promised) (caller.roused + underway)
        (caller.hesitates + hesitant))
    (hfailed : served.pool.closed = false → caller = .pooled .warmFailed →
      served.Spares config 0 (caller.owes + promised) (caller.roused + underway)
        (caller.hesitates + hesitant))
    (hopen : served'.pool.closed = false) :
    served'.Covered config (caller'.owes + promised) (caller'.roused + underway)
      (caller'.hesitates + hesitant) := by
  have hopen' (h : served.pool.closed = true) (heq : served'.pool.closed = served.pool.closed) :
      False := by
    rw [heq, h] at hopen
    cases hopen
  cases h with
  | @works _ task task' pool choice hacquiring hwaiting h =>
    obtain ⟨hclosed, hfree⟩ := Task.act_free h hacquiring
      (fun idle hemptied => hclosing (by rw [hemptied]; trivial)) hopen
    have hcover := hcover hclosed
    rw [Task.goesOn_roused, Task.goesOn_hesitates]
    generalize (task.goesOn task').owes = announced at hfree ⊢
    cases task with
    | warmFailed =>
      have hspare := hfailed hclosed rfl
      unfold Served.Spares at hspare
      unfold Served.Covered
      simp only [Served.free, owes, roused, hesitates, Task.fails] at hspare hfree ⊢
      omega
    | _ =>
      unfold Served.Covered at hcover ⊢
      simp only [Served.free, owes, roused, hesitates, Task.fails] at hcover hfree ⊢
      omega
  | empties | announcesAll | drains | drainEnds | drainWaits | drainReady | drainRegisters
  | drainWakes | drainCancels | drainPasses | drainAnnounces =>
    exact (hopen' (hclosing trivial) rfl).elim
  | announcesOne served task =>
    have hcover := hcover hopen
    have hcall := hcall hopen rfl
    simp only [owes, roused, hesitates, zero_add, add_comm 1 promised] at hcover hcall ⊢
    exact hcover.notifyOne hcall
  | listens served woken =>
    cases woken <;> exact hcover hopen
  | givesUp => exact hcover hopen
  | takes future woken hwaiting h =>
    rcases Task.acquiring_cases h with ⟨hclosed, -, rfl⟩ | ⟨hclosed, hnext⟩
    · exact (hopen' hclosed rfl).elim
    · have hcover := hcover hclosed
      unfold Served.Covered at hcover ⊢
      rcases hnext with ⟨entry, idle, hidle, rfl, rfl⟩ | ⟨hidle, hroom, rfl, rfl⟩ |
          ⟨-, -, rfl, -⟩
      · cases woken <;> simp only [Served.free, owes, roused, hesitates, hidle,
          length_cons] at hcover ⊢ <;> omega
      · cases woken <;> simp only [Served.free, owes, roused, hesitates, hidle,
          length_nil] at hcover ⊢ <;> omega
      · exact absurd rfl hwaiting
  | waits future woken hclosed hidle hfull =>
    left
    simp only [Served.free, hidle, length_nil]
    omega
  | ready h =>
    obtain ⟨permit, rfl, hstored⟩ := Notify.poll_ready h
    have hcover := hcover hopen
    unfold Served.Covered at hcover ⊢
    simp only [Served.free, owes, roused, hesitates] at hcover ⊢
    omega
  | registers h =>
    obtain ⟨hpermit, -, rfl⟩ := Notify.poll_pending h
    have hcover := hcover hopen
    unfold Served.Covered at hcover ⊢
    simp only [Served.free, owes, roused, hesitates, Notify.stored, hpermit, length_append,
      length_singleton] at hcover ⊢
    omega
  | @wakes _ id _ h =>
    obtain ⟨-, rfl⟩ := Notify.resume_spec h
    have hwoken : served.available.woken.length ≤
        (served.available.woken.erase id).length + 1 := by
      rw [length_erase]
      split_ifs <;> omega
    have hcover := hcover hopen
    unfold Served.Covered at hcover ⊢
    simp only [Served.free, owes, roused, hesitates, Notify.stored] at hcover ⊢
    omega
  | cancels h =>
    obtain ⟨waiters, hsub, rfl⟩ := Notify.cancel_asleep h
    have hlength := hsub.length_le
    have hcover := hcover hopen
    unfold Served.Covered at hcover ⊢
    simp only [Served.free, owes, roused, hesitates, Notify.stored] at hcover ⊢
    omega
  | passes h =>
    obtain ⟨woken, hlength, rfl⟩ := Notify.cancel_chosen h
    have hcover := hcover hopen
    unfold Served.Covered at hcover ⊢
    simp only [Served.free, owes, roused, hesitates, Notify.stored] at hcover ⊢
    omega

/-- A step of the janitor keeps it too. -/
theorem Served.reclaim_covered {fine : Bool} (h : served.reclaim config fine = some served')
    (hcover : served.pool.closed = false → served.Covered config promised underway hesitant)
    (hcall : served.pool.closed = false → served.owed = true → served.Saturated →
      served.Spares config 1 promised underway hesitant) (hopen : served'.pool.closed = false) :
    served'.Covered config promised underway hesitant := by
  unfold Served.reclaim at h
  split at h
  · next howed =>
    cases h
    have hcover := hcover hopen
    have hcall := hcall hopen howed
    -- the same announcement, promised by the janitor
    have hmove : Served.Covered config { served with owed := false } (promised + 1) underway hesitant := by
      unfold Covered at hcover ⊢
      simp only [free, howed, Bool.toNat_true, Bool.toNat_false] at hcover ⊢
      omega
    refine hmove.notifyOne fun hsaturated => ?_
    have hspare := hcall hsaturated
    unfold Spares at hspare ⊢
    simp only [free, howed, Bool.toNat_true, Bool.toNat_false] at hspare ⊢
    omega
  · next howed =>
    obtain ⟨pool, hreclaim, rfl⟩ := Option.map_eq_some_iff.mp h
    obtain ⟨hclosed, hfree⟩ := Pool.reclaim_free hreclaim
    have hcover := hcover (hclosed ▸ hopen)
    have howed : served.owed = false := by simpa using howed
    unfold Covered at hcover ⊢
    simp only [free, howed, Bool.toNat_false] at hcover ⊢
    omega

end Cover

end Retrograd.Container
