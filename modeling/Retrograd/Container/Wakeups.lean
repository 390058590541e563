import Retrograd.Logic.Notify
import Retrograd.Container.Leases

/-!
# Waiting for a sandbox

A caller that finds neither an idle container nor room for one waits on the pool's `available`.
The pool's sections are those of `Task.act`; here the calls that **announce** a freed slot come
after them as steps of their own, and `acquire` goes through the stages of its wait: the future is
created before the state is looked at, polled after it, and registered by that poll. A shutdown
waits on the same notifications until the pool is drained.
-/

namespace Retrograd.Container

open List Option
open Relation (ReflTransGen ReflGen)
open Logic

/-- A pool, and what its callers wait on. -/
structure Served where
  pool : Pool
  available : Notify
  /-- The janitor has freed a slot and not announced it. -/
  owed : Bool

def Served.new : Served := ⟨.new, .new, false⟩

/-- The sections of the janitor that free a slot. -/
def Janitor.frees : Janitor → Bool
  | .recycled _ | .destroyed => true
  | _ => false

/-- The janitor's next step: `reclaim` ends with an announcement, whichever way the slot became
free. -/
def Served.reclaim (config : PoolConfig) (served : Served) (fine : Bool) : Option Served :=
  if served.owed then
    some { served with available := served.available.notifyOne, owed := false }
  else (served.pool.reclaim config fine).map fun pool =>
    { served with pool, owed := served.pool.janitor.frees }

inductive Announcement
  | one
  | waiters
  deriving DecidableEq

def Announcement.make : Announcement → Notify → Notify
  | .one => Notify.notifyOne
  | .waiters => Notify.notifyWaiters

/-- What a section of a task announces before the task goes on. A warm-up whose creation failed
announces nothing. -/
def Task.announces : Task → Task → Option Announcement
  | .createFailed, _ => some .one
  | .warmed _ _, .warming _ => some .one
  | .discarding _ _, .warming _ => some .waiters
  | .forcing, _ => some .waiters
  | _, _ => none

/-- What acts on a pool with its waits. -/
inductive Caller
  /-- Anywhere but in a wait. -/
  | pooled (task : Task)
  | announcing (announcement : Announcement) (task : Task)
  /-- `acquire`, at the top of its loop, from its call or from a wake-up. -/
  | looping (woken : Bool)
  /-- The future is created, the state not looked at. -/
  | listening (future : Notified) (woken : Bool)
  /-- There was no slot, and the future is still to be polled. -/
  | unpolled (future : Notified)
  | suspended (id : ℕ)
  /-- `shutdown`, at the top of its drain. -/
  | draining
  | drainListening (future : Notified)
  | drainUnpolled (future : Notified)
  | drainSuspended (id : ℕ)
  /-- A wait ran out with a wake-up on its way, which goes to the next future. -/
  | drainPassing
  | drained

/-- A task after one of its sections. -/
def Task.goesOn (task task' : Task) : Caller :=
  match task.announces task' with
  | some announcement => .announcing announcement task'
  | none => .pooled task'

/-- The next step of a task that does not wait. -/
def Task.serve (config : PoolConfig) (task : Task) (served : Served) (choice : Choice) :
    Option (Caller × Served) :=
  match task, choice with
  | .acquiring, _ | .waiting, _ => none
  | .emptying [], .go =>
    some (.draining, { served with available := served.available.notifyWaiters })
  | task, choice => (task.act config served.pool choice).map fun (task', pool) =>
    (task.goesOn task', { served with pool })

/-- The calls that may arrive. -/
inductive Caller.Fresh (config : PoolConfig) : Caller → Prop
  | acquire : Fresh config (.looping false)
  | prewarm (count : ℕ) : Fresh config (.pooled (.warming (max count config.minIdle)))
  | shutdown : Fresh config (.pooled .closing)
  | forceCleanup : Fresh config (.pooled .forcing)

/-- The next step of a caller. A drain may fail by its deadline or by the timeout of one wait. -/
def Caller.act (config : PoolConfig) (caller : Caller) (served : Served) (choice : Choice) :
    Option (Caller × Served) :=
  match caller, choice with
  | .pooled task, choice => task.serve config served choice
  | .announcing announcement task, .go =>
    some (.pooled task, { served with available := announcement.make served.available })
  | .looping woken, .go =>
    let (future, available) := served.available.notified
    some (.listening future woken, { served with available })
  | .looping false, .drop => some (.pooled .done, served)
  | .listening future _, .go =>
    match Task.acquiring.act config served.pool .go with
    | some (.waiting, pool) => some (.unpolled future, { served with pool })
    | some (task, pool) => some (.pooled task, { served with pool })
    | none => none
  | .unpolled future, .go =>
    let (ready, available) := served.available.poll future
    some (if ready then .looping true else .suspended future.id, { served with available })
  | .suspended id, .go =>
    (served.available.resume id).map fun available => (.looping true, { served with available })
  | .suspended id, .drop =>
    -- a wake-up that was on its way to this future goes to the next one
    let (chosen, available) := served.available.cancel id
    some (if chosen then .announcing .one .done else .pooled .done, { served with available })
  | .draining, .go =>
    let (future, available) := served.available.notified
    some (.drainListening future, { served with available })
  | .drainListening future, .go =>
    some (if served.pool.live = 0 then .drained else .drainUnpolled future, served)
  | .drainListening _, .fail => some (.drained, served)
  | .drainUnpolled future, .go =>
    let (ready, available) := served.available.poll future
    some (if ready then .draining else .drainSuspended future.id, { served with available })
  | .drainSuspended id, .go =>
    (served.available.resume id).map fun available => (.draining, { served with available })
  | .drainSuspended id, .fail =>
    let (chosen, available) := served.available.cancel id
    some (if chosen then .drainPassing else .draining, { served with available })
  | .drainPassing, .go =>
    some (.draining, { served with available := served.available.notifyOne })
  | _, _ => none

abbrev Serving := Config Served Caller

/-- One step, of the janitor or of any caller, or a call that arrives. -/
def Serves (config : PoolConfig) : Serving → Serving → Prop :=
  Interleaved (fun served served' => ∃ fine, served.reclaim config fine = some served')
    (Caller.Fresh config)
    fun caller served caller' served' =>
      ∃ choice, caller.act config served choice = some (caller', served')

/-! ### What a step can be -/

/-- The steps of a caller. -/
inductive Caller.Moves (config : PoolConfig) : Caller → Served → Caller → Served → Prop
  | works {served task task' pool choice} (hacquiring : task ≠ .acquiring)
      (hwaiting : task ≠ .waiting) (h : task.act config served.pool choice = some (task', pool)) :
    Moves config (.pooled task) served (task.goesOn task') { served with pool }
  | empties (served) : Moves config (.pooled (.emptying [])) served .draining
      { served with available := served.available.notifyWaiters }
  | announcesOne (served task) : Moves config (.announcing .one task) served (.pooled task)
      { served with available := served.available.notifyOne }
  | announcesAll (served task) : Moves config (.announcing .waiters task) served (.pooled task)
      { served with available := served.available.notifyWaiters }
  | listens (served woken) : Moves config (.looping woken) served
      (.listening served.available.notified.1 woken)
      { served with available := served.available.notified.2 }
  | givesUp (served) : Moves config (.looping false) served (.pooled .done) served
  | takes {served task pool} (future woken) (hwaiting : task ≠ .waiting)
      (h : Task.acquiring.act config served.pool .go = some (task, pool)) :
    Moves config (.listening future woken) served (.pooled task) { served with pool }
  | waits {served} (future woken) (hopen : served.pool.closed = false)
      (hidle : served.pool.idle = []) (hfull : config.maxLive ≤ served.pool.live) :
    Moves config (.listening future woken) served (.unpolled future) served
  | ready {served future available} (h : served.available.poll future = (true, available)) :
    Moves config (.unpolled future) served (.looping true) { served with available }
  | registers {served future available} (h : served.available.poll future = (false, available)) :
    Moves config (.unpolled future) served (.suspended future.id) { served with available }
  | wakes {served id available} (h : served.available.resume id = some available) :
    Moves config (.suspended id) served (.looping true) { served with available }
  | cancels {served id available} (h : served.available.cancel id = (false, available)) :
    Moves config (.suspended id) served (.pooled .done) { served with available }
  | passes {served id available} (h : served.available.cancel id = (true, available)) :
    Moves config (.suspended id) served (.announcing .one .done) { served with available }
  | drains (served) : Moves config .draining served
      (.drainListening served.available.notified.1)
      { served with available := served.available.notified.2 }
  | drainEnds (served future) : Moves config (.drainListening future) served .drained served
  | drainWaits (served future) :
    Moves config (.drainListening future) served (.drainUnpolled future) served
  | drainReady {served future available} (h : served.available.poll future = (true, available)) :
    Moves config (.drainUnpolled future) served .draining { served with available }
  | drainRegisters {served future available}
      (h : served.available.poll future = (false, available)) :
    Moves config (.drainUnpolled future) served (.drainSuspended future.id)
      { served with available }
  | drainWakes {served id available} (h : served.available.resume id = some available) :
    Moves config (.drainSuspended id) served .draining { served with available }
  | drainCancels {served id available} (h : served.available.cancel id = (false, available)) :
    Moves config (.drainSuspended id) served .draining { served with available }
  | drainPasses {served id available} (h : served.available.cancel id = (true, available)) :
    Moves config (.drainSuspended id) served .drainPassing { served with available }
  | drainAnnounces (served) : Moves config .drainPassing served .draining
      { served with available := served.available.notifyOne }

section Steps

variable {config : PoolConfig} {served served' : Served} {caller caller' : Caller}
  {choice : Choice}

/-- What `acquire` sees when it looks at the state. -/
theorem Task.acquiring_cases {pool pool' : Pool} {task' : Task}
    (h : Task.acquiring.act config pool .go = some (task', pool')) :
    (pool.closed = true ∧ task' = .done ∧ pool' = pool) ∨
    pool.closed = false ∧
      ((∃ entry idle, pool.idle = entry :: idle ∧ task' = .handing entry ∧
        pool' = { pool with idle }) ∨
      (pool.idle = [] ∧ pool.live < config.maxLive ∧ task' = .creating none ∧
        pool' = { pool with live := pool.live + 1 }) ∨
      (pool.idle = [] ∧ config.maxLive ≤ pool.live ∧ task' = .waiting ∧ pool' = pool)) := by
  simp only [Task.act] at h
  split at h
  · next hclosed =>
    cases h
    exact .inl ⟨hclosed, rfl, rfl⟩
  · next hopen =>
    refine .inr ⟨by simpa using hopen, ?_⟩
    split at h
    · next entry idle hidle =>
      cases h
      exact .inl ⟨entry, idle, hidle, rfl, rfl⟩
    · next hidle =>
      split at h
      · next hroom =>
        cases h
        exact .inr (.inl ⟨hidle, hroom, rfl, rfl⟩)
      · next hfull =>
        cases h
        exact .inr (.inr ⟨hidle, not_lt.mp hfull, rfl, rfl⟩)

theorem Task.serve_moves {task : Task}
    (h : task.serve config served choice = some (caller', served')) :
    Caller.Moves config (.pooled task) served caller' served' := by
  unfold Task.serve at h
  split at h
  · cases h
  · cases h
  · cases h
    exact .empties served
  · next hacquiring hwaiting _ =>
    obtain ⟨⟨task', pool⟩, hact, heq⟩ := map_eq_some_iff.mp h
    cases heq
    exact .works hacquiring hwaiting hact

theorem Caller.act_moves (h : caller.act config served choice = some (caller', served')) :
    Caller.Moves config caller served caller' served' := by
  cases caller with
  | pooled task => exact Task.serve_moves h
  | announcing announcement task =>
    cases announcement <;> cases choice <;> cases h
    · exact .announcesOne served task
    · exact .announcesAll served task
  | looping woken =>
    cases choice with
    | go =>
      cases h
      exact .listens served woken
    | drop =>
      cases woken <;> cases h
      exact .givesUp served
    | fail | poison | sweep => cases woken <;> cases h
  | listening future woken =>
    cases choice with
    | go =>
      simp only [Caller.act] at h
      split at h
      · next pool hact =>
        cases h
        rcases Task.acquiring_cases hact with ⟨-, hdone, -⟩ | ⟨hopen, hnext⟩
        · cases hdone
        · rcases hnext with ⟨_, _, -, hhanding, -⟩ | ⟨-, -, hcreating, -⟩ | ⟨hidle, hfull, -, rfl⟩
          · cases hhanding
          · cases hcreating
          · exact .waits future woken hopen hidle hfull
      · next task pool hwaiting hact =>
        cases h
        exact .takes future woken hwaiting hact
      · cases h
    | fail | drop | poison | sweep => cases h
  | unpolled future =>
    cases choice with
    | go =>
      simp only [Caller.act, some.injEq, Prod.mk.injEq] at h
      obtain ⟨rfl, rfl⟩ := h
      split
      · next hready => exact .ready (Prod.ext hready rfl)
      · next hpending => exact .registers (Prod.ext (by simpa using hpending) rfl)
    | fail | drop | poison | sweep => cases h
  | suspended id =>
    cases choice with
    | go =>
      obtain ⟨available, hresume, heq⟩ := map_eq_some_iff.mp h
      cases heq
      exact .wakes hresume
    | drop =>
      simp only [Caller.act, some.injEq, Prod.mk.injEq] at h
      obtain ⟨rfl, rfl⟩ := h
      split
      · next hchosen => exact .passes (Prod.ext hchosen rfl)
      · next hasleep => exact .cancels (Prod.ext (by simpa using hasleep) rfl)
    | fail | poison | sweep => cases h
  | draining =>
    cases choice <;> cases h
    exact .drains served
  | drainListening future =>
    cases choice with
    | go =>
      simp only [Caller.act, some.injEq, Prod.mk.injEq] at h
      obtain ⟨rfl, rfl⟩ := h
      split
      · exact .drainEnds served future
      · exact .drainWaits served future
    | fail =>
      cases h
      exact .drainEnds served future
    | drop | poison | sweep => cases h
  | drainUnpolled future =>
    cases choice with
    | go =>
      simp only [Caller.act, some.injEq, Prod.mk.injEq] at h
      obtain ⟨rfl, rfl⟩ := h
      split
      · next hready => exact .drainReady (Prod.ext hready rfl)
      · next hpending => exact .drainRegisters (Prod.ext (by simpa using hpending) rfl)
    | fail | drop | poison | sweep => cases h
  | drainSuspended id =>
    cases choice with
    | go =>
      obtain ⟨available, hresume, heq⟩ := map_eq_some_iff.mp h
      cases heq
      exact .drainWakes hresume
    | fail =>
      simp only [Caller.act, some.injEq, Prod.mk.injEq] at h
      obtain ⟨rfl, rfl⟩ := h
      split
      · next hchosen => exact .drainPasses (Prod.ext hchosen rfl)
      · next hasleep => exact .drainCancels (Prod.ext (by simpa using hasleep) rfl)
    | drop | poison | sweep => cases h
  | drainPassing =>
    cases choice <;> cases h
    exact .drainAnnounces served
  | drained => cases choice <;> cases h

end Steps

/-! ### The pool without its waits -/

/-- Where a caller is in the pool. -/
def Caller.task : Caller → Task
  | .pooled task => task
  | .announcing _ task => task
  | .looping _ | .listening _ _ => .acquiring
  | .unpolled _ | .suspended _ => .waiting
  | .draining | .drainListening _ | .drainUnpolled _ | .drainSuspended _ | .drainPassing | .drained =>
    .emptying []

@[simp] theorem Task.goesOn_task (task task' : Task) : (task.goesOn task').task = task' := by
  unfold Task.goesOn
  cases task.announces task' <;> rfl

/-- The pool of a configuration. -/
def Serving.pooling (c : Serving) : Pooling := ⟨c.shared.pool, c.threads.map Caller.task⟩

section Refinement

variable {config : PoolConfig} {served served' : Served} {caller caller' : Caller}
  {c c' : Serving}

/-- A step of a caller is a section of its task, or nothing. -/
theorem Caller.Moves.task (h : Caller.Moves config caller served caller' served') :
    (served'.pool = served.pool ∧ caller'.task = caller.task) ∨
      ∃ choice, caller.task.act config served.pool choice = some (caller'.task, served'.pool) := by
  cases h with
  | works hacquiring hwaiting h => exact .inr ⟨_, by rw [Task.goesOn_task]; exact h⟩
  | takes future woken hwaiting h => exact .inr ⟨.go, h⟩
  | waits future woken hopen hidle hfull =>
    refine .inr ⟨.go, ?_⟩
    simp [Caller.task, Task.act, hopen, hidle, not_lt.mpr hfull]
  | givesUp | cancels | passes => exact .inr ⟨.drop, rfl⟩
  | ready | wakes => exact .inr ⟨.go, rfl⟩
  | _ => exact .inl ⟨rfl, rfl⟩

theorem Caller.Fresh.task (h : Caller.Fresh config caller) : Task.Fresh config caller.task := by
  cases h with
  | acquire => exact .acquire
  | prewarm count => exact .prewarm count
  | shutdown => exact .shutdown
  | forceCleanup => exact .forceCleanup

/-- **Refinement.** Every step is one of the pool, or leaves it alone. -/
theorem Serves.pooling (h : Serves config c c') :
    ReflGen (Pools config) c.pooling c'.pooling := by
  cases h with
  | own threads h =>
    obtain ⟨fine, h⟩ := h
    unfold Served.reclaim at h
    split at h
    · cases h
      exact .refl
    · obtain ⟨pool, hreclaim, rfl⟩ := map_eq_some_iff.mp h
      exact .single (.own _ ⟨fine, hreclaim⟩)
  | spawn served threads h => exact .single (.spawn _ _ h.task)
  | act before after h =>
    obtain ⟨choice, h⟩ := h
    simp only [Serving.pooling, map_append, map_cons]
    rcases (Caller.act_moves h).task with ⟨hpool, htask⟩ | ⟨choice, hact⟩
    · rw [hpool, htask]
    · exact .single (.act _ _ ⟨choice, hact⟩)

theorem pooling_of_run (h : ReflTransGen (Serves config) ⟨.new, []⟩ c) :
    ReflTransGen (Pools config) ⟨.new, []⟩ c.pooling := by
  induction h with
  | refl => exact .refl
  | tail _ hstep ih => exact ih.trans hstep.pooling.to_reflTransGen

/-- No run holds more containers than allowed. -/
theorem live_le_of_run (h : ReflTransGen (Serves config) ⟨.new, []⟩ c) :
    c.shared.pool.live ≤ config.maxLive :=
  (Nat.le_add_right _ _).trans (sound_of_run (pooling_of_run h)).bound

end Refinement

end Retrograd.Container
