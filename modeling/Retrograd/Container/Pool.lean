import Mathlib.Data.Multiset.AddSub
import Retrograd.Logic.Interleave
import Retrograd.Logic.Map

/-!
# The sandbox pool

A pool bounds how many containers exist at once, keeps idle ones warm and decides what becomes of
one between two episodes. Everything that acts on it is a task that goes from one **critical
section** to the next: a caller that acquires and holds a lease, a warm-up, a shutdown, a forced
cleanup. Between two sections a task may be creating or destroying a container, and a caller's
future may be dropped there. Releases go through a queue to the **janitor**, which is part of the
pool and handles them one at a time.

A container is a number. Beside its bookkeeping the pool has the world's side of it: which
containers exist, and what each of them has been used for.
-/

namespace Retrograd.Container

open Logic

/-- What happens to a sandbox between two episodes. -/
inductive ReusePolicy
  | never
  | workspace
  deriving DecidableEq, Repr

structure PoolConfig where
  /-- Hard bound on live containers. -/
  maxLive : ℕ
  /-- How many to keep warm ahead of the next update. -/
  minIdle : ℕ
  reuse : ReusePolicy
  maxLeasesPerContainer : ℕ

structure Entry where
  container : ℕ
  leases : ℕ
  deriving DecidableEq, Repr

/-- What happens to a container that matters to its next episode. -/
inductive Use
  | leased
  | released (healthy : Bool)
  /-- Wiped, with success. -/
  | recycled
  deriving DecidableEq, Repr

/-- The task that does the slow half of a release. -/
inductive Janitor
  | idle
  /-- A return was received. -/
  | received (token : ℕ) (healthy : Bool)
  /-- Its entry is taken out of the leased ones. -/
  | taken (entry : Entry) (healthy : Bool)
  | recycling (entry : Entry)
  | recycled (entry : Entry)
  | destroying (entry : Entry)
  /-- The container is gone and still counted. -/
  | destroyed

structure Pool where
  /-- The idle containers, the last pushed first. -/
  idle : List Entry
  leased : Map ℕ Entry
  live : ℕ
  nextToken : ℕ
  closed : Bool
  /-- The releases the janitor has not received. -/
  returns : List (ℕ × Bool)
  janitor : Janitor
  /-- The containers that exist. -/
  alive : Multiset ℕ
  nextContainer : ℕ
  /-- What each container was used for, the latest first. -/
  uses : ℕ → List Use

namespace Pool

/-- A pool just built. -/
def new : Pool where
  idle := []
  leased := ∅
  live := 0
  nextToken := 0
  closed := false
  returns := []
  janitor := .idle
  alive := 0
  nextContainer := 0
  uses _ := []

/-- A use of a container is recorded. -/
def use (pool : Pool) (container : ℕ) (use : Use) : Pool :=
  { pool with uses := Function.update pool.uses container (use :: pool.uses container) }

/-- A container comes into existence. -/
def bear (pool : Pool) : Pool :=
  { pool with
    alive := pool.nextContainer ::ₘ pool.alive
    nextContainer := pool.nextContainer + 1 }

/-- A container ceases to exist, if it still does. -/
def bury (pool : Pool) (container : ℕ) : Pool :=
  { pool with alive := pool.alive.erase container }

/-- Hands an entry out under a new token. -/
def handOut (pool : Pool) (entry : Entry) : Pool :=
  { pool.use entry.container .leased with
    nextToken := pool.nextToken + 1
    leased := pool.leased.insert pool.nextToken { entry with leases := entry.leases + 1 } }

/-- A lease is dropped: what it held is sent to the janitor. -/
def release (pool : Pool) (token container : ℕ) (healthy : Bool) : Pool :=
  { pool.use container (.released healthy) with returns := pool.returns ++ [(token, healthy)] }

/-- The janitor's next section. `fine` is what the world answers: whether the instance is healthy
when it is looked at, and whether recycling it succeeds. -/
def reclaim (config : PoolConfig) (pool : Pool) (fine : Bool) : Option Pool :=
  match pool.janitor with
  | .idle => match pool.returns with
    | [] => none
    | (token, healthy) :: returns => some { pool with returns, janitor := .received token healthy }
  | .received token healthy => match pool.leased.get token with
    | none => some { pool with janitor := .idle }
    | some entry => some { pool with
        leased := pool.leased.erase token
        janitor := .taken entry healthy }
  | .taken entry healthy =>
    -- `closed` is read here, and not again before the push
    if healthy && !pool.closed && fine && config.reuse = .workspace &&
        entry.leases < config.maxLeasesPerContainer then
      some { pool with janitor := .recycling entry }
    else some { pool with janitor := .destroying entry }
  | .recycling entry =>
    if fine then some { pool.use entry.container .recycled with janitor := .recycled entry }
    else some { pool with janitor := .destroying entry }
  | .recycled entry => some { pool with idle := entry :: pool.idle, janitor := .idle }
  | .destroying entry => some { pool.bury entry.container with janitor := .destroyed }
  | .destroyed => some { pool with live := pool.live - 1, janitor := .idle }

end Pool

/-- What acts on a pool, by where its code is. -/
inductive Task
  /-- `acquire`, at the top of its loop. -/
  | acquiring
  /-- Waiting for a slot to free up. -/
  | waiting
  /-- The source creates a container for a caller, which may exist already. -/
  | creating (born : Option ℕ)
  | createFailed
  | handing (entry : Entry)
  /-- A lease that is out. -/
  | holding (token container : ℕ) (healthy : Bool)
  /-- `prewarm`, before it looks whether one more is wanted. -/
  | warming (count : ℕ)
  | warmCreating (count : ℕ) (born : Option ℕ)
  | warmFailed
  | warmed (count container : ℕ)
  /-- The pool was closed meanwhile: what was warmed is destroyed. -/
  | discarding (count container : ℕ)
  /-- `shutdown`, before it closes the pool. -/
  | closing
  /-- Destroying what was idle. -/
  | emptying (idle : List Entry)
  | emptied (idle : List Entry)
  /-- `force_cleanup`, before it closes the pool. -/
  | forcing
  /-- The source destroys whatever it still finds. -/
  | sweeping
  /-- A future dropped while its container was created; there may be one, or come to be one. -/
  | abandoned (born : Option ℕ)
  /-- A future dropped while its container was destroyed. -/
  | undestroyed (container : ℕ)
  | done

/-- How a section goes on: as planned, with a failure, not at all because the future is dropped,
and what else a holder or a sweep may do. -/
inductive Choice
  | go
  | fail
  | drop
  | poison
  | sweep (container : ℕ)
  deriving DecidableEq, Repr

/-- The calls that may arrive. -/
inductive Task.Fresh (config : PoolConfig) : Task → Prop
  | acquire : Fresh config .acquiring
  | prewarm (count : ℕ) : Fresh config (.warming (max count config.minIdle))
  | shutdown : Fresh config .closing
  | forceCleanup : Fresh config .forcing

/-- The next section of a task. -/
def Task.act (config : PoolConfig) (task : Task) (pool : Pool) (choice : Choice) :
    Option (Task × Pool) :=
  match task, choice with
  | .acquiring, .go =>
    if pool.closed then some (.done, pool)
    else match pool.idle with
      | entry :: idle => some (.handing entry, { pool with idle })
      | [] =>
        -- counted before the creation, so two callers cannot both take the last slot
        if pool.live < config.maxLive then
          some (.creating none, { pool with live := pool.live + 1 })
        else some (.waiting, pool)
  | .acquiring, .drop => some (.done, pool)
  | .waiting, .go => some (.acquiring, pool)
  | .waiting, .drop => some (.done, pool)
  | .creating none, .go => some (.creating (some pool.nextContainer), pool.bear)
  | .creating none, .fail => some (.createFailed, pool)
  | .creating (some container), .go => some (.handing ⟨container, 0⟩, pool)
  | .creating (some container), .fail => some (.creating none, pool.bury container)
  | .creating born, .drop => some (.abandoned born, pool)
  | .createFailed, .go => some (.done, { pool with live := pool.live - 1 })
  | .handing entry, .go =>
    some (.holding pool.nextToken entry.container true, pool.handOut entry)
  | .holding token container _, .poison => some (.holding token container false, pool)
  | .holding token container healthy, .go => some (.done, pool.release token container healthy)
  | .warming count, .go =>
    if pool.closed || count ≤ pool.idle.length || config.maxLive ≤ pool.live then
      some (.done, pool)
    else some (.warmCreating count none, { pool with live := pool.live + 1 })
  | .warming _, .drop => some (.done, pool)
  | .warmCreating count none, .go =>
    some (.warmCreating count (some pool.nextContainer), pool.bear)
  | .warmCreating _ none, .fail => some (.warmFailed, pool)
  | .warmCreating count (some container), .go => some (.warmed count container, pool)
  | .warmCreating count (some container), .fail =>
    some (.warmCreating count none, pool.bury container)
  | .warmCreating _ born, .drop => some (.abandoned born, pool)
  | .warmFailed, .go => some (.done, { pool with live := pool.live - 1 })
  | .warmed count container, .go =>
    if pool.closed then some (.discarding count container, { pool with live := pool.live - 1 })
    else some (.warming count, { pool with idle := ⟨container, 0⟩ :: pool.idle })
  | .discarding count container, .go => some (.warming count, pool.bury container)
  | .discarding _ container, .drop => some (.undestroyed container, pool)
  | .closing, .go => some (.emptying pool.idle.reverse, { pool with closed := true, idle := [] })
  | .emptying (entry :: idle), .go => some (.emptied idle, pool.bury entry.container)
  | .emptied idle, .go => some (.emptying idle, { pool with live := pool.live - 1 })
  | .forcing, .go => some (.sweeping, { pool with closed := true })
  | .sweeping, .sweep container => some (.sweeping, pool.bury container)
  | .sweeping, .go => some (.done, pool)
  | .abandoned none, .go => some (.abandoned (some pool.nextContainer), pool.bear)
  | .undestroyed container, .go => some (.done, pool.bury container)
  | _, _ => none

/-- A pool and the tasks that act on it. -/
abbrev Pooling := Config Pool Task

/-- One section, of the janitor or of any task, or a call that arrives. -/
def Pools (config : PoolConfig) : Pooling → Pooling → Prop :=
  Interleaved (fun pool pool' => ∃ fine, pool.reclaim config fine = some pool')
    (Task.Fresh config)
    fun task pool task' pool' => ∃ choice, task.act config pool choice = some (task', pool')

end Retrograd.Container
