import Retrograd.Container.Leases

/-!
# What a shutdown leaves

In a **careful** run no future is dropped while its container is created or destroyed, no shutdown
comes while a container is being wiped, and a forced cleanup finds nothing. There the counter is
exact whenever no creation or destruction is under way, and a pool that was shut down is empty once
every lease is back (`pooled`). The run `lateReturn` is the shortest that is not careful.
-/

namespace Retrograd.Container

open List Multiset

open Relation (ReflTransGen)
open Logic

/-! ### Careful runs -/

/-- Between reading `closed` and pushing to the idle ones. -/
def Janitor.Wiping : Janitor → Prop
  | .recycling _ | .recycled _ => True
  | _ => False

/-- What a careful run does not do. -/
def Careful (pool : Pool) : Task → Choice → Prop
  | .creating _, .drop | .warmCreating _ _, .drop | .discarding _ _, .drop => False
  | .closing, _ => ¬ pool.janitor.Wiping
  | .sweeping, .sweep container => container ∉ pool.alive
  | _, _ => True

/-- The sections of careful runs. -/
def Tends (config : PoolConfig) : Pooling → Pooling → Prop :=
  Interleaved (fun pool pool' => ∃ fine, pool.reclaim config fine = some pool')
    (Task.Fresh config)
    fun task pool task' pool' =>
      ∃ choice, Careful pool task choice ∧ task.act config pool choice = some (task', pool')

/-- A shutdown that has closed the pool, whether or not it is done with it. -/
def Task.Shut : Task → Prop
  | .emptying _ | .emptied _ => True
  | _ => False

/-- A future that was dropped too early. -/
def Task.Lost : Task → Prop
  | .abandoned _ | .undestroyed _ => True
  | _ => False

/-- A container is being created or destroyed, or its count is still to be corrected. -/
def Task.UnderWay : Task → Prop
  | .creating _ | .createFailed | .warmCreating _ _ | .warmFailed | .warmed _ _ | .discarding _ _
  | .emptying (_ :: _) | .emptied _ => True
  | _ => False

def Janitor.UnderWay : Janitor → Prop
  | .destroying _ | .destroyed => True
  | _ => False

/-- A lease that is out. -/
def Task.Leasing : Task → Prop
  | .handing _ | .holding _ _ _ => True
  | _ => False

/-- No creation or destruction is under way. -/
structure Quiet (c : Pooling) : Prop where
  tasks : ∀ task ∈ c.threads, ¬ task.UnderWay
  janitor : ¬ c.shared.janitor.UnderWay

/-- Every lease has been released and reclaimed. -/
structure Returned (c : Pooling) : Prop where
  tasks : ∀ task ∈ c.threads, ¬ task.Leasing
  returns : c.shared.returns = []
  janitor : c.shared.janitor = .idle

/-- The pool was closed, and nothing goes back to the idle ones. -/
structure Pool.Emptied (pool : Pool) : Prop where
  closed : pool.closed = true
  idle : pool.idle = []
  janitor : ¬ pool.janitor.Wiping

/-- What a task of a careful run knows. -/
structure Task.Knows (task : Task) (pool : Pool) : Prop where
  kept : ¬ task.Lost
  shut : task.Shut → pool.Emptied

section Careful

variable {config : PoolConfig} {pool pool' : Pool} {task task' : Task} {choice : Choice}
  {c c' : Pooling}

theorem Pool.Emptied.reclaim (h : pool.Emptied) {fine : Bool}
    (hstep : pool.reclaim config fine = some pool') : pool'.Emptied := by
  obtain ⟨hclosed, hidle, hjanitor⟩ := h
  unfold Pool.reclaim at hstep
  split at hstep
  · split at hstep
    · cases hstep
    · cases hstep
      exact ⟨hclosed, hidle, nofun⟩
  · split at hstep <;> cases hstep <;> exact ⟨hclosed, hidle, nofun⟩
  · rw [hclosed] at hstep
    simp only [Bool.not_true, Bool.and_false, Bool.false_and, Bool.false_eq_true, if_false] at hstep
    cases hstep
    exact ⟨rfl, hidle, nofun⟩
  · next hwiping =>
    rw [hwiping] at hjanitor
    exact absurd trivial hjanitor
  · next hwiping =>
    rw [hwiping] at hjanitor
    exact absurd trivial hjanitor
  · cases hstep
    exact ⟨hclosed, hidle, nofun⟩
  · cases hstep
    exact ⟨hclosed, hidle, nofun⟩

/-- What a section of a task leaves of a closed pool. -/
theorem Task.act_closed (h : task.act config pool choice = some (task', pool')) :
    pool'.janitor = pool.janitor ∧ (pool.closed = true → pool'.closed = true) ∧
      (pool.closed = true → pool.idle = [] → pool'.idle = []) := by
  cases task with
  | acquiring =>
    cases choice with
    | go =>
      simp only [Task.act] at h
      split at h
      · cases h
        exact ⟨rfl, id, fun _ => id⟩
      · next hopen =>
        -- nothing is taken from a closed pool
        split at h
        · cases h
          exact ⟨rfl, id, fun hclosed => absurd hclosed hopen⟩
        · split at h <;> cases h <;> exact ⟨rfl, id, fun _ => id⟩
    | drop =>
      cases h
      exact ⟨rfl, id, fun _ => id⟩
    | fail | poison | sweep => cases h
  | warming count =>
    cases choice with
    | go =>
      simp only [Task.act] at h
      split at h <;> cases h <;> exact ⟨rfl, id, fun _ => id⟩
    | drop =>
      cases h
      exact ⟨rfl, id, fun _ => id⟩
    | fail | poison | sweep => cases h
  | warmed count container =>
    cases choice with
    | go =>
      simp only [Task.act] at h
      split at h
      · cases h
        exact ⟨rfl, id, fun _ => id⟩
      · next hopen =>
        cases h
        exact ⟨rfl, id, fun hclosed => absurd hclosed hopen⟩
    | fail | drop | poison | sweep => cases h
  | closing | forcing =>
    cases choice <;> cases h
    exact ⟨rfl, fun _ => rfl, by simp⟩
  | creating born | warmCreating _ born | abandoned born =>
    cases born <;> cases choice <;> cases h <;> exact ⟨rfl, id, fun _ => id⟩
  | emptying idle =>
    cases idle <;> cases choice <;> cases h
    exact ⟨rfl, id, fun _ => id⟩
  | waiting | createFailed | handing | holding | warmFailed | discarding | emptied | sweeping
  | undestroyed | done => cases choice <;> cases h <;> exact ⟨rfl, id, fun _ => id⟩

theorem Pool.Emptied.act (h : pool.Emptied)
    (hstep : task.act config pool choice = some (task', pool')) : pool'.Emptied := by
  obtain ⟨hjanitor, hclosed, hidle⟩ := Task.act_closed hstep
  exact ⟨hclosed h.closed, hidle h.closed h.idle, hjanitor ▸ h.janitor⟩

/-- A careful section loses no future, and only a shutdown that closes the pool comes to have shut
it. -/
theorem Task.act_stage (hcareful : Careful pool task choice) (hlost : ¬ task.Lost)
    (h : task.act config pool choice = some (task', pool')) :
    ¬ task'.Lost ∧ (task'.Shut → task.Shut ∨ task = .closing ∧ pool'.closed = true ∧
      pool'.idle = []) := by
  cases task with
  | acquiring =>
    cases choice with
    | go =>
      simp only [Task.act] at h
      split at h
      · cases h
        exact ⟨id, False.elim⟩
      · split at h
        · cases h
          exact ⟨id, False.elim⟩
        · split at h <;> cases h <;> exact ⟨id, False.elim⟩
    | drop =>
      cases h
      exact ⟨id, False.elim⟩
    | fail | poison | sweep => cases h
  | warming count =>
    cases choice with
    | go =>
      simp only [Task.act] at h
      split at h <;> cases h <;> exact ⟨id, False.elim⟩
    | drop =>
      cases h
      exact ⟨id, False.elim⟩
    | fail | poison | sweep => cases h
  | warmed count container =>
    cases choice with
    | go =>
      simp only [Task.act] at h
      split at h <;> cases h <;> exact ⟨id, False.elim⟩
    | fail | drop | poison | sweep => cases h
  | creating born | warmCreating _ born =>
    cases choice with
    | drop => exact hcareful.elim
    | go | fail | poison | sweep => cases born <;> cases h <;> exact ⟨id, False.elim⟩
  | discarding count container =>
    cases choice with
    | drop => exact hcareful.elim
    | go | fail | poison | sweep => cases h <;> exact ⟨id, False.elim⟩
  | closing =>
    cases choice <;> cases h
    exact ⟨id, fun _ => .inr ⟨rfl, rfl, rfl⟩⟩
  | emptying idle =>
    cases idle <;> cases choice <;> cases h
    exact ⟨id, fun _ => .inl trivial⟩
  | emptied idle =>
    cases choice <;> cases h
    exact ⟨id, fun _ => .inl trivial⟩
  | abandoned | undestroyed => exact absurd trivial hlost
  | waiting | createFailed | handing | holding | warmFailed | forcing | sweeping | done =>
    cases choice <;> cases h <;> exact ⟨id, False.elim⟩

theorem Task.Knows.act (hknows : task.Knows pool) (hcareful : Careful pool task choice)
    (h : task.act config pool choice = some (task', pool')) : task'.Knows pool' := by
  obtain ⟨hkept, hshut⟩ := Task.act_stage hcareful hknows.kept h
  refine ⟨hkept, fun hshut' => ?_⟩
  rcases hshut hshut' with hshut | ⟨rfl, hclosed, hidle⟩
  · exact (hknows.shut hshut).act h
  · exact ⟨hclosed, hidle, (Task.act_closed h).1 ▸ hcareful⟩

theorem Task.Knows.mono (hknows : task.Knows pool) (h : pool.Emptied → pool'.Emptied) :
    task.Knows pool' :=
  ⟨hknows.kept, fun hshut => h (hknows.shut hshut)⟩

/-- A careful sweep finds nothing. -/
theorem Task.swept_of_careful {container : ℕ} (hcareful : Careful pool task (.sweep container))
    (h : task.act config pool (.sweep container) = some (task', pool')) :
    container ∉ pool.alive := by
  cases task with
  | sweeping => exact hcareful
  | creating born | warmCreating _ born | abandoned born => cases born <;> cases h
  | emptying idle => cases idle <;> cases h
  | _ => cases h

theorem tends_kept : Kept (fun pool pool' => ∃ fine, Pool.reclaim config pool fine = some pool')
    (Task.Fresh config)
    (fun task pool task' pool' =>
      ∃ choice, Careful pool task choice ∧ task.act config pool choice = some (task', pool'))
    (fun pool stake => (Pool.books pool stake).Sound config ∧ (Pool.books pool stake).Exact)
    Task.Knows Task.stake where
  ownInv pool pool' stake := by
    rintro ⟨hsound, hexact⟩ ⟨fine, h⟩
    rcases Pool.reclaim_books h hsound with heq | hstep
    · exact heq ▸ ⟨hsound, hexact⟩
    · exact ⟨hsound.step hstep, hexact.step hstep⟩
  ownKnows pool pool' task stake _ := by
    rintro ⟨fine, h⟩ hknows
    exact hknows.mono fun hemptied => hemptied.reclaim h
  freshInv pool task stake hinv hfresh := by
    rw [hfresh.stake, zero_add]
    refine ⟨hinv, ?_⟩
    cases hfresh <;> exact ⟨id, False.elim⟩
  stepInv task pool task' pool' stake := by
    rintro ⟨hsound, hexact⟩ hknows ⟨choice, hcareful, h⟩
    refine ⟨?_, hknows.act hcareful h⟩
    rcases Task.act_books h hsound with heq | hstep | ⟨container, rfl, heq⟩
    · exact heq ▸ ⟨hsound, hexact⟩
    · exact ⟨hsound.step hstep, hexact.step hstep⟩
    · rw [heq, Books.swept_of_notMem (Task.swept_of_careful hcareful h)]
      exact ⟨hsound, hexact⟩
  stepKnows task pool task' pool' other stake _ _ hother := by
    rintro ⟨choice, hcareful, h⟩
    exact hother.mono fun hemptied => hemptied.act h

end Careful

/-! ### What holds of every run -/

section Runs

variable (config : PoolConfig) (c : Pooling)

/-- The container a lease that is out gives its holder. -/
def Task.holds : Task → Option ℕ
  | .holding _ container _ => some container
  | _ => none

/-- What every run keeps to: the bound, one holder a container, and no lease but of a container that
is new or was wiped after a healthy release, no more often than allowed. -/
structure Isolated : Prop where
  bounded : c.shared.alive.card ≤ config.maxLive
  exclusive : (c.threads.filterMap Task.holds).Nodup
  reused : ∀ container, Reused (c.shared.uses container)
  retired : 0 < config.maxLeasesPerContainer → ∀ container,
    (c.shared.uses container).count .leased ≤ config.maxLeasesPerContainer

/-- What careful runs keep to. -/
structure Accounted : Prop where
  exact : Quiet c → c.shared.alive.card = c.shared.live
  drained : Quiet c → Returned c → (∃ task ∈ c.threads, task.Shut) →
    c.shared.live = 0 ∧ c.shared.idle = [] ∧ c.shared.alive = 0

end Runs

section Proofs

variable {config : PoolConfig} {c : Pooling} {threads : List Task}

theorem held_total (threads : List Task) :
    (total Task.stake threads).held.map Prod.snd = threads.filterMap Task.holds := by
  induction threads with
  | nil => rfl
  | cons task threads ih =>
    rw [total_cons, Stake.held_add, Multiset.map_add, ih]
    cases task with
    | holding token container healthy => rfl
    | creating born | warmCreating _ born | abandoned born =>
      cases born <;> exact zero_add _
    | _ => exact zero_add _

theorem isolated_of_run (hrun : ReflTransGen (Pools config) ⟨.new, []⟩ c) : Isolated config c where
  bounded := (sound_of_run hrun).alive_card_le
  exclusive := by
    have hnodup : ((total Task.stake c.threads).held.map Prod.snd).Nodup :=
      (sound_of_run hrun).held_nodup
    rwa [held_total, coe_nodup] at hnodup
  reused := (sound_of_run hrun).reused
  retired hpos container := by
    have := (sound_of_run hrun).leases_le container
    rwa [max_eq_right hpos] at this

theorem quiet_total (hkept : ∀ task ∈ threads, ¬ task.Lost)
    (hquiet : ∀ task ∈ threads, ¬ task.UnderWay) :
    (total Task.stake threads).vacant = 0 ∧ (total Task.stake threads).discarded = 0 := by
  induction threads with
  | nil => exact ⟨rfl, rfl⟩
  | cons task threads ih =>
    obtain ⟨hvacant, hdiscarded⟩ := ih (fun task' hmem => hkept task' (List.mem_cons_of_mem _ hmem))
      (fun task' hmem => hquiet task' (List.mem_cons_of_mem _ hmem))
    have hkept := hkept task List.mem_cons_self
    have hquiet := hquiet task List.mem_cons_self
    rw [total_cons, Stake.vacant_add, Stake.discarded_add, hvacant, hdiscarded]
    cases task with
    | abandoned | undestroyed => exact absurd trivial hkept
    | creating | createFailed | warmCreating | warmFailed | warmed | discarding | emptied =>
      exact absurd trivial hquiet
    | _ => exact ⟨rfl, rfl⟩

/-- A task that is done with its containers. -/
theorem Task.stake_eq_zero {task : Task} (hkept : ¬ task.Lost) (hquiet : ¬ task.UnderWay)
    (hreturned : ¬ task.Leasing) : task.stake = 0 := by
  cases task with
  | abandoned | undestroyed => exact absurd trivial hkept
  | creating | createFailed | warmCreating | warmFailed | warmed | discarding | emptied =>
    exact absurd trivial hquiet
  | handing | holding => exact absurd trivial hreturned
  | emptying idle =>
    cases idle with
    | nil => rfl
    | cons => exact absurd trivial hquiet
  | acquiring | waiting | warming | closing | forcing | sweeping | done => rfl

theorem new_exact : (Pool.new.books 0).Exact := rfl

theorem accounted_of_run (hrun : ReflTransGen (Tends config) ⟨.new, []⟩ c) : Accounted c := by
  obtain ⟨⟨hsound, hexact⟩, hknows⟩ :=
    tends_kept.run ⟨⟨new_sound, new_exact⟩, fun _ h => absurd h not_mem_nil⟩ hrun
  have hkept : ∀ task ∈ c.threads, ¬ task.Lost := fun task hmem => (hknows task hmem).kept
  have hlive := hsound.live_eq
  have halive : c.shared.alive.card =
      (c.shared.books (total Task.stake c.threads)).containers.card := congrArg Multiset.card hexact
  simp only [Books.containers, card_add, card_map] at halive
  refine ⟨fun hquiet => ?_, fun hquiet hreturned hclosed => ?_⟩
  · obtain ⟨hvacant, hdiscarded⟩ := quiet_total hkept hquiet.tasks
    have hjanitor : c.shared.janitor.vacant = 0 := by
      have := hquiet.janitor
      cases hjanitor : c.shared.janitor with
      | destroyed =>
        rw [hjanitor] at this
        exact absurd trivial this
      | _ => rfl
    simp only [Pool.books, hvacant, hdiscarded, hjanitor, card_zero] at halive hlive
    omega
  · obtain ⟨task, htask, hshut⟩ := hclosed
    have hidle := ((hknows task htask).shut hshut).idle
    have hzero : total Task.stake c.threads = 0 := total_eq_zero fun other hmem =>
      Task.stake_eq_zero (hkept other hmem) (hquiet.tasks other hmem) (hreturned.tasks other hmem)
    have htokens := hsound.tokens
    rw [hzero] at hlive halive htokens
    simp only [Pool.books, hreturned.returns, hreturned.janitor, hidle, Janitor.kept,
      Janitor.vacant, Janitor.returned, fitted_nil, Stake.kept_zero, Stake.vacant_zero,
      Stake.discarded_zero, Stake.held_zero, Multiset.map_zero, coe_nil, add_zero,
      Multiset.map_eq_zero, card_zero] at hlive halive htokens
    rw [htokens, card_zero] at hlive halive
    exact ⟨hlive, hidle, card_eq_zero.mp halive⟩

/-- **What a pool guarantees**: in every run the bound, the isolation and the reuse discipline; in
the careful ones an exact count and, after a shutdown, an empty pool. -/
theorem pooled (config : PoolConfig) :
    (∀ c, ReflTransGen (Pools config) ⟨.new, []⟩ c → Isolated config c) ∧
      ∀ c, ReflTransGen (Tends config) ⟨.new, []⟩ c → Accounted c :=
  ⟨fun _ => isolated_of_run, fun _ => accounted_of_run⟩

end Proofs

/-! ### A container that comes back late -/

/-- One container at a time, wiped between episodes. -/
def oneContainer : PoolConfig := ⟨1, 0, .workspace, 32⟩

/-- A caller acquires a container and releases it; the pool is shut down while it is wiped. -/
def lateReturn : List (Move Bool Task) :=
  [.spawn .acquiring, .act 0, .act 0, .act 0, .act 0, .act 0, .own true, .own true, .own true,
    .spawn .closing, .act 0, .own true, .own true]

/-- Every lease is back and the shutdown has nothing left to destroy, and a container is idle in
the closed pool. -/
theorem lateReturn_leaves : ∃ c, ReflTransGen (Pools oneContainer) ⟨.new, []⟩ c ∧
    Quiet c ∧ Returned c ∧ (∃ task ∈ c.threads, task.Shut) ∧ c.shared.closed = true ∧
    c.shared.live = 1 ∧ c.shared.idle = [⟨0, 1⟩] ∧ c.shared.alive = {0} := by
  have hplay : ∃ c, play (fun fine pool => pool.reclaim oneContainer fine)
      (fun task pool => task.act oneContainer pool .go) ⟨.new, []⟩ lateReturn = some c ∧
      c.threads = [.emptying [], .done] ∧ c.shared.returns = [] ∧ c.shared.janitor = .idle ∧
      c.shared.closed = true ∧ c.shared.live = 1 ∧ c.shared.idle = [⟨0, 1⟩] ∧
      c.shared.alive = {0} :=
    ⟨_, rfl, rfl, rfl, rfl, rfl, rfl, rfl, rfl⟩
  obtain ⟨c, hplay, hthreads, hreturns, hjanitor, hrest⟩ := hplay
  have hfresh : ∀ task, .spawn task ∈ lateReturn → task.Fresh oneContainer := by
    intro task hmem
    simp only [lateReturn, List.mem_cons, reduceCtorEq, Move.spawn.injEq, List.not_mem_nil,
      false_or, or_false] at hmem
    rcases hmem with rfl | rfl
    · exact .acquire
    · exact .shutdown
  have hrun : ReflTransGen (Pools oneContainer) ⟨.new, []⟩ c :=
    ReflTransGen.mono (fun _ _ h => h.mono (fun _ _ => id) (fun _ => id)
      fun _ _ _ _ hact => ⟨.go, hact⟩) _ _ (run_of_play hfresh hplay)
  refine ⟨c, hrun, ⟨by simp [hthreads, Task.UnderWay], by simp [hjanitor, Janitor.UnderWay]⟩,
    ⟨by simp [hthreads, Task.Leasing], hreturns, hjanitor⟩, ?_, hrest⟩
  exact ⟨.emptying [], by simp [hthreads], trivial⟩

end Retrograd.Container
