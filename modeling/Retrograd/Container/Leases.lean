import Mathlib.Algebra.Order.Group.Multiset
import Retrograd.Container.Books

/-!
# What a pool guarantees

The pool and its tasks keep the books of `Books.Sound` between them: each section is an entry of
the books or leaves them alone (`Task.act_books`, `Pool.reclaim_books`). Hence the bound, the
isolation and the reuse discipline of **every** run. That the counter is exact, and that a shutdown
leaves nothing behind, needs careful runs: **a future dropped during a creation loses its slot, and
a container that is being wiped while the pool is shut down goes back to the idle ones**.
-/

namespace Retrograd.Container

open List Multiset

open Relation (ReflTransGen)
open Logic

/-! ### Stakes -/

/-- What a task holds of the books. -/
@[ext] structure Stake where
  kept : Multiset (ℕ × Phase)
  vacant : ℕ
  discarded : Multiset ℕ
  held : Multiset (ℕ × ℕ)

namespace Stake

instance : Zero Stake := ⟨⟨0, 0, 0, 0⟩⟩

instance : Add Stake := ⟨fun stake other => ⟨stake.kept + other.kept, stake.vacant + other.vacant,
  stake.discarded + other.discarded, stake.held + other.held⟩⟩

variable (stake other : Stake)

@[simp] theorem kept_zero : (0 : Stake).kept = 0 := rfl
@[simp] theorem vacant_zero : (0 : Stake).vacant = 0 := rfl
@[simp] theorem discarded_zero : (0 : Stake).discarded = 0 := rfl
@[simp] theorem held_zero : (0 : Stake).held = 0 := rfl
@[simp] theorem kept_add : (stake + other).kept = stake.kept + other.kept := rfl
@[simp] theorem vacant_add : (stake + other).vacant = stake.vacant + other.vacant := rfl
@[simp] theorem discarded_add : (stake + other).discarded = stake.discarded + other.discarded := rfl
@[simp] theorem held_add : (stake + other).held = stake.held + other.held := rfl

instance : AddCommMonoid Stake where
  add_assoc _ _ _ := by ext1 <;> simp [add_assoc]
  zero_add _ := by ext1 <;> simp
  add_zero _ := by ext1 <;> simp
  add_comm _ _ := by ext1 <;> simp [add_comm]
  nsmul := nsmulRec

/-- A container that is kept. -/
def keep (container : ℕ) (phase : Phase) : Stake := ⟨{(container, phase)}, 0, 0, 0⟩

/-- A slot without a container. -/
def slot : Stake := ⟨0, 1, 0, 0⟩

def discard (container : ℕ) : Stake := ⟨0, 0, {container}, 0⟩

def hold (token container : ℕ) : Stake := ⟨0, 0, 0, {(token, container)}⟩

/-- A creation under way: a slot, or the container already. -/
def create : Option ℕ → Stake
  | none => slot
  | some container => keep container (.fit 0)

end Stake

/-- Containers that may be leased. -/
def fitted (entries : List Entry) : Multiset (ℕ × Phase) :=
  (entries : Multiset Entry).map fun entry => (entry.container, .fit entry.leases)

@[simp] theorem fitted_nil : fitted [] = 0 := rfl

@[simp] theorem fitted_cons (entry : Entry) (entries : List Entry) :
    fitted (entry :: entries) = (entry.container, .fit entry.leases) ::ₘ fitted entries := rfl

@[simp] theorem fitted_reverse (entries : List Entry) :
    fitted entries.reverse = fitted entries := by
  simp [fitted]

def Task.stake : Task → Stake
  | .creating born | .warmCreating _ born | .abandoned born => .create born
  | .createFailed | .warmFailed => .slot
  | .handing entry => .keep entry.container (.fit entry.leases)
  | .warmed _ container => .keep container (.fit 0)
  | .holding token container _ => .hold token container
  | .discarding _ container | .undestroyed container => .discard container
  | .emptying idle => ⟨fitted idle, 0, 0, 0⟩
  | .emptied idle => ⟨fitted idle, 1, 0, 0⟩
  | .acquiring | .waiting | .warming _ | .closing | .forcing | .sweeping | .done => 0

/-- What the janitor keeps. -/
def Janitor.kept : Janitor → Multiset (ℕ × Phase)
  | .taken entry healthy => {(entry.container, .back healthy entry.leases)}
  | .recycling entry => {(entry.container, .cleared entry.leases)}
  | .recycled entry => {(entry.container, .fit entry.leases)}
  | .destroying entry => {(entry.container, .spent)}
  | .idle | .received _ _ | .destroyed => 0

def Janitor.vacant : Janitor → ℕ
  | .destroyed => 1
  | _ => 0

def Janitor.returned : Janitor → Multiset (ℕ × Bool)
  | .received token healthy => {(token, healthy)}
  | _ => 0

/-- The leased entries, by their tokens. -/
def lent (leased : Map ℕ Entry) : Multiset (ℕ × Entry) :=
  (leased.entries : Multiset (Σ _ : ℕ, Entry)).map fun lease => (lease.1, lease.2)

variable {leased : Map ℕ Entry} {token : ℕ}

theorem mem_lent {entry : Entry} :
    (token, entry) ∈ lent leased ↔ leased.get token = some entry := by
  rw [← Map.mem_entries, lent, Multiset.mem_map]
  constructor
  · rintro ⟨⟨token', entry'⟩, hmem, heq⟩
    cases heq
    exact hmem
  · exact fun hmem => ⟨_, hmem, rfl⟩

theorem lent_insert (entry : Entry) (h : leased.get token = none) :
    lent (leased.insert token entry) = (token, entry) ::ₘ lent leased := by
  rw [lent, Map.entries_insert h]
  rfl

theorem lent_erase {entry : Entry} (h : leased.get token = some entry) :
    lent leased = (token, entry) ::ₘ lent (leased.erase token) := by
  rw [lent, coe_eq_coe.mpr (Map.entries_perm_erase h)]
  rfl

/-- The books of a pool, with what its tasks hold. -/
def Pool.books (pool : Pool) (stake : Stake) : Books where
  live := pool.live
  closed := pool.closed
  nextToken := pool.nextToken
  nextContainer := pool.nextContainer
  alive := pool.alive
  uses := pool.uses
  kept := stake.kept + (pool.janitor.kept + fitted pool.idle)
  vacant := stake.vacant + pool.janitor.vacant
  discarded := stake.discarded
  leased := lent pool.leased
  held := stake.held
  returned := pool.janitor.returned + pool.returns

/-! ### Each section is an entry of the books -/

theorem Books.Step.congr {config : PoolConfig} {books books' books'' : Books}
    (h : Books.Step config books books') (heq : books'' = books') :
    Books.Step config books books'' := heq ▸ h

section Sections

variable {config : PoolConfig} {pool pool' : Pool} {task task' : Task} {choice : Choice}

/-- The books of a kept container. -/
theorem Pool.books_keep (pool : Pool) (container : ℕ) (phase : Phase) (stake : Stake) :
    (pool.books (.keep container phase + stake)).kept =
      (container, phase) ::ₘ (pool.books stake).kept := by
  simp [Pool.books, Stake.keep, cons_add]

theorem Pool.books_slot (pool : Pool) (stake : Stake) :
    (pool.books (.slot + stake)).vacant = (pool.books stake).vacant + 1 := by
  simp [Pool.books, Stake.slot]
  omega

/-- A creation goes on or fails, and so do the books. -/
theorem Pool.bear_books (pool : Pool) (stake : Stake) :
    Books.Step config (pool.books (.create none + stake))
      (pool.bear.books (.create (some pool.nextContainer) + stake)) :=
  (Books.Step.bears (pool.books_slot stake)).congr (by
    ext1 <;> simp [Pool.books, Pool.bear, Stake.create, Stake.keep, Stake.slot])

theorem Pool.bury_books (pool : Pool) (container : ℕ) (phase : Phase) (stake : Stake) :
    Books.Step config (pool.books (.keep container phase + stake))
      ((pool.bury container).books (.slot + stake)) :=
  (Books.Step.buries (pool.books_keep container phase stake)).congr (by
    ext1 <;> simp [Pool.books, Pool.bury, Stake.keep, Stake.slot]
    omega)

theorem Pool.open_books (hopen : pool.closed = false) (hroom : pool.live < config.maxLive)
    (stake : Stake) :
    Books.Step config (pool.books (0 + stake))
      (Pool.books { pool with live := pool.live + 1 } (.slot + stake)) :=
  (Books.Step.opens hopen hroom).congr (by
    ext1 <;> simp [Pool.books, Stake.slot]
    omega)

theorem Pool.free_books (pool : Pool) (stake : Stake) :
    Books.Step config (pool.books (.slot + stake))
      (Pool.books { pool with live := pool.live - 1 } (0 + stake)) :=
  (Books.Step.frees (pool.books_slot stake)).congr (by
    ext1 <;> simp [Pool.books, Stake.slot])

theorem Pool.forget_books (pool : Pool) (container : ℕ) (stake : Stake) :
    Books.Step config (pool.books (.discard container + stake))
      ((pool.bury container).books (0 + stake)) := by
  have hdiscarded : (pool.books (.discard container + stake)).discarded =
      container ::ₘ (pool.books stake).discarded := by
    simp [Pool.books, Stake.discard]
  refine (Books.Step.forgets hdiscarded).congr ?_
  ext1 <;> simp [Pool.books, Pool.bury, Stake.discard]

/-- A section of a task leaves the books as they are or enters something; a sweep does it behind
their back. -/
theorem Task.act_books (h : task.act config pool choice = some (task', pool')) {stake : Stake}
    (hsound : (pool.books (task.stake + stake)).Sound config) :
    pool'.books (task'.stake + stake) = pool.books (task.stake + stake) ∨
      Books.Step config (pool.books (task.stake + stake)) (pool'.books (task'.stake + stake)) ∨
      ∃ container, choice = .sweep container ∧
        pool'.books (task'.stake + stake) = (pool.books (task.stake + stake)).swept container := by
  cases task with
  | acquiring =>
    cases choice with
    | go =>
      simp only [Task.act] at h
      split at h
      · cases h
        exact .inl rfl
      · next hopen =>
        split at h
        · next entry idle hidle =>
          cases h
          left
          ext1 <;> simp [Pool.books, Task.stake, Stake.keep, hidle]
        · next hidle =>
          split at h
          · next hroom =>
            cases h
            exact .inr (.inl (Pool.open_books (by simpa using hopen) hroom stake))
          · cases h
            exact .inl rfl
    | drop =>
      cases h
      exact .inl rfl
    | fail | poison | sweep => cases h
  | waiting =>
    cases choice with
    | go | drop =>
      cases h
      exact .inl rfl
    | fail | poison | sweep => cases h
  | creating born =>
    cases born with
    | none =>
      cases choice with
      | go =>
        cases h
        exact .inr (.inl (pool.bear_books stake))
      | fail | drop =>
        cases h
        exact .inl rfl
      | poison | sweep => cases h
    | some container =>
      cases choice with
      | go | drop =>
        cases h
        exact .inl rfl
      | fail =>
        cases h
        exact .inr (.inl (pool.bury_books container _ stake))
      | poison | sweep => cases h
  | createFailed =>
    cases choice with
    | go =>
      cases h
      exact .inr (.inl (pool.free_books stake))
    | fail | drop | poison | sweep => cases h
  | handing entry =>
    cases choice with
    | go =>
      cases h
      have hnew : pool.leased.get pool.nextToken = none := by
        refine Option.eq_none_iff_forall_ne_some.mpr fun other hother => ?_
        exact lt_irrefl _ (hsound.tokens_lt _ (Multiset.mem_map_of_mem Prod.fst (mem_lent.mpr hother)))
      refine .inr (.inl ((Books.Step.lends (pool.books_keep entry.container _ stake)).congr ?_))
      ext1 <;> simp [Pool.books, Pool.handOut, Pool.use, Books.recorded, Task.stake, Stake.hold,
        Stake.keep, lent_insert _ hnew]
    | fail | drop | poison | sweep => cases h
  | holding token container healthy =>
    cases choice with
    | go =>
      cases h
      have hheld : (pool.books (.hold token container + stake)).held =
          (token, container) ::ₘ (pool.books stake).held := by
        simp [Pool.books, Stake.hold]
      refine .inr (.inl ((Books.Step.releases healthy hheld).congr ?_))
      have hreturns : pool.janitor.returned + ↑(pool.returns ++ [(token, healthy)]) =
          (token, healthy) ::ₘ (pool.janitor.returned + ↑pool.returns) := by
        rw [← coe_add, ← add_assoc, add_comm]
        rfl
      ext1 <;> simp [Pool.books, Pool.release, Pool.use, Stake.hold, Books.recorded, Task.stake,
        hreturns]
    | poison =>
      cases h
      exact .inl rfl
    | fail | drop | sweep => cases h
  | warming count =>
    cases choice with
    | go =>
      simp only [Task.act] at h
      split at h
      · cases h
        exact .inl rfl
      · next hwanted =>
        cases h
        simp only [Bool.or_eq_true, decide_eq_true_eq, not_or, Bool.not_eq_true, not_le] at hwanted
        exact .inr (.inl (Pool.open_books hwanted.1.1 hwanted.2 stake))
    | drop =>
      cases h
      exact .inl rfl
    | fail | poison | sweep => cases h
  | warmCreating count born =>
    cases born with
    | none =>
      cases choice with
      | go =>
        cases h
        exact .inr (.inl (pool.bear_books stake))
      | fail | drop =>
        cases h
        exact .inl rfl
      | poison | sweep => cases h
    | some container =>
      cases choice with
      | go | drop =>
        cases h
        exact .inl rfl
      | fail =>
        cases h
        exact .inr (.inl (pool.bury_books container _ stake))
      | poison | sweep => cases h
  | warmFailed =>
    cases choice with
    | go =>
      cases h
      exact .inr (.inl (pool.free_books stake))
    | fail | drop | poison | sweep => cases h
  | warmed count container =>
    cases choice with
    | go =>
      simp only [Task.act] at h
      split at h
      · next hclosed =>
        cases h
        refine .inr (.inl ((Books.Step.discards (pool.books_keep container _ stake) hclosed).congr ?_))
        ext1 <;> simp [Pool.books, Task.stake, Stake.keep, Stake.discard]
      · cases h
        left
        ext1 <;> simp [Pool.books, Task.stake, Stake.keep]
    | fail | drop | poison | sweep => cases h
  | discarding count container =>
    cases choice with
    | go =>
      cases h
      exact .inr (.inl (pool.forget_books container stake))
    | drop =>
      cases h
      exact .inl rfl
    | fail | poison | sweep => cases h
  | closing =>
    cases choice with
    | go =>
      cases h
      refine .inr (.inl (Books.Step.closes.congr ?_))
      ext1 <;> simp [Pool.books, Task.stake, add_assoc, add_comm]
    | fail | drop | poison | sweep => cases h
  | emptying idle =>
    cases idle with
    | nil => cases choice <;> cases h
    | cons entry idle =>
      cases choice with
      | go =>
        cases h
        have hkept : (pool.books (Task.stake (.emptying (entry :: idle)) + stake)).kept =
            (entry.container, .fit entry.leases) ::ₘ
              (pool.books (⟨fitted idle, 0, 0, 0⟩ + stake)).kept := by
          simp [Pool.books, Task.stake]
        refine .inr (.inl ((Books.Step.buries hkept).congr ?_))
        ext1 <;> simp [Pool.books, Pool.bury, Task.stake]
        omega
      | fail | drop | poison | sweep => cases h
  | emptied idle =>
    cases choice with
    | go =>
      cases h
      have hslot : (Task.emptied idle).stake + stake =
          .slot + ((Task.emptying idle).stake + stake) := by
        ext1 <;> simp [Task.stake, Stake.slot]
      have hfreed := @Pool.free_books config pool ((Task.emptying idle).stake + stake)
      rw [zero_add] at hfreed
      exact .inr (.inl (hslot ▸ hfreed))
    | fail | drop | poison | sweep => cases h
  | forcing =>
    cases choice with
    | go =>
      cases h
      exact .inr (.inl Books.Step.closes)
    | fail | drop | poison | sweep => cases h
  | sweeping =>
    cases choice with
    | go =>
      cases h
      exact .inl rfl
    | sweep container =>
      cases h
      exact .inr (.inr ⟨container, rfl, rfl⟩)
    | fail | drop | poison => cases h
  | abandoned born =>
    cases born with
    | none =>
      cases choice with
      | go =>
        cases h
        exact .inr (.inl (pool.bear_books stake))
      | fail | drop | poison | sweep => cases h
    | some container => cases choice <;> cases h
  | undestroyed container =>
    cases choice with
    | go =>
      cases h
      exact .inr (.inl (pool.forget_books container stake))
    | fail | drop | poison | sweep => cases h
  | done => cases choice <;> cases h

/-- So does every section of the janitor. -/
theorem Pool.reclaim_books {fine : Bool} (h : pool.reclaim config fine = some pool')
    {stake : Stake} (hsound : (pool.books stake).Sound config) :
    pool'.books stake = pool.books stake ∨
      Books.Step config (pool.books stake) (pool'.books stake) := by
  unfold Pool.reclaim at h
  split at h
  · next hjanitor =>
    split at h
    · cases h
    · next token healthy returns hreturns =>
      cases h
      left
      ext1 <;> simp [Pool.books, hjanitor, hreturns, Janitor.kept, Janitor.vacant, Janitor.returned]
  · next token healthy hjanitor =>
    have hreturned : (pool.books stake).returned = (token, healthy) ::ₘ pool.returns := by
      simp [Pool.books, hjanitor, Janitor.returned]
    split at h
    · next hnone =>
      -- a lease that was dropped is still among the leased ones
      obtain ⟨entry, hentry, -⟩ :=
        hsound.returned_spec token healthy (hreturned ▸ Multiset.mem_cons_self _ _)
      exact absurd (mem_lent.mp hentry) (by simp [hnone])
    · next entry hentry =>
      cases h
      refine .inr ((Books.Step.reclaims hreturned (lent_erase hentry)).congr ?_)
      ext1 <;> simp [Pool.books, hjanitor, Janitor.kept, Janitor.vacant, Janitor.returned]
  · next entry healthy hjanitor =>
    have hkept : (pool.books stake).kept = (entry.container, .back healthy entry.leases) ::ₘ
        (stake.kept + fitted pool.idle) := by
      simp [Pool.books, hjanitor, Janitor.kept]
    split at h
    · next hreusable =>
      cases h
      simp only [Bool.and_eq_true, decide_eq_true_eq] at hreusable
      obtain ⟨⟨⟨⟨rfl, -⟩, -⟩, -⟩, hroom⟩ := hreusable
      refine .inr ((Books.Step.regards (.cleared entry.leases) hkept fun uses huses => ?_).congr ?_)
      · exact ⟨huses.1, huses.2, hroom⟩
      · ext1 <;> simp [Pool.books, hjanitor, Janitor.kept, Janitor.vacant, Janitor.returned]
    · cases h
      refine .inr ((Books.Step.regards .spent hkept fun _ _ => trivial).congr ?_)
      ext1 <;> simp [Pool.books, hjanitor, Janitor.kept, Janitor.vacant, Janitor.returned]
  · next entry hjanitor =>
    have hkept : (pool.books stake).kept = (entry.container, .cleared entry.leases) ::ₘ
        (stake.kept + fitted pool.idle) := by
      simp [Pool.books, hjanitor, Janitor.kept]
    split at h
    · cases h
      refine .inr ((Books.Step.recycles hkept).congr ?_)
      ext1 <;> simp [Pool.books, Pool.use, Books.recorded, hjanitor, Janitor.kept, Janitor.vacant,
        Janitor.returned]
    · cases h
      refine .inr ((Books.Step.regards .spent hkept fun _ _ => trivial).congr ?_)
      ext1 <;> simp [Pool.books, hjanitor, Janitor.kept, Janitor.vacant, Janitor.returned]
  · next entry hjanitor =>
    cases h
    left
    ext1 <;> simp [Pool.books, hjanitor, Janitor.kept, Janitor.vacant, Janitor.returned]
  · next entry hjanitor =>
    cases h
    have hkept : (pool.books stake).kept = (entry.container, .spent) ::ₘ
        (stake.kept + fitted pool.idle) := by
      simp [Pool.books, hjanitor, Janitor.kept]
    refine .inr ((Books.Step.buries hkept).congr ?_)
    ext1 <;> simp [Pool.books, Pool.bury, hjanitor, Janitor.kept, Janitor.vacant, Janitor.returned]
  · next hjanitor =>
    cases h
    have hvacant : (pool.books stake).vacant = stake.vacant + 1 := by
      simp [Pool.books, hjanitor, Janitor.vacant]
    refine .inr ((Books.Step.frees hvacant).congr ?_)
    ext1 <;> simp [Pool.books, hjanitor, Janitor.kept, Janitor.vacant, Janitor.returned]

end Sections

/-! ### Every run -/

section Runs

variable {config : PoolConfig} {c c' : Pooling}

/-- A call that arrives holds nothing yet. -/
theorem Task.Fresh.stake {task : Task} (h : task.Fresh config) : task.stake = 0 := by
  cases h <;> rfl

/-- The books of a configuration. -/
def booksOf (c : Pooling) : Books := c.shared.books (total Task.stake c.threads)

theorem pools_kept : Kept (fun pool pool' => ∃ fine, Pool.reclaim config pool fine = some pool')
    (Task.Fresh config)
    (fun task pool task' pool' => ∃ choice, task.act config pool choice = some (task', pool'))
    (fun pool stake => (Pool.books pool stake).Sound config) (fun _ _ => True) Task.stake where
  ownInv pool pool' stake hsound := by
    rintro ⟨fine, h⟩
    rcases Pool.reclaim_books h hsound with heq | hstep
    · exact heq ▸ hsound
    · exact hsound.step hstep
  ownKnows _ _ _ _ _ _ _ := trivial
  freshInv pool task stake hsound hfresh := by
    rw [hfresh.stake, zero_add]
    exact ⟨hsound, trivial⟩
  stepInv task pool task' pool' stake hsound _ := by
    rintro ⟨choice, h⟩
    refine ⟨?_, trivial⟩
    rcases Task.act_books h hsound with heq | hstep | ⟨container, -, heq⟩
    · exact heq ▸ hsound
    · exact hsound.step hstep
    · exact heq ▸ hsound.swept container
  stepKnows _ _ _ _ _ _ _ _ _ _ := trivial

theorem new_sound : (Pool.new.books 0).Sound config where
  live_eq := rfl
  bound := Nat.zero_le _
  opened _ := rfl
  distinct := nodup_zero
  born _ h := absurd h (notMem_zero _)
  unborn _ _ := rfl
  alive_le := le_rfl
  tokens := rfl
  tokens_nodup := nodup_zero
  tokens_lt _ h := absurd h (notMem_zero _)
  kept_holds _ _ h := absurd h (notMem_zero _)
  held_spec _ _ h := absurd h (notMem_zero _)
  returned_spec _ _ h := absurd h (notMem_zero _)
  reused _ _ h := by simp [Pool.books, Pool.new] at h
  leases_le _ := Nat.zero_le _

theorem sound_of_run (hrun : ReflTransGen (Pools config) ⟨.new, []⟩ c) :
    (booksOf c).Sound config :=
  (pools_kept.run ⟨new_sound, fun _ h => absurd h not_mem_nil⟩ hrun).1

end Runs

end Retrograd.Container
