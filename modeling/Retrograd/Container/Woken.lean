import Retrograd.Container.Sleepers

/-!
# Every sleeper is woken

A closing wakes everybody: once it is announced, whoever was waiting has a future **behind** the
last announcement, and nobody starts to wait. With the cover of the free slots this gives what the
pool owes its callers, in every run that heeds the two steps that lose a wake-up. The two shortest
runs that do not are at the end.
-/

namespace Retrograd.Container

open List
open Relation (ReflTransGen)
open Logic

/-! ### What a caller knows -/

/-- The future a caller has created and not polled. -/
def Caller.future : Caller → Option Notified
  | .listening future _ | .unpolled future | .drainListening future | .drainUnpolled future =>
    some future
  | _ => none

structure Caller.Known (caller : Caller) (served : Served) : Prop where
  closing : caller.Closing → served.pool.closed = true
  issued : ∀ future, caller.future = some future →
    future.id < served.available.nextFuture ∧ future.calls ≤ served.available.calls
  registered : ∀ id, caller = .suspended id → id < served.available.nextFuture

/-- What never goes back. -/
structure Served.Later (served served' : Served) : Prop where
  closed : served.pool.closed = true → served'.pool.closed = true
  nextFuture : served.available.nextFuture ≤ served'.available.nextFuture
  calls : served.available.calls ≤ served'.available.calls

/-- A closing was announced, and the waits from before it are behind it: nothing registered is
older than `line`. -/
structure Served.Shut (served : Served) (line : ℕ) : Prop where
  line_le : line ≤ served.available.nextFuture
  waiters : ∀ id ∈ served.available.waiters, line ≤ id

def Caller.Behind (line calls : ℕ) : Caller → Prop
  | .unpolled future => future.calls < calls
  | .suspended id => id < line
  | .drainListening future | .drainUnpolled future => future.calls = calls → line ≤ future.id
  | _ => True

section Callers

variable {config : PoolConfig} {pool pool' : Pool} {task task' : Task} {choice : Choice}
  {served served' : Served} {caller caller' : Caller} {line : ℕ}

theorem Caller.Known.later (h : caller.Known served) (hlater : served.Later served') :
    caller.Known served' where
  closing hclosing := hlater.closed (h.closing hclosing)
  issued future hfuture :=
    have hissued := h.issued future hfuture
    ⟨hissued.1.trans_le hlater.nextFuture, hissued.2.trans hlater.calls⟩
  registered id hid := (h.registered id hid).trans_le hlater.nextFuture

/-- A caller without a future knows no more than whether the pool is closed. -/
theorem Caller.known_of_none (hclosing : caller.Closing → served.pool.closed = true)
    (hfuture : caller.future = none) (hsuspended : ∀ id, caller ≠ .suspended id) :
    caller.Known served :=
  ⟨hclosing, fun _ hsome => (by rw [hfuture] at hsome; cases hsome),
    fun id hid => absurd hid (hsuspended id)⟩

theorem Caller.Fresh.known (h : Caller.Fresh config caller) : caller.Known served := by
  cases h <;> exact known_of_none False.elim rfl (by simp)

theorem Task.goesOn_future (task task' : Task) :
    (task.goesOn task').future = none ∧ ∀ id, task.goesOn task' ≠ .suspended id := by
  unfold Task.goesOn
  cases task.announces task' <;> exact ⟨rfl, by simp⟩

/-- What a section comes to do on a closed pool, it does on a closed pool. -/
theorem Task.act_closing (h : task.act config pool choice = some (task', pool'))
    (hacquiring : task ≠ .acquiring)
    (hclosing : (Caller.pooled task).Closing → pool.closed = true) :
    ((task.goesOn task').Closing → pool'.closed = true) ∧
      (pool'.closed = true → (task.goesOn task').closes = 0 → pool.closed = true) ∧
      (Caller.pooled task).closes ≤ (task.goesOn task').closes := by
  cases task with
  | acquiring => exact absurd rfl hacquiring
  | warming count =>
    cases choice with
    | go =>
      simp only [Task.act] at h
      split at h <;> cases h <;> exact ⟨False.elim, fun hclosed _ => hclosed, le_rfl⟩
    | drop =>
      cases h
      exact ⟨False.elim, fun hclosed _ => hclosed, le_rfl⟩
    | fail | poison | sweep => cases h
  | warmed count container =>
    cases choice with
    | go =>
      simp only [Task.act] at h
      split at h
      · next hclosed =>
        cases h
        exact ⟨fun _ => hclosed, fun hclosed _ => hclosed, le_rfl⟩
      · cases h
        exact ⟨False.elim, fun hclosed _ => hclosed, le_rfl⟩
    | fail | drop | poison | sweep => cases h
  | closing | forcing =>
    cases choice <;> cases h
    exact ⟨fun _ => rfl, fun _ (hnone : 1 = 0) => absurd hnone Nat.one_ne_zero, Nat.zero_le _⟩
  | creating born | warmCreating _ born | abandoned born =>
    cases born <;> cases choice <;> cases h <;>
      exact ⟨False.elim, fun hclosed _ => hclosed, le_rfl⟩
  | emptying idle =>
    cases idle <;> cases choice <;> cases h
    exact ⟨hclosing, fun hclosed _ => hclosed, le_rfl⟩
  | emptied idle =>
    cases choice <;> cases h
    exact ⟨hclosing, fun hclosed _ => hclosed, le_rfl⟩
  | discarding count container =>
    cases choice <;> cases h
    · exact ⟨hclosing, fun hclosed _ => hclosed, Nat.zero_le _⟩
    · exact ⟨False.elim, fun hclosed _ => hclosed, le_rfl⟩
  | waiting | createFailed | handing | holding | warmFailed | sweeping | undestroyed | done =>
    cases choice <;> cases h <;> exact ⟨False.elim, fun hclosed _ => hclosed, le_rfl⟩

theorem notifyOne_later (notify : Notify) :
    notify.notifyOne.calls = notify.calls ∧ notify.notifyOne.nextFuture = notify.nextFuture ∧
      ∀ id ∈ notify.notifyOne.waiters, id ∈ notify.waiters := by
  rcases notify.notifyOne_spec with ⟨id, waiters, hwaiters, heq⟩ | ⟨hnone, heq⟩
  · rw [heq, hwaiters]
    exact ⟨rfl, rfl, fun other hmem => mem_cons_of_mem id hmem⟩
  · rw [heq]
    exact ⟨rfl, rfl, fun other hmem => hmem⟩

theorem Served.later_notifyOne (served : Served) :
    served.Later { served with available := served.available.notifyOne } :=
  ⟨id, (notifyOne_later served.available).2.1.ge, (notifyOne_later served.available).1.ge⟩

/-- A step of a caller never goes back. -/
theorem Caller.Moves.later (h : Caller.Moves config caller served caller' served') :
    served.Later served' := by
  cases h with
  | works _ _ h => exact ⟨(Task.act_closed h).2.1, le_rfl, le_rfl⟩
  | takes _ _ _ h => exact ⟨(Task.act_closed h).2.1, le_rfl, le_rfl⟩
  | empties | announcesAll => exact ⟨id, le_rfl, Nat.le_succ _⟩
  | announcesOne | drainAnnounces => exact served.later_notifyOne
  | listens | drains => exact ⟨id, Nat.le_succ _, le_rfl⟩
  | givesUp | waits | drainEnds | drainWaits => exact ⟨id, le_rfl, le_rfl⟩
  | ready h | drainReady h =>
    obtain ⟨permit, rfl, -⟩ := Notify.poll_ready h
    exact ⟨id, le_rfl, le_rfl⟩
  | registers h | drainRegisters h =>
    obtain ⟨-, -, rfl⟩ := Notify.poll_pending h
    exact ⟨id, le_rfl, le_rfl⟩
  | wakes h | drainWakes h =>
    obtain ⟨-, rfl⟩ := Notify.resume_spec h
    exact ⟨id, le_rfl, le_rfl⟩
  | cancels h | drainCancels h =>
    obtain ⟨waiters, -, rfl⟩ := Notify.cancel_asleep h
    exact ⟨id, le_rfl, le_rfl⟩
  | passes h | drainPasses h =>
    obtain ⟨woken, -, rfl⟩ := Notify.cancel_chosen h
    exact ⟨id, le_rfl, le_rfl⟩

theorem Caller.Moves.known (h : Caller.Moves config caller served caller' served')
    (hknown : caller.Known served) : caller'.Known served' := by
  have hlater := h.later
  cases h with
  | @works _ task task' _ _ hacquiring hwaiting h =>
    exact known_of_none (Task.act_closing h hacquiring hknown.closing).1
      (Task.goesOn_future task task').1 (Task.goesOn_future task task').2
  | empties | drainReady | drainWakes | drainCancels | drainPasses | drainAnnounces
  | drainEnds | drainRegisters =>
    exact known_of_none (fun _ => hlater.closed (hknown.closing trivial)) rfl (by simp)
  | announcesOne served task => exact known_of_none hknown.closing rfl (by simp)
  | announcesAll =>
    exact known_of_none (fun _ => hlater.closed (hknown.closing trivial)) rfl (by simp)
  | listens served woken =>
    refine ⟨False.elim, fun future hfuture => ?_, by simp⟩
    cases hfuture
    exact ⟨Nat.lt_succ_self _, le_rfl⟩
  | drains served =>
    refine ⟨fun _ => hknown.closing trivial, fun future hfuture => ?_, by simp⟩
    cases hfuture
    exact ⟨Nat.lt_succ_self _, le_rfl⟩
  | takes future woken hwaiting h =>
    refine known_of_none ?_ rfl (by simp)
    rcases Task.acquiring_cases h with ⟨-, rfl, -⟩ | ⟨-, ⟨_, _, -, rfl, -⟩ | ⟨-, -, rfl, -⟩ |
      ⟨-, -, rfl, -⟩⟩ <;> exact False.elim
  | waits => exact ⟨False.elim, hknown.issued, by simp⟩
  | drainWaits => exact ⟨hknown.closing, hknown.issued, by simp⟩
  | registers h =>
    refine ⟨False.elim, by simp [Caller.future], fun id hid => ?_⟩
    obtain ⟨-, -, rfl⟩ := Notify.poll_pending h
    cases hid
    exact (hknown.issued _ rfl).1
  | givesUp | ready | wakes | cancels | passes => exact known_of_none False.elim rfl (by simp)

theorem Served.Shut.notifyOne (h : served.Shut line) :
    Served.Shut { served with available := served.available.notifyOne } line where
  line_le := h.line_le.trans (notifyOne_later served.available).2.1.ge
  waiters id hmem := h.waiters id ((notifyOne_later served.available).2.2 id hmem)

theorem Task.goesOn_behind (task task' : Task) (calls : ℕ) :
    (task.goesOn task').Behind line calls := by
  unfold Task.goesOn
  cases task.announces task' <;> trivial

/-- A step on a closed pool announces the closing, or leaves the waits behind it. -/
theorem Caller.Moves.behind (h : Caller.Moves config caller served caller' served')
    (hclosed : served.pool.closed = true) :
    (served'.available = served.available.notifyWaiters ∧ ∀ line calls, caller'.Behind line calls) ∨
      (served'.available.calls = served.available.calls ∧
        ∀ line, served.Shut line → caller.Behind line served.available.calls →
          served'.Shut line ∧ caller'.Behind line served.available.calls) := by
  cases h with
  | empties | announcesAll => exact .inl ⟨rfl, fun _ _ => trivial⟩
  | works hacquiring hwaiting h =>
    exact .inr ⟨rfl, fun _ hshut _ => ⟨⟨hshut.line_le, hshut.waiters⟩, Task.goesOn_behind _ _ _⟩⟩
  | announcesOne | drainAnnounces =>
    exact .inr ⟨(notifyOne_later _).1, fun _ hshut _ => ⟨hshut.notifyOne, trivial⟩⟩
  | listens => exact .inr ⟨rfl, fun _ hshut _ =>
      ⟨⟨hshut.line_le.trans (Nat.le_succ _), hshut.waiters⟩, trivial⟩⟩
  | drains => exact .inr ⟨rfl, fun _ hshut _ =>
      ⟨⟨hshut.line_le.trans (Nat.le_succ _), hshut.waiters⟩, fun _ => hshut.line_le⟩⟩
  | takes => exact .inr ⟨rfl, fun _ hshut _ => ⟨⟨hshut.line_le, hshut.waiters⟩, trivial⟩⟩
  | givesUp | drainEnds => exact .inr ⟨rfl, fun _ hshut _ => ⟨hshut, trivial⟩⟩
  | waits future woken hopen =>
    rw [hclosed] at hopen
    cases hopen
  | drainWaits => exact .inr ⟨rfl, fun _ hshut hbehind => ⟨hshut, hbehind⟩⟩
  | ready h | drainReady h =>
    obtain ⟨permit, rfl, -⟩ := Notify.poll_ready h
    exact .inr ⟨rfl, fun _ hshut _ => ⟨⟨hshut.line_le, hshut.waiters⟩, trivial⟩⟩
  | registers h =>
    obtain ⟨-, hcalls, rfl⟩ := Notify.poll_pending h
    -- a future from before the announcement is ready, not registered
    exact .inr ⟨rfl, fun _ _ (hbehind : _ < _) => absurd hcalls hbehind.ne⟩
  | drainRegisters h =>
    obtain ⟨-, hcalls, rfl⟩ := Notify.poll_pending h
    refine .inr ⟨rfl, fun _ hshut hbehind => ⟨⟨hshut.line_le, fun id hmem => ?_⟩, trivial⟩⟩
    rcases mem_append.mp hmem with hmem | hmem
    · exact hshut.waiters id hmem
    · obtain rfl := mem_singleton.mp hmem
      exact hbehind hcalls
  | wakes h | drainWakes h =>
    obtain ⟨-, rfl⟩ := Notify.resume_spec h
    exact .inr ⟨rfl, fun _ hshut _ => ⟨⟨hshut.line_le, hshut.waiters⟩, trivial⟩⟩
  | cancels h | drainCancels h =>
    obtain ⟨waiters, hsub, rfl⟩ := Notify.cancel_asleep h
    exact .inr ⟨rfl, fun _ hshut _ =>
      ⟨⟨hshut.line_le, fun id hmem => hshut.waiters id (hsub.subset hmem)⟩, trivial⟩⟩
  | passes h | drainPasses h =>
    obtain ⟨woken, -, rfl⟩ := Notify.cancel_chosen h
    exact .inr ⟨rfl, fun _ hshut _ => ⟨⟨hshut.line_le, hshut.waiters⟩, trivial⟩⟩

/-- The announcement puts everybody behind it. -/
theorem Caller.Known.behind (h : caller.Known served) :
    caller.Behind served.available.nextFuture (served.available.calls + 1) := by
  cases caller with
  | unpolled future => exact Nat.lt_succ_of_le (h.issued future rfl).2
  | suspended id => exact h.registered id rfl
  | drainListening future | drainUnpolled future =>
    intro hcalls
    have := (h.issued future rfl).2
    omega
  | _ => trivial

/-- A step that is neither the closing nor its announcement leaves what is to be announced. -/
theorem Caller.Moves.closes (h : Caller.Moves config caller served caller' served')
    (hknown : caller.Known served) (hclosed : served'.pool.closed = true)
    (hnone : caller'.closes = 0) :
    served.pool.closed = true ∧
      (served'.available ≠ served.available.notifyWaiters → caller.closes = 0) := by
  cases h with
  | @works _ task _ _ _ hacquiring hwaiting h =>
    obtain ⟨-, hbefore, hle⟩ := Task.act_closing h hacquiring hknown.closing
    exact ⟨hbefore hclosed hnone, fun _ => Nat.le_zero.mp (hle.trans hnone.le)⟩
  | empties | announcesAll => exact ⟨hclosed, fun hother => absurd rfl hother⟩
  | takes future woken hwaiting h =>
    refine ⟨?_, fun _ => rfl⟩
    rcases Task.acquiring_cases h with ⟨hclosed', -, -⟩ | ⟨hopen, ⟨_, _, -, -, rfl⟩ |
      ⟨-, -, -, rfl⟩ | ⟨-, -, -, rfl⟩⟩
    · exact hclosed'
    all_goals exact hclosed
  | _ => exact ⟨hclosed, fun _ => rfl⟩

end Callers

/-! ### What every run keeps -/

/-- The invariant: the cover of an open pool, what every caller knows, and an announced closing. -/
structure Watched (config : PoolConfig) (c : Serving) : Prop where
  covers : c.shared.pool.closed = false → Covers config c
  known : ∀ caller ∈ c.threads, caller.Known c.shared
  shut : c.shared.pool.closed = true → total Caller.closes c.threads = 0 →
    ∃ line, c.shared.Shut line ∧
      ∀ caller ∈ c.threads, caller.Behind line c.shared.available.calls

section Runs

variable {config : PoolConfig} {c c' : Serving}

theorem Served.reclaim_later {served served' : Served} {fine : Bool}
    (h : served.reclaim config fine = some served') :
    served.Later served' ∧ served'.pool.closed = served.pool.closed ∧
      served'.available.calls = served.available.calls ∧
      ∀ line, served.Shut line → served'.Shut line := by
  unfold Served.reclaim at h
  split at h
  · cases h
    obtain ⟨hclosed, hnext, hcalls⟩ := served.later_notifyOne
    exact ⟨⟨hclosed, hnext, hcalls⟩, rfl, (notifyOne_later _).1, fun line hshut =>
      ⟨hshut.notifyOne.line_le, hshut.notifyOne.waiters⟩⟩
  · obtain ⟨pool, hreclaim, rfl⟩ := Option.map_eq_some_iff.mp h
    have hclosed := (Pool.reclaim_free hreclaim).1
    exact ⟨⟨fun h => hclosed.trans h, le_rfl, le_rfl⟩, hclosed, rfl,
      fun line hshut => ⟨hshut.line_le, hshut.waiters⟩⟩

theorem Watched.step (hwatched : Watched config c) (h : Heeded config c c') :
    Watched config c' := by
  obtain ⟨hcovers, hknown, hshut⟩ := hwatched
  cases h with
  | own threads h hcall =>
    obtain ⟨hlater, hclosed, hcalls, hkept⟩ := Served.reclaim_later h
    refine ⟨Served.reclaim_covered h hcovers hcall, fun caller hmem =>
      (hknown caller hmem).later hlater, fun hclosed' hnone => ?_⟩
    obtain ⟨line, hline, hbehind⟩ := hshut (hclosed.symm.trans hclosed') hnone
    exact ⟨line, hkept line hline, fun caller hmem => hcalls ▸ hbehind caller hmem⟩
  | @spawn caller served threads h =>
    refine ⟨fun hopen => ?_, fun other hmem => ?_, fun hclosed hnone => ?_⟩
    · have hbefore := hcovers hopen
      unfold Covers at hbefore ⊢
      simp only [total_cons]
      cases h <;> simpa only [Caller.owes, Caller.roused, Caller.hesitates, zero_add] using hbefore
    · rcases mem_cons.mp hmem with rfl | hmem
      · exact h.known
      · exact hknown other hmem
    · rw [total_cons] at hnone
      obtain ⟨line, hline, hbehind⟩ := hshut hclosed (Nat.eq_zero_of_add_eq_zero_left hnone)
      refine ⟨line, hline, fun other hmem => ?_⟩
      rcases mem_cons.mp hmem with rfl | hmem
      · cases h <;> trivial
      · exact hbehind other hmem
  | @act served served' caller caller' choice before after h hcall hfailed =>
    have hmoves := Caller.act_moves h
    have hmine : caller.Known served := hknown caller (by simp)
    have hothers : ∀ other, other ∈ before ∨ other ∈ after → other.Known served :=
      fun other hmem => hknown other (by rcases hmem with h | h <;> simp [h])
    have hmem {other : Caller} (h : other ∈ before ++ caller' :: after) :
        other = caller' ∨ other ∈ before ∨ other ∈ after := by
      simpa [or_left_comm] using h
    refine ⟨fun hopen => ?_, fun other hother => ?_, fun hclosed hnone => ?_⟩
    · unfold Covers Spare at *
      simp only [total_middle] at hcovers hcall hfailed ⊢
      exact hmoves.covered hmine.closing hcovers hcall hfailed hopen
    · rcases hmem hother with rfl | hother
      · exact hmoves.known hmine
      · exact (hothers other hother).later hmoves.later
    · dsimp only at hclosed hshut ⊢
      rw [total_middle] at hnone
      obtain ⟨hbefore, hstill⟩ :=
        hmoves.closes hmine hclosed (Nat.eq_zero_of_add_eq_zero_right hnone)
      by_cases hall : served'.available = served.available.notifyWaiters
      · -- the closing is announced now
        refine ⟨served.available.nextFuture, ⟨by rw [hall]; exact le_rfl, ?_⟩, fun other hother => ?_⟩
        · rw [hall]
          exact fun id hid => absurd hid not_mem_nil
        · rw [hall]
          rcases hmem hother with rfl | hother
          · rcases hmoves.behind hbefore with ⟨-, hbehind⟩ | ⟨hcalls, -⟩
            · exact hbehind _ _
            · rw [hall] at hcalls
              exact absurd hcalls (Nat.succ_ne_self _)
          · exact (hothers other hother).behind
      · obtain ⟨line, hline, hbehind⟩ := hshut hbefore (by
          rw [total_middle, hstill hall, zero_add]
          exact Nat.eq_zero_of_add_eq_zero_left hnone)
        obtain ⟨hcalls, hkept⟩ := (hmoves.behind hbefore).resolve_left fun h => hall h.1
        obtain ⟨hline', hbehind'⟩ := hkept line hline (hbehind caller (by simp))
        refine ⟨line, hline', fun other hother => ?_⟩
        rw [hcalls]
        rcases hmem hother with rfl | hother
        · exact hbehind'
        · exact hbehind other (by rcases hother with h | h <;> simp [h])

theorem watched_of_run (h : ReflTransGen (Heeded config) ⟨.new, []⟩ c) : Watched config c := by
  induction h with
  | refl =>
    refine ⟨fun _ => .inr (Nat.zero_le _), fun _ h => absurd h not_mem_nil, fun hclosed => ?_⟩
    cases hclosed
  | tail _ hstep ih => exact ih.step hstep

/-- The counts of the wake-ups when there is none. -/
theorem total_of_not_wakeUp (h : ¬WakeUp c) :
    total Caller.owes c.threads = 0 ∧ total Caller.roused c.threads = 0 ∧
      total Caller.closes c.threads = 0 := by
  have hnone : ∀ caller ∈ c.threads, caller.owes + caller.roused + caller.closes = 0 := by
    intro caller hmem
    by_contra hsome
    exact h (.inr (.inr (.inr ⟨caller, hmem, hsome⟩)))
  refine ⟨total_eq_zero fun caller hmem => ?_, total_eq_zero fun caller hmem => ?_,
    total_eq_zero fun caller hmem => ?_⟩ <;> have := hnone caller hmem <;> omega

/-- **No caller sleeps on a free slot.** In a run that heeds the two steps that lose a wake-up, a
suspended `acquire` with no wake-up stored or on its way finds no idle container, no room for
another one and the pool open. -/
theorem rested_of_run (h : ReflTransGen (Heeded config) ⟨.new, []⟩ c) : Rested config c := by
  rintro ⟨id, hsuspended, hasleep⟩ hnone
  obtain ⟨hcovers, hknown, hshut⟩ := watched_of_run h
  obtain ⟨howes, hroused, hcloses⟩ := total_of_not_wakeUp hnone
  have hopen : c.shared.pool.closed = false := by
    by_contra hclosed
    -- an announced closing left this future behind
    obtain ⟨line, hline, hbehind⟩ := hshut (by simpa using hclosed) hcloses
    exact absurd (hbehind _ hsuspended) (not_lt.mpr (hline.waiters id hasleep))
  have hlive : c.shared.pool.live ≤ config.maxLive :=
    live_le_of_run (ReflTransGen.mono (fun _ _ hstep => hstep.serves) _ _ h)
  have hpermit : c.shared.available.permit = false := by
    by_contra hpermit
    exact hnone (.inl (by simpa using hpermit))
  have hwoken : c.shared.available.woken = [] := by
    by_contra hwoken
    exact hnone (.inr (.inl hwoken))
  have howed : c.shared.owed = false := by
    by_contra howed
    exact hnone (.inr (.inr (.inl (by simpa using howed))))
  have hwaiters := List.length_pos_of_mem hasleep
  have hcovered := hcovers hopen
  unfold Covers Served.Covered at hcovered
  simp only [howes, hroused, Served.free, Notify.stored, hpermit, hwoken, howed, List.length_nil,
    Bool.toNat_false] at hcovered
  exact ⟨List.eq_nil_of_length_eq_zero (by omega), by omega, hopen⟩

/-- A step that neither announces nor gives up a warm-up. -/
theorem Heeded.go {served served' : Served} {caller caller' : Caller} (before after : List Caller)
    (h : caller.act config served .go = some (caller', served')) (howes : caller.owes = 0)
    (hfailed : caller ≠ .pooled .warmFailed) :
    Heeded config ⟨served, before ++ caller :: after⟩ ⟨served', before ++ caller' :: after⟩ :=
  .act before after h (fun _ hone => absurd (howes.symm.trans hone) Nat.zero_ne_one)
    fun _ hwarm => absurd hwarm hfailed

end Runs

/-! ### One container and a second caller -/

/-- A caller creates the one container there may be, and another one waits for it. -/
theorem rested_of_run_secondCaller : ∃ c, ReflTransGen (Heeded oneContainer) ⟨.new, []⟩ c ∧
    Asleep c ∧ ¬WakeUp c ∧ Rested oneContainer c := by
  have hrun : ∃ c, ReflTransGen (Heeded oneContainer) ⟨.new, []⟩ c ∧
      c.threads = [.suspended 1, .pooled (.creating none)] ∧ c.shared.available.waiters = [1] ∧
      c.shared.available.permit = false ∧ c.shared.available.woken = [] ∧ c.shared.owed = false :=
    ⟨_, .head (.spawn _ _ .acquire) <| .head (.go [] [] rfl rfl nofun) <|
      .head (.go [] [] rfl rfl nofun) <| .head (.spawn _ _ .acquire) <|
      .head (.go [] [_] rfl rfl nofun) <| .head (.go [] [_] rfl rfl nofun) <|
      .head (.go [] [_] rfl rfl nofun) .refl, rfl, rfl, rfl, rfl, rfl⟩
  obtain ⟨c, hrun, hthreads, hwaiters, hpermit, hwoken, howed⟩ := hrun
  refine ⟨c, hrun, ⟨1, by simp [hthreads], by simp [hwaiters]⟩, ?_, rested_of_run hrun⟩
  simp [WakeUp, hthreads, hpermit, hwoken, howed, Caller.owes, Caller.roused, Caller.closes]

/-! ### Lost wake-ups -/

/-- What a step does where every warm-up's creation fails. -/
def Caller.unlucky (config : PoolConfig) (caller : Caller) (served : Served) :
    Option (Caller × Served) :=
  match caller with
  | .pooled (.warmCreating _ _) => caller.act config served .fail
  | _ => caller.act config served .go

/-- A warm-up takes the only slot, a caller waits for it, and the creation fails. -/
def failedWarmUp : List (Move Bool Caller) :=
  [.spawn (.pooled (.warming 1)), .act 0, .spawn (.looping false), .act 0, .act 0, .act 0, .act 1,
    .act 1]

/-- Two callers have looked at a full pool and are not registered when both containers come
back. -/
def twoReturns : List (Move Bool Caller) :=
  [.spawn (.looping false), .act 0, .act 0, .act 0, .act 0, .act 0,
    .spawn (.looping false), .act 0, .act 0, .act 0, .act 0, .act 0,
    .spawn (.looping false), .act 0, .act 0, .spawn (.looping false), .act 0, .act 0,
    .act 2, .act 3, .own true, .own true, .own true, .own true, .own true, .own true,
    .own true, .own true, .own true, .own true, .own true, .own true,
    .act 1, .act 1, .act 1, .act 0]

/-- A schedule that starts callers and warm-ups is a run. -/
theorem serves_of_play {config : PoolConfig} {c : Serving} {moves : List (Move Bool Caller)}
    (hfresh : ∀ caller, .spawn caller ∈ moves → caller.Fresh config)
    (h : play (fun fine served => Served.reclaim config served fine) (Caller.unlucky config)
      ⟨.new, []⟩ moves = some c) : ReflTransGen (Serves config) ⟨.new, []⟩ c := by
  refine ReflTransGen.mono (fun _ _ hstep => hstep.mono (fun _ _ => id) (fun _ => id) ?_) _ _
    (run_of_play hfresh h)
  intro caller served caller' served' hact
  unfold Caller.unlucky at hact
  split at hact
  · exact ⟨.fail, hact⟩
  · exact ⟨.go, hact⟩

/-- Somebody sleeps on a free slot: after a warm-up that failed, and after two returns whose
announcements became one permit. -/
theorem rested_fails :
    (∃ c, ReflTransGen (Serves ⟨1, 0, .never, 32⟩) ⟨.new, []⟩ c ∧ Asleep c ∧ ¬WakeUp c ∧
      c.shared.pool.live = 0 ∧ ¬Rested ⟨1, 0, .never, 32⟩ c) ∧
    ∃ c, ReflTransGen (Serves ⟨2, 0, .never, 32⟩) ⟨.new, []⟩ c ∧ Asleep c ∧ ¬WakeUp c ∧
      c.shared.pool.live = 1 ∧ ¬Rested ⟨2, 0, .never, 32⟩ c := by
  constructor
  · have hplay : ∃ c, play (fun fine served => Served.reclaim ⟨1, 0, .never, 32⟩ served fine)
        (Caller.unlucky ⟨1, 0, .never, 32⟩) ⟨.new, []⟩ failedWarmUp = some c ∧
        c.threads = [.suspended 0, .pooled .done] ∧ c.shared.available = ⟨false, 0, [0], [], 1⟩ ∧
        c.shared.owed = false ∧ c.shared.pool.live = 0 :=
      ⟨_, rfl, rfl, rfl, rfl, rfl⟩
    obtain ⟨c, hplay, hthreads, havailable, howed, hlive⟩ := hplay
    have hasleep : Asleep c := ⟨0, by simp [hthreads], by simp [havailable]⟩
    have hnone : ¬WakeUp c := by
      simp [WakeUp, hthreads, havailable, howed, Caller.owes, Caller.roused, Caller.closes]
    refine ⟨c, serves_of_play ?_ hplay, hasleep, hnone, hlive, fun hrested => ?_⟩
    · intro caller hmem
      simp only [failedWarmUp, List.mem_cons, reduceCtorEq, Move.spawn.injEq, List.not_mem_nil,
        false_or, or_false] at hmem
      rcases hmem with rfl | rfl
      · exact .prewarm 1
      · exact .acquire
    · have := (hrested hasleep hnone).2.1
      rw [hlive] at this
      cases this
  · have hplay : ∃ c, play (fun fine served => Served.reclaim ⟨2, 0, .never, 32⟩ served fine)
        (Caller.unlucky ⟨2, 0, .never, 32⟩) ⟨.new, []⟩ twoReturns = some c ∧
        c.threads = [.suspended 3, .pooled (.creating none), .pooled .done, .pooled .done] ∧
        c.shared.available = ⟨false, 0, [3], [], 5⟩ ∧ c.shared.owed = false ∧
        c.shared.pool.live = 1 :=
      ⟨_, rfl, rfl, rfl, rfl, rfl⟩
    obtain ⟨c, hplay, hthreads, havailable, howed, hlive⟩ := hplay
    have hasleep : Asleep c := ⟨3, by simp [hthreads], by simp [havailable]⟩
    have hnone : ¬WakeUp c := by
      simp [WakeUp, hthreads, havailable, howed, Caller.owes, Caller.roused, Caller.closes]
    refine ⟨c, serves_of_play ?_ hplay, hasleep, hnone, hlive, fun hrested => ?_⟩
    · intro caller hmem
      simp only [twoReturns, List.mem_cons, reduceCtorEq, Move.spawn.injEq, List.not_mem_nil,
        false_or, or_false, or_self] at hmem
      subst hmem
      exact .acquire
    · have := (hrested hasleep hnone).2.1
      rw [hlive] at this
      cases this

end Retrograd.Container
