import Retrograd.Training.Resume

/-!
# What a resumed run follows

A launch that resumes from an emitted boundary draws the same prompts, with the same seeds and the
same KL coefficient, as the run that was not stopped: its draws are a function of the cursor alone,
whatever pass of the permutation is cached. Its **horizon is not the same**: it starts over at the
nominal bound, and the first update it measures is charged with every step of the checkpoint.
`resumed_iff` says for which costs that makes no difference.
-/

namespace Retrograd.Training

open Logic Option

/-! ### Draws -/

/-- The cached permutation is that of the pass it is held for. -/
def PromptDraws.Coherent (draws : PromptDraws) : Prop :=
  ∀ pass, draws.pass = some pass →
    draws.permutation = shuffledIndices draws.len (passSeed draws.seed pass)

/-- Draws of one file, whatever pass is in place. -/
structure PromptDraws.Of (order : PromptOrder) (len seed : ℕ) (draws : PromptDraws) : Prop where
  order_eq : draws.order = order
  len_eq : draws.len = len
  seed_eq : draws.seed = seed
  coherent : draws.Coherent

theorem PromptDraws.new_of (order : PromptOrder) (len seed : ℕ) :
    (PromptDraws.new order len seed).Of order len seed :=
  ⟨rfl, rfl, rfl, fun _ h => nomatch h⟩

section Groups

variable {order : PromptOrder} {len seed : ℕ} {draws draws' : PromptDraws}

/-- Entering a pass puts its permutation in place, cached or not. -/
theorem PromptDraws.Of.enter (h : draws.Of order len seed) (pass : ℕ) :
    (draws.enter pass).Of order len seed ∧
      (draws.enter pass).permutation = shuffledIndices len (passSeed seed pass) := by
  obtain ⟨rfl, rfl, rfl, hcoherent⟩ := h
  unfold PromptDraws.enter
  split
  · refine ⟨⟨rfl, rfl, rfl, ?_⟩, rfl⟩
    rintro _ ⟨⟩
    rfl
  · next hsame =>
    have hpass : draws.pass = some pass := by simpa using hsame
    exact ⟨⟨rfl, rfl, rfl, hcoherent⟩, hcoherent pass hpass⟩

theorem PromptDraws.Of.slot (h : draws.Of order len seed) (h' : draws'.Of order len seed)
    (offset : ℕ) :
    Agree (fun x x' : ℕ × PromptDraws => x.1 = x'.1 ∧ x.2.Of order len seed ∧ x'.2.Of order len seed)
      (draws.slot offset) (draws'.slot offset) := by
  obtain ⟨hentered, hpermutation⟩ := h.enter (offset / len)
  obtain ⟨hentered', hpermutation'⟩ := h'.enter (offset / len)
  unfold PromptDraws.slot
  rw [h.len_eq, h'.len_eq, h.order_eq, h'.order_eq]
  split
  · exact .error _
  · split
    · exact .ok ⟨rfl, h, h'⟩
    · dsimp only
      rw [hpermutation, hpermutation', hentered.len_eq, hentered'.len_eq]
      split
      · exact .ok ⟨rfl, hentered, hentered'⟩
      · exact .error _

variable (setup : Setup) (size : ℕ) (overflow : String)

theorem drawGroup_agree (h : draws.Of order len seed) (h' : draws'.Of order len seed) (cursor : ℕ) :
    Agree (fun x x' : Draw × PromptDraws =>
        x.1 = x'.1 ∧ x.2.Of order len seed ∧ x'.2.Of order len seed)
      (drawGroup setup size overflow cursor draws) (drawGroup setup size overflow cursor draws') := by
  refine (h.slot h' cursor).bind fun ⟨slot, next⟩ ⟨slot', next'⟩ ⟨hslot, hnext⟩ => ?_
  obtain rfl : slot = slot' := hslot
  dsimp only
  split
  · exact .error _
  · refine (Agree.refl _).bind fun offsets offsets' hoffsets => ?_
    rw [hoffsets]
    exact .ok ⟨rfl, hnext⟩

/-- What is drawn depends on the cursor alone. -/
theorem drawGroups_agree (h : draws.Of order len seed) (h' : draws'.Of order len seed)
    (count cursor : ℕ) :
    Agree (fun x x' : List Draw × PromptDraws =>
        x.1 = x'.1 ∧ x.2.Of order len seed ∧ x'.2.Of order len seed)
      (drawGroups setup size overflow count cursor draws)
      (drawGroups setup size overflow count cursor draws') := by
  induction count generalizing cursor draws draws' with
  | zero => exact .ok ⟨rfl, h, h'⟩
  | succ count ih =>
    refine (drawGroup_agree setup size overflow h h' cursor).bind
      fun ⟨draw, next⟩ ⟨draw', next'⟩ ⟨hdraw, hnext, hnext'⟩ => ?_
    refine (ih hnext hnext' (cursor + 1)).bind
      fun ⟨rest, last⟩ ⟨rest', last'⟩ ⟨hrest, hlast⟩ => ?_
    exact .ok ⟨by rw [show draw = draw' from hdraw, show rest = rest' from hrest], hlast⟩

end Groups

/-! ### A loop that can be resumed -/

/-- What makes a loop resumable: the boundary restores what its updates read, and nothing else of
its state makes a difference to them. -/
structure Policy.Resumable {S : Type} (policy : Policy S) (Same : S → S → Prop) : Prop where
  total : ∀ resume total state, policy.resumeState resume = .ok (total, state) →
    total = policy.updates * policy.share ∧ total ≤ usizeMax
  starts : ∀ total state, policy.resumeState none = .ok (total, state) → Same state state
  resumes : ∀ total first update state, policy.resumeState none = .ok (total, first) →
    Same state state → update < policy.updates →
    ∃ again, policy.resumeState (some (policy.boundary update state)) = .ok (total, again) ∧
      Same state again
  completed : ∀ update state, (policy.boundary update state).completedIterations = update
  draw : ∀ update work state state', Same state state' →
    Agree (fun x x' : List Draw × S => x.1 = x'.1 ∧ Same x.2 x'.2)
      (policy.draw update work state) (policy.draw update work state')
  klCoefficient : ∀ update state state', Same state state' →
    policy.klCoefficient update state = policy.klCoefficient update state'
  close : ∀ work state state', Same state state' →
    Same (policy.close work state) (policy.close work state')
  fits : policy.warmupSteps ≤ usizeMax

namespace Policy

variable {S : Type} {policy : Policy S} {work : ℕ → Work} {Same : S → S → Prop}

/-- The steps of the updates. -/
def stepsOf (work : ℕ → Work) (update : ℕ) : ℕ := (work update).steps

/-- Two launches before the same update, in states that make no difference. -/
def Beside (Same : S → S → Prop) (launch launch' : Launch S) : Prop :=
  launch.update = launch'.update ∧ Same launch.state launch'.state

/-- Side by side, an update is run with the same draws, seeds and coefficient. -/
theorem Resumable.next (h : policy.Resumable Same) (work : ℕ → Work) {launch launch' : Launch S}
    (hbeside : Beside Same launch launch') :
    Agree (fun x x' : Given × Launch S =>
        { x.1 with horizon := launch'.clock.horizon.steps } = x'.1 ∧
        Beside Same x.2 x'.2)
      (policy.next work launch) (policy.next work launch') := by
  obtain ⟨hupdate, hstate⟩ := hbeside
  unfold Policy.next
  rw [h.klCoefficient _ _ _ hstate, hupdate]
  refine (h.draw _ _ _ _ hstate).bind fun ⟨draws, state⟩ ⟨draws', state'⟩ ⟨hdraws, hsame⟩ => ?_
  obtain rfl : draws = draws' := hdraws
  exact .ok ⟨rfl, rfl, h.close _ _ _ hsame⟩

theorem Resumable.after (h : policy.Resumable Same) (work : ℕ → Work) {launch launch' : Launch S}
    (hbeside : Beside Same launch launch') (count : ℕ) :
    Agree (Beside Same) (policy.after work launch count) (policy.after work launch' count) := by
  induction count with
  | zero => exact .ok hbeside
  | succ count ih =>
    refine ih.bind fun reached reached' hreached => ?_
    exact (h.next work hreached).bind fun x x' hnext => .ok hnext.2

/-- What an update is run with, and what it leaves of the clock. -/
theorem next_spec {launch next : Launch S} {given : Given}
    (h : policy.next work launch = .ok (given, next)) :
    given.horizon = launch.clock.horizon.steps ∧ next.update = launch.update + 1 ∧
      next.clock = launch.clock.close (stepsOf work launch.update)
        (policy.updates - launch.update - 1) := by
  obtain ⟨⟨draws, state⟩, -, h⟩ := ok_of_bind h
  cases h
  exact ⟨rfl, rfl, rfl⟩

theorem after_spec {launch reached : Launch S} {count : ℕ}
    (h : policy.after work launch count = .ok reached) :
    reached.update = launch.update + count ∧
      reached.clock = Clock.after (stepsOf work) policy.updates launch.update launch.clock count := by
  induction count generalizing reached with
  | zero =>
    cases h
    exact ⟨rfl, rfl⟩
  | succ count ih =>
    obtain ⟨mid, hmid, h⟩ := ok_of_bind h
    obtain ⟨⟨given, next⟩, hnext, h⟩ := ok_of_bind h
    cases h
    obtain ⟨hupdate, hclock⟩ := ih hmid
    obtain ⟨-, hnext, hclose⟩ := next_spec hnext
    rw [hnext, hclose, hupdate, hclock]
    exact ⟨rfl, rfl⟩

theorem after_add (launch : Launch S) (count more : ℕ) :
    policy.after work launch (count + more) =
      policy.after work launch count >>= fun reached => policy.after work reached more := by
  induction more with
  | zero =>
    show policy.after work launch count = _
    cases policy.after work launch count <;> rfl
  | succ more ih =>
    show (policy.after work launch (count + more) >>= _) = _
    rw [ih]
    cases policy.after work launch count <;> rfl

/-- Where one launch is after some updates, others of it are earlier. -/
theorem after_of_le {launch last : Launch S} {count total : ℕ} (hle : count ≤ total)
    (h : policy.after work launch total = .ok last) :
    ∃ reached, policy.after work launch count = .ok reached := by
  obtain ⟨more, rfl⟩ := Nat.exists_eq_add_of_le hle
  rw [after_add] at h
  obtain ⟨reached, hreached, -⟩ := ok_of_bind h
  exact ⟨reached, hreached⟩

theorem given_of_lt {launch last : Launch S} {count total : ℕ} (hlt : count < total)
    (h : policy.after work launch total = .ok last) :
    ∃ reached given next, policy.after work launch count = .ok reached ∧
      policy.next work reached = .ok (given, next) := by
  obtain ⟨further, hfurther⟩ := after_of_le (Nat.succ_le_of_lt hlt) h
  obtain ⟨reached, hreached, hstep⟩ := ok_of_bind hfurther
  obtain ⟨⟨given, next⟩, hnext, -⟩ := ok_of_bind hstep
  exact ⟨reached, given, next, hreached, hnext⟩

theorem given_eq {launch reached next : Launch S} {count : ℕ} {given : Given}
    (hreached : policy.after work launch count = .ok reached)
    (hnext : policy.next work reached = .ok (given, next)) :
    policy.given work launch count = .ok given := by
  rw [Policy.given, hreached]
  show (policy.next work reached >>= _) = _
  rw [hnext]
  rfl

/-! ### The claim of a resumed run -/

variable (policy work)

/-- The horizons of a launch: within the nominal bound, no shorter than the warm-up, ahead of the
steps already taken, and what the run ends with where all updates cost the same. -/
def Bounded (launch : Launch S) : Prop :=
  ∀ count reached given next, launch.update + count < policy.updates →
    policy.after work launch count = .ok reached → policy.next work reached = .ok (given, next) →
    given.horizon ≤ policy.updates * policy.share ∧ policy.warmupSteps ≤ given.horizon ∧
      reached.clock.trainerStep < given.horizon ∧
      ((∀ update < policy.updates, stepsOf work update = stepsOf work 0) →
        given.horizon = spent (stepsOf work) policy.updates)

/-- A run that was stopped at a boundary and resumed from it. -/
structure Restarts (stop : ℕ) (first stopped again : Launch S) : Prop where
  launched : policy.launch none 0 = .ok first
  reached : policy.after work first stop = .ok stopped
  resumed : policy.launch (some (policy.emitted stopped)) stopped.clock.trainerStep = .ok again

/-- A resumed run follows the schedule its first launch started. -/
structure Follows (stop : ℕ) : Prop where
  /-- It is launched, and every later update is run with what the uninterrupted run gives it. -/
  resumes : ∀ first stopped, policy.launch none 0 = .ok first →
    policy.after work first stop = .ok stopped →
    ∃ again, policy.Restarts work stop first stopped again
  same : ∀ first stopped again, policy.Restarts work stop first stopped again →
    ∀ count, stop + count < policy.updates →
      policy.given work again count = policy.given work stopped count
  boundedFirst : ∀ first, policy.launch none 0 = .ok first → policy.Bounded work first
  boundedAgain : ∀ first stopped again, policy.Restarts work stop first stopped again →
    policy.Bounded work again

/-- The run goes through all its updates. -/
def Completes : Prop :=
  ∃ first last, policy.launch none 0 = .ok first ∧
    policy.after work first policy.updates = .ok last

/-- The costs for which starting the horizon over moves nothing: the warm-up is no longer than the
nominal count; updates that all cost the same cost their whole share; and, unless the warm-up is
the whole of it, every update before the boundary cost its share, and every later one finds either
that all of them did, or the same mean whether or not the stopped launch's updates are counted, or
a warm-up that covers the dearer price. -/
structure Unmoved (stop : ℕ) : Prop where
  warmup : policy.warmupSteps ≤ policy.updates * policy.share
  even : (∀ update < policy.updates, stepsOf work update = stepsOf work 0) →
    stepsOf work 0 = policy.share
  mean : policy.warmupSteps = policy.updates * policy.share ∨
    spent (stepsOf work) stop = stop * policy.share ∧
    ∀ count, stop < count → count < policy.updates →
      spent (stepsOf work) count = count * policy.share ∨
      divCeil (spent (stepsOf work) count) (count - stop) =
        divCeil (spent (stepsOf work) count) count ∨
      spent (stepsOf work) count +
        divCeil (spent (stepsOf work) count) (count - stop) * (policy.updates - count) ≤
          policy.warmupSteps

variable {policy work}

/-! ### The horizons of the two launches -/

section Horizons

variable {first stopped again reached next : Launch S} {given : Given} {stop count : ℕ}

/-- The horizon a launch gives after so many updates. -/
def horizonAt (policy : Policy S) (work : ℕ → Work) (start count : ℕ) : ℕ :=
  if count = 0 then max (policy.updates * policy.share) policy.warmupSteps
  else priced (stepsOf work) policy.updates (policy.updates * policy.share) policy.warmupSteps count
    (start + count)

theorem Resumable.first_spec (h : policy.Resumable Same) (work : ℕ → Work)
    (hfirst : policy.launch none 0 = .ok first) :
    first.update = 0 ∧ first.clock = .launch (policy.updates * policy.share) policy.warmupSteps
      (spent (stepsOf work) 0) ∧ policy.updates * policy.share ≤ usizeMax ∧
      Same first.state first.state := by
  obtain ⟨⟨total, state⟩, hstate, hlaunch⟩ := ok_of_bind hfirst
  cases hlaunch
  obtain ⟨rfl, hfits⟩ := h.total _ _ _ hstate
  exact ⟨rfl, rfl, hfits, h.starts _ _ hstate⟩

/-- What a launch from the start or from a boundary gives its updates. -/
theorem horizon_spec (h : policy.Resumable Same)
    (hshared : Shared (stepsOf work) policy.share)
    (hfits : policy.updates * policy.share ≤ usizeMax) {launch : Launch S} {start : ℕ}
    (hupdate : launch.update = start)
    (hclock : launch.clock = .launch (policy.updates * policy.share) policy.warmupSteps
      (spent (stepsOf work) start))
    (hcount : start + count < policy.updates)
    (hreached : policy.after work launch count = .ok reached)
    (hnext : policy.next work reached = .ok (given, next)) :
    given.horizon = policy.horizonAt work start count ∧
      reached.clock.trainerStep = spent (stepsOf work) (start + count) := by
  obtain ⟨-, hafter⟩ := after_spec hreached
  obtain ⟨hgiven, -, -⟩ := next_spec hnext
  rw [hupdate, hclock, Clock.after_steps hshared hfits h.fits hcount.le] at hafter
  rw [hgiven, hafter]
  exact ⟨rfl, rfl⟩

theorem Resumable.stopped_spec (h : policy.Resumable Same)
    (hshared : Shared (stepsOf work) policy.share) (hstop : stop < policy.updates)
    (hfirst : policy.launch none 0 = .ok first)
    (hstopped : policy.after work first stop = .ok stopped) :
    stopped.update = stop ∧ stopped.clock.trainerStep = spent (stepsOf work) stop ∧
      Same stopped.state stopped.state := by
  obtain ⟨hupdate, hclock, hfits, hsame⟩ := h.first_spec work hfirst
  obtain ⟨hreached, hafter⟩ := after_spec hstopped
  rw [hupdate, hclock, Clock.after_steps hshared hfits h.fits (by omega)] at hafter
  refine ⟨by omega, by rw [hafter, Nat.zero_add], ?_⟩
  have hself := h.after work (show Beside Same first first from ⟨rfl, hsame⟩) stop
  rw [hstopped] at hself
  obtain ⟨other, hother, -, hstate⟩ := hself.of_ok
  cases hother
  exact hstate

/-- A boundary can be resumed from, beside the run it was emitted by. -/
theorem Resumable.restart (h : policy.Resumable Same)
    (hshared : Shared (stepsOf work) policy.share) (hstop : stop < policy.updates)
    (hfirst : policy.launch none 0 = .ok first)
    (hstopped : policy.after work first stop = .ok stopped) :
    ∃ again, policy.Restarts work stop first stopped again ∧ Beside Same stopped again ∧
      again.clock = .launch (policy.updates * policy.share) policy.warmupSteps
        (spent (stepsOf work) stop) := by
  obtain ⟨hupdate, htrainer, hsame⟩ := h.stopped_spec hshared hstop hfirst hstopped
  obtain ⟨⟨total, state⟩, hstate, -⟩ := ok_of_bind hfirst
  obtain ⟨resumed, hresumed, hbeside⟩ :=
    h.resumes total state stopped.update stopped.state hstate hsame (hupdate ▸ hstop)
  have hagain : policy.launch (some (policy.emitted stopped)) stopped.clock.trainerStep =
      .ok ⟨stopped.update, .launch total policy.warmupSteps stopped.clock.trainerStep, resumed⟩ := by
    rw [Policy.launch, Policy.emitted, hresumed]
    show Except.ok _ = Except.ok _
    rw [map_some, getD_some, h.completed]
  refine ⟨⟨stopped.update, .launch total policy.warmupSteps stopped.clock.trainerStep, resumed⟩,
    ⟨hfirst, hstopped, hagain⟩, ⟨rfl, hbeside⟩, ?_⟩
  rw [htrainer, (h.total _ _ _ hstate).1]

end Horizons

/-! ### When the resumed run follows -/

section Follows

variable {stop : ℕ}

/-- The horizon bounds hold of every launch; what the run ends with only where no update is
cheaper than its share, since the first one is run before anything is measured. -/
theorem bounded_of (h : policy.Resumable Same) (hshared : Shared (stepsOf work) policy.share)
    (hfits : policy.updates * policy.share ≤ usizeMax)
    (hwarmup : policy.warmupSteps ≤ policy.updates * policy.share)
    (heven : (∀ update < policy.updates, stepsOf work update = stepsOf work 0) →
      stepsOf work 0 = policy.share)
    {launch : Launch S} {start : ℕ} (hupdate : launch.update = start)
    (hclock : launch.clock = .launch (policy.updates * policy.share) policy.warmupSteps
      (spent (stepsOf work) start)) : policy.Bounded work launch := by
  intro count reached given next hcount hreached hnext
  rw [hupdate] at hcount
  obtain ⟨hhorizon, htrainer⟩ := horizon_spec h hshared hfits hupdate hclock hcount hreached hnext
  have hbound : max (policy.updates * policy.share) policy.warmupSteps =
      policy.updates * policy.share := max_eq_left hwarmup
  rw [hhorizon, htrainer]
  unfold horizonAt
  split
  · refine ⟨hbound.le, le_max_right _ _, ?_, fun hsame => ?_⟩
    · rw [hbound]
      exact hshared.spent_lt hcount
    · rw [hbound, spent_of_forall hsame, heven hsame]
  · next hpos =>
    refine ⟨priced_le.trans hbound.le, le_priced, hshared.lt_priced hcount, fun hsame => ?_⟩
    have hfull (total : ℕ) (htotal : total ≤ policy.updates) :
        spent (stepsOf work) total = total * policy.share := by
      rw [spent_of_forall fun update hlt => hsame update (hlt.trans_le htotal), heven hsame]
    rw [hshared.priced_of_full (hfull _ hcount.le) (Nat.pos_of_ne_zero hpos) (by omega) hcount,
      hbound, hfull _ le_rfl]

/-- The two launches give an update one horizon where starting over moves nothing, and only
there. -/
theorem horizonAt_eq_iff (hshared : Shared (stepsOf work) policy.share) (hstop : 0 < stop)
    (hwarmup : policy.warmupSteps ≤ policy.updates * policy.share) (hlt : stop < policy.updates) :
    (∀ count, stop + count < policy.updates →
      policy.horizonAt work stop count = policy.horizonAt work 0 (stop + count)) ↔
    (policy.warmupSteps = policy.updates * policy.share ∨
      spent (stepsOf work) stop = stop * policy.share ∧
      ∀ count, stop < count → count < policy.updates →
        spent (stepsOf work) count = count * policy.share ∨
        divCeil (spent (stepsOf work) count) (count - stop) =
          divCeil (spent (stepsOf work) count) count ∨
        spent (stepsOf work) count +
          divCeil (spent (stepsOf work) count) (count - stop) * (policy.updates - count) ≤
            policy.warmupSteps) := by
  rcases hwarmup.eq_or_lt with hall | hless
  · -- the warm-up leaves no room: every horizon is the bound
    refine ⟨fun _ => .inl hall, fun _ count hcount => ?_⟩
    have hone (start n : ℕ) : policy.horizonAt work start n = policy.warmupSteps := by
      unfold horizonAt
      split
      · rw [← hall, max_self]
      · exact le_antisymm (priced_le.trans (by rw [← hall, max_self])) le_priced
    rw [hone, hone]
  · have hat (count : ℕ) (hpos : 0 < count) : policy.horizonAt work 0 count =
        priced (stepsOf work) policy.updates (policy.updates * policy.share) policy.warmupSteps
          count count := by
      rw [horizonAt, if_neg hpos.ne', Nat.zero_add]
    constructor
    · intro hsame
      refine .inr ⟨?_, fun count hlater hcount => ?_⟩
      · have hfirst := hsame 0 hlt
        rw [Nat.add_zero, hat stop hstop, horizonAt, if_pos rfl] at hfirst
        exact (hshared.priced_eq_bound_iff hless hstop hlt).mp hfirst.symm
      · obtain ⟨more, rfl⟩ := Nat.exists_eq_add_of_lt hlater
        have hnext := hsame (more + 1) hcount
        rw [hat _ (by omega), horizonAt, if_neg (Nat.succ_ne_zero more)] at hnext
        rw [show stop + more + 1 - stop = more + 1 by omega]
        exact (hshared.priced_eq_iff hless (Nat.succ_pos more) (by omega) hcount).mp hnext
    · rintro (hall | ⟨hfull, hlater⟩) count hcount
      · omega
      · rcases Nat.eq_zero_or_pos count with rfl | hpos
        · rw [Nat.add_zero, hat stop hstop, horizonAt, if_pos rfl]
          exact ((hshared.priced_eq_bound_iff hless hstop hlt).mpr hfull).symm
        · have hsame := hlater (stop + count) (by omega) hcount
          rw [show stop + count - stop = count by omega] at hsame
          rw [hat _ (by omega), horizonAt, if_neg hpos.ne']
          exact (hshared.priced_eq_iff hless hpos (by omega) hcount).mpr hsame

/-- The launches of a restart, and their clocks. -/
theorem Resumable.restarts_spec (h : policy.Resumable Same)
    (hshared : Shared (stepsOf work) policy.share) (hlt : stop < policy.updates)
    {first stopped again : Launch S} (hrestarts : policy.Restarts work stop first stopped again) :
    Beside Same stopped again ∧ again.update = stop ∧
      again.clock = .launch (policy.updates * policy.share) policy.warmupSteps
        (spent (stepsOf work) stop) ∧
      ∀ count, policy.after work stopped count = policy.after work first (stop + count) := by
  obtain ⟨other, hother, hbeside, hclock⟩ :=
    h.restart hshared hlt hrestarts.launched hrestarts.reached
  obtain rfl : again = other := Except.ok.inj (hrestarts.resumed.symm.trans hother.resumed)
  obtain ⟨hupdate, -, -⟩ := h.stopped_spec hshared hlt hrestarts.launched hrestarts.reached
  refine ⟨hbeside, hbeside.1.symm.trans hupdate, hclock, fun count => ?_⟩
  rw [after_add, hrestarts.reached]
  rfl

theorem Resumable.follows (h : policy.Resumable Same)
    (hshared : Shared (stepsOf work) policy.share) (hstop : 0 < stop) (hlt : stop < policy.updates)
    (hunmoved : policy.Unmoved work stop) : policy.Follows work stop where
  resumes first stopped hfirst hstopped := by
    obtain ⟨again, hagain, -⟩ := h.restart hshared hlt hfirst hstopped
    exact ⟨again, hagain⟩
  same first stopped again hrestarts count hcount := by
    obtain ⟨hupdate, hclock, hfits, -⟩ := h.first_spec work hrestarts.launched
    obtain ⟨hbeside, hupdate', hclock', hafter⟩ := h.restarts_spec hshared hlt hrestarts
    have hsame := (horizonAt_eq_iff hshared hstop hunmoved.warmup hlt).mpr hunmoved.mean count hcount
    unfold Policy.given
    cases hreached : policy.after work stopped count with
    | error e =>
      have hagree := h.after work hbeside count
      rw [hreached] at hagree
      cases hagree' : policy.after work again count with
      | error e' =>
        rw [hagree'] at hagree
        cases hagree
        rfl
      | ok reached' =>
        rw [hagree'] at hagree
        cases hagree
    | ok reached =>
      have hagree := h.after work hbeside count
      rw [hreached] at hagree
      obtain ⟨reached', hreached', hbeside'⟩ := hagree.of_ok
      rw [hreached']
      show (policy.next work reached' >>= _) = (policy.next work reached >>= _)
      have hnext := h.next work hbeside'
      cases hstep : policy.next work reached with
      | error e =>
        rw [hstep] at hnext
        cases hstep' : policy.next work reached' with
        | error e' =>
          rw [hstep'] at hnext
          cases hnext
          rfl
        | ok x' =>
          rw [hstep'] at hnext
          cases hnext
      | ok x =>
        rw [hstep] at hnext
        obtain ⟨x', hstep', hgiven, -⟩ := hnext.of_ok
        obtain ⟨given, next⟩ := x
        obtain ⟨given', next'⟩ := x'
        -- both clocks give one horizon
        have hold := (horizon_spec h hshared hfits hupdate hclock (by omega)
          ((hafter count).symm.trans hreached) hstep).1
        have hnew := (horizon_spec h hshared hfits hupdate' hclock' hcount hreached' hstep').1
        have hsteps : given.horizon = reached'.clock.horizon.steps := by
          rw [hold, ← hsame, ← hnew, (next_spec hstep').1]
        rw [hstep']
        show Except.ok given' = Except.ok given
        rw [← show _ = given' from hgiven, ← hsteps]
  boundedFirst first hfirst := by
    obtain ⟨hupdate, hclock, hfits, -⟩ := h.first_spec work hfirst
    exact bounded_of h hshared hfits hunmoved.warmup hunmoved.even hupdate hclock
  boundedAgain first stopped again hrestarts := by
    obtain ⟨-, -, hfits, -⟩ := h.first_spec work hrestarts.launched
    obtain ⟨-, hupdate, hclock, -⟩ := h.restarts_spec hshared hlt hrestarts
    exact bounded_of h hshared hfits hunmoved.warmup hunmoved.even hupdate hclock

theorem Resumable.unmoved (h : policy.Resumable Same)
    (hshared : Shared (stepsOf work) policy.share) (hstop : 0 < stop) (hlt : stop < policy.updates)
    (hcompletes : policy.Completes work) (hfollows : policy.Follows work stop) :
    policy.Unmoved work stop := by
  obtain ⟨first, last, hfirst, hlast⟩ := hcompletes
  obtain ⟨hupdate, hclock, hfits, -⟩ := h.first_spec work hfirst
  -- the very first update is run under the bound
  obtain ⟨reached, given, next, hreached, hnext⟩ := given_of_lt (hstop.trans hlt) hlast
  obtain ⟨hhorizon, -⟩ := horizon_spec h hshared hfits hupdate hclock (by omega) hreached hnext
  obtain ⟨hnominal, -, -, heven⟩ :=
    hfollows.boundedFirst first hfirst 0 reached given next (by omega) hreached hnext
  rw [hhorizon, horizonAt, if_pos rfl] at hnominal heven
  have hwarmup : policy.warmupSteps ≤ policy.updates * policy.share :=
    (le_max_right _ _).trans hnominal
  refine ⟨hwarmup, fun hsame => ?_, (horizonAt_eq_iff hshared hstop hwarmup hlt).mp ?_⟩
  · have hspent := heven hsame
    rw [max_eq_left hwarmup, spent_of_forall hsame] at hspent
    exact (Nat.eq_of_mul_eq_mul_left (hstop.trans hlt) hspent).symm
  · intro count hcount
    obtain ⟨stopped, hstopped⟩ := after_of_le hlt.le hlast
    obtain ⟨again, hrestarts⟩ := hfollows.resumes first stopped hfirst hstopped
    obtain ⟨-, hupdate', hclock', hafter⟩ := h.restarts_spec hshared hlt hrestarts
    obtain ⟨reached, given, next, hreached, hnext⟩ := given_of_lt hcount hlast
    obtain ⟨hold, -⟩ := horizon_spec h hshared hfits hupdate hclock (by omega) hreached hnext
    have hgiven := hfollows.same first stopped again hrestarts count hcount
    rw [given_eq ((hafter count).trans hreached) hnext] at hgiven
    obtain ⟨reached', hreached', hrest⟩ := ok_of_bind hgiven
    obtain ⟨⟨given', next'⟩, hnext', hsame⟩ := ok_of_bind hrest
    obtain rfl : given' = given := Except.ok.inj hsame
    obtain ⟨hnew, -⟩ := horizon_spec h hshared hfits hupdate' hclock' hcount hreached' hnext'
    exact hnew.symm.trans hold

end Follows

end Policy

/-! ### The three loops -/

theorem nominalSteps_ok {updates epochs rollouts stepsPerRow total : ℕ} {overflow : String}
    (h : nominalSteps updates epochs rollouts stepsPerRow overflow = .ok total) :
    total = updates * (epochs * rollouts * stepsPerRow) ∧ total ≤ usizeMax := by
  have hchecked {a b c : ℕ} (h : checkedMul a b = some c) : c = a * b ∧ c ≤ usizeMax := by
    unfold checkedMul at h
    split at h
    · next hle => cases h; exact ⟨rfl, hle⟩
    · cases h
  unfold nominalSteps at h
  split at h
  · next steps hsteps =>
    cases h
    obtain ⟨rows, hrows, hall⟩ := bind_eq_some_iff.mp hsteps
    obtain ⟨slots, hslots, hrows⟩ := bind_eq_some_iff.mp hrows
    obtain ⟨rfl, -⟩ := hchecked hslots
    obtain ⟨rfl, -⟩ := hchecked hrows
    obtain ⟨rfl, hfits⟩ := hchecked hall
    exact ⟨by simp only [Nat.mul_assoc], hfits⟩
  · cases h

/-- A boundary inside the run is not refused. -/
theorem refuseCompleted_of_lt {table : String} {boundary : Boundary} {updates : ℕ}
    (h : boundary.completedIterations < updates) :
    refuseCompleted table (some boundary) updates = .ok () :=
  if_neg (Nat.not_le.mpr h)

section Loops

variable (training : TrainConfig) (setup : Setup)

/-- Two GRPO states that make no difference: only the cached pass may differ. -/
structure GrpoState.Same (config : GrpoConfig) (setup : Setup) (state state' : GrpoState) : Prop where
  klMultiplier : state.klMultiplier = state'.klMultiplier
  promptCursor : state.promptCursor = state'.promptCursor
  left : state.promptDraws.Of config.promptOrder setup.prompts.length config.sampling.seed
  right : state'.promptDraws.Of config.promptOrder setup.prompts.length config.sampling.seed

/-- What a GRPO launch checks, whatever it starts from, and what it starts with. -/
theorem GrpoConfig.resumeState_spec {config : GrpoConfig} {resume : Option Boundary} {total : ℕ}
    {state : GrpoState} (h : config.resumeState training setup resume = .ok (total, state)) :
    total = config.updates * (config.policy training setup).share ∧ total ≤ usizeMax ∧
      state = {
        klMultiplier := (resume.bind Boundary.klMultiplier).getD 1
        promptCursor := (resume.map Boundary.cursor).getD 0
        promptDraws := .new config.promptOrder setup.prompts.length config.sampling.seed } ∧
      ∀ resume', refuseCompleted "grpo" resume' config.updates = .ok () →
        config.resumeState training setup resume' = .ok (total, {
          klMultiplier := (resume'.bind Boundary.klMultiplier).getD 1
          promptCursor := (resume'.map Boundary.cursor).getD 0
          promptDraws := .new config.promptOrder setup.prompts.length config.sampling.seed }) := by
  unfold GrpoConfig.resumeState at h ⊢
  obtain ⟨_, hvalid, h⟩ := ok_of_bind h
  obtain ⟨_, hcompleted, h⟩ := ok_of_bind h
  dsimp only at h
  split at h
  · cases h
  · next hwide =>
    split at h
    · cases h
    · next hoverflow =>
      obtain ⟨steps, hsteps, h⟩ := ok_of_bind h
      cases h
      obtain ⟨htotal, hfits⟩ := nominalSteps_ok hsteps
      refine ⟨htotal, hfits, rfl, fun resume' hresume => ?_⟩
      rw [hvalid, hresume, hsteps]
      simp only [if_neg hwide, if_neg hoverflow]
      rfl

theorem GrpoConfig.resumable (config : GrpoConfig) :
    (config.policy training setup).Resumable (GrpoState.Same config setup) where
  total resume total state h := by
    obtain ⟨htotal, hfits, -⟩ := GrpoConfig.resumeState_spec training setup h
    exact ⟨htotal, hfits⟩
  starts total state h := by
    obtain ⟨-, -, rfl, -⟩ := GrpoConfig.resumeState_spec training setup h
    exact ⟨rfl, rfl, PromptDraws.new_of _ _ _, PromptDraws.new_of _ _ _⟩
  resumes total first update state h hsame hlt := by
    obtain ⟨-, -, -, hagain⟩ := GrpoConfig.resumeState_spec training setup h
    exact ⟨_, hagain _ (refuseCompleted_of_lt hlt), rfl, rfl, hsame.left, PromptDraws.new_of _ _ _⟩
  completed _ _ := rfl
  draw update work state state' h := by
    unfold GrpoConfig.policy
    dsimp only
    rw [h.promptCursor]
    refine (drawGroups_agree setup _ _ h.left h.right _ _).bind
      fun ⟨draws, next⟩ ⟨draws', next'⟩ ⟨hdraws, hleft, hright⟩ => ?_
    obtain rfl : draws = draws' := hdraws
    exact .ok ⟨rfl, h.klMultiplier, rfl, hleft, hright⟩
  klCoefficient update state state' h := by
    show config.effectiveKl update state = config.effectiveKl update state'
    rw [GrpoConfig.effectiveKl, GrpoConfig.effectiveKl, h.klMultiplier]
  close work state state' h := by
    unfold GrpoConfig.policy
    dsimp only
    split
    · exact ⟨by rw [h.klMultiplier], h.promptCursor, h.left, h.right⟩
    · exact h
  fits := training.fits

theorem PpoConfig.resumeState_spec {config : PpoConfig} {resume : Option Boundary} {total : ℕ}
    {state : Unit} (h : config.resumeState setup resume = .ok (total, state)) :
    total = config.updates * (config.policy training setup).share ∧ total ≤ usizeMax ∧
      ∀ resume', refuseCompleted "ppo" resume' config.updates = .ok () →
        config.resumeState setup resume' = .ok (total, ()) := by
  unfold PpoConfig.resumeState at h ⊢
  obtain ⟨_, hcompleted, h⟩ := ok_of_bind h
  obtain ⟨steps, hsteps, h⟩ := ok_of_bind h
  cases h
  obtain ⟨htotal, hfits⟩ := nominalSteps_ok hsteps
  refine ⟨htotal, hfits, fun resume' hresume => ?_⟩
  rw [hresume, hsteps]
  rfl

theorem PpoConfig.resumable (config : PpoConfig) :
    (config.policy training setup).Resumable fun _ _ => True where
  total resume total state h := by
    obtain ⟨htotal, hfits, -⟩ := PpoConfig.resumeState_spec training setup h
    exact ⟨htotal, hfits⟩
  starts _ _ _ := trivial
  resumes total first update state h _ hlt := by
    obtain ⟨-, -, hagain⟩ := PpoConfig.resumeState_spec training setup h
    exact ⟨_, hagain _ (refuseCompleted_of_lt hlt), trivial⟩
  completed _ _ := rfl
  draw update work state state' _ := (Agree.refl _).bind fun _ _ h => h ▸ .ok ⟨rfl, trivial⟩
  klCoefficient _ _ _ _ := rfl
  close _ _ _ _ := trivial
  fits := training.fits

/-- Two distillation states that make no difference. -/
structure DistillState.Same (config : DistillConfig) (setup : Setup) (state state' : DistillState) :
    Prop where
  promptCursor : state.promptCursor = state'.promptCursor
  left : state.promptDraws.Of config.promptOrder setup.prompts.length config.sampling.seed
  right : state'.promptDraws.Of config.promptOrder setup.prompts.length config.sampling.seed

theorem DistillConfig.resumeState_spec {config : DistillConfig} {resume : Option Boundary}
    {total : ℕ} {state : DistillState}
    (h : config.resumeState training setup resume = .ok (total, state)) :
    total = config.updates * (config.policy training setup).share ∧ total ≤ usizeMax ∧
      state = {
        promptCursor := (resume.map Boundary.cursor).getD 0
        promptDraws := .new config.promptOrder setup.prompts.length config.sampling.seed } ∧
      ∀ resume', refuseCompleted "distill" resume' config.updates = .ok () →
        config.resumeState training setup resume' = .ok (total, {
          promptCursor := (resume'.map Boundary.cursor).getD 0
          promptDraws := .new config.promptOrder setup.prompts.length config.sampling.seed }) := by
  unfold DistillConfig.resumeState at h ⊢
  obtain ⟨_, hvalid, h⟩ := ok_of_bind h
  obtain ⟨_, hcompleted, h⟩ := ok_of_bind h
  dsimp only at h
  split at h
  · cases h
  · next hwide =>
    split at h
    · cases h
    · next hoverflow =>
      obtain ⟨steps, hsteps, h⟩ := ok_of_bind h
      cases h
      obtain ⟨htotal, hfits⟩ := nominalSteps_ok hsteps
      refine ⟨htotal, hfits, rfl, fun resume' hresume => ?_⟩
      rw [hvalid, hresume, hsteps]
      simp only [if_neg hwide, if_neg hoverflow]
      rfl

theorem DistillConfig.resumable (config : DistillConfig) :
    (config.policy training setup).Resumable (DistillState.Same config setup) where
  total resume total state h := by
    obtain ⟨htotal, hfits, -⟩ := DistillConfig.resumeState_spec training setup h
    exact ⟨htotal, hfits⟩
  starts total state h := by
    obtain ⟨-, -, rfl, -⟩ := DistillConfig.resumeState_spec training setup h
    exact ⟨rfl, PromptDraws.new_of _ _ _, PromptDraws.new_of _ _ _⟩
  resumes total first update state h hsame hlt := by
    obtain ⟨-, -, -, hagain⟩ := DistillConfig.resumeState_spec training setup h
    exact ⟨_, hagain _ (refuseCompleted_of_lt hlt), rfl, hsame.left, PromptDraws.new_of _ _ _⟩
  completed _ _ := rfl
  draw update work state state' h := by
    unfold DistillConfig.policy
    dsimp only
    rw [h.promptCursor]
    refine (drawGroups_agree setup _ _ h.left h.right _ _).bind
      fun ⟨draws, next⟩ ⟨draws', next'⟩ ⟨hdraws, hleft, hright⟩ => ?_
    obtain rfl : draws = draws' := hdraws
    exact .ok ⟨rfl, rfl, hleft, hright⟩
  klCoefficient _ _ _ _ := rfl
  close _ _ _ h := h
  fits := training.fits

end Loops

/-- For one loop stopped at one boundary: a resumed run follows its first launch where starting the
horizon over moves nothing, and, when the run goes through all its updates, only there. -/
def Policy.Decided {S : Type} (policy : Policy S) (work : ℕ → Work) (stop : ℕ) : Prop :=
  Shared (Policy.stepsOf work) policy.share → 0 < stop → stop < policy.updates →
    (policy.Unmoved work stop → policy.Follows work stop) ∧
      (policy.Completes work → (policy.Follows work stop ↔ policy.Unmoved work stop))

theorem Policy.Resumable.decided {S : Type} {policy : Policy S} {Same : S → S → Prop}
    (h : policy.Resumable Same) (work : ℕ → Work) (stop : ℕ) : policy.Decided work stop := by
  intro hshared hstop hlt
  have hfollows : policy.Unmoved work stop → policy.Follows work stop :=
    h.follows hshared hstop hlt
  exact ⟨hfollows, fun hcompletes => ⟨h.unmoved hshared hstop hlt hcompletes, hfollows⟩⟩

/-- **When a resumed policy run follows the schedule its first launch started**, for each of the
three loops, whatever its updates draw, measure and cost. -/
theorem resumed_iff (training : TrainConfig) (setup : Setup) (work : ℕ → Work) (stop : ℕ) :
    (∀ config : GrpoConfig, (config.policy training setup).Decided work stop) ∧
    (∀ config : PpoConfig, (config.policy training setup).Decided work stop) ∧
    (∀ config : DistillConfig, (config.policy training setup).Decided work stop) :=
  ⟨fun config => (config.resumable training setup).decided work stop,
    fun config => (config.resumable training setup).decided work stop,
    fun config => (config.resumable training setup).decided work stop⟩

/-! ### A run of three updates -/

/-- Three updates of two rollouts each. -/
def threeUpdates : PpoConfig where
  updates := 3
  rolloutBatchSize := 2
  ppoEpochs := 1
  klCoefficient := 0
  sampling := ⟨1, 1, 4, 7⟩

/-- One prompt, one optimizer step a row. -/
def onePrompt : Setup where
  layout := ⟨8, 8, 0, 8, 8, 1, .auto, 1, .lockstep, 1, 8⟩
  lossDenominator := 4
  judge := none
  prompts := [⟨[], "p", none⟩]
  promptRows := [[5]]
  generationConcurrency := 1

/-- Every row of every update is trained. -/
def fullUpdates (_ : ℕ) : Work := ⟨0, 2, by decide, 0⟩

/-- The first update skips one of its two rows. -/
def shortFirst (update : ℕ) : Work :=
  if update = 0 then ⟨0, 1, by decide, 0⟩ else fullUpdates update

/-- The three updates without a warm-up. -/
def threeUpdatesPolicy : Policy Unit := threeUpdates.policy ⟨0, 1, by decide⟩ onePrompt

theorem resumed_iff_full : threeUpdatesPolicy.Follows fullUpdates 1 := by
  have hdecided := (resumed_iff ⟨0, 1, by decide⟩ onePrompt fullUpdates 1).2.1 threeUpdates
  refine (hdecided (fun _ => ⟨Nat.two_pos, le_rfl⟩) (by decide) (by decide)).1 ?_
  have hspent (count : ℕ) : spent (Policy.stepsOf fullUpdates) count = count * 2 :=
    spent_of_forall fun _ _ => rfl
  exact ⟨by decide, fun _ => rfl, .inr ⟨hspent 1, fun count _ _ => .inl (hspent count)⟩⟩

/-- Stopped after its short first update, the run is resumed under the nominal horizon; its first
launch had come down to half of it. -/
theorem shortFirst_horizons : ∃ first stopped again given given',
    threeUpdatesPolicy.Restarts shortFirst 1 first stopped again ∧
      threeUpdatesPolicy.given shortFirst stopped 0 = .ok given ∧ given.horizon = 3 ∧
      threeUpdatesPolicy.given shortFirst again 0 = .ok given' ∧ given'.horizon = 6 :=
  ⟨_, _, _, _, _, ⟨rfl, rfl, rfl⟩, rfl, by decide, rfl, by decide⟩

theorem resumed_moves :
    Shared (Policy.stepsOf shortFirst) threeUpdatesPolicy.share ∧
      threeUpdatesPolicy.Completes shortFirst ∧ ¬ threeUpdatesPolicy.Follows shortFirst 1 := by
  refine ⟨fun update => ?_, ⟨_, _, rfl, rfl⟩, fun hfollows => ?_⟩
  · unfold Policy.stepsOf shortFirst
    split
    · decide
    · exact ⟨Nat.two_pos, le_rfl⟩
  · obtain ⟨first, stopped, again, given, given', hrestarts, hgiven, hold, hgiven', hnew⟩ :=
      shortFirst_horizons
    have hsame := hfollows.same first stopped again hrestarts 0 (by decide)
    rw [hgiven, hgiven'] at hsame
    cases hsame
    omega

end Retrograd.Training
