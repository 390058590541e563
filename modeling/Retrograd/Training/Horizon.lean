import Retrograd.Training.Config

/-!
# The learning-rate horizon

How many optimizer steps a schedule is spread over. It starts at the nominal count, one share for
every update, and each finished update prices the remaining ones at the running mean of the steps
measured so far (`SchedulerHorizon.observe`). What it is after any number of updates is a closed
form in the steps taken and the number of updates measured (`Clock.after_steps`): **a launch that
resumes measures all the steps of the checkpoint as those of its first update**.
-/

namespace Retrograd.Training

/-- `u64::saturating_add`. -/
def saturatingAdd (a b : ℕ) : ℕ := min (a + b) usizeMax

/-- `u64::div_ceil`. -/
def divCeil (a b : ℕ) : ℕ := (a + b - 1) / b

structure SchedulerHorizon where
  horizon : ℕ
  upperBound : ℕ
  floor : ℕ
  measuredSteps : ℕ
  measuredUpdates : ℕ

namespace SchedulerHorizon

/-- The floor is the warm-up length: the runtime refuses a horizon shorter than it. -/
def new (upperBound floor : ℕ) : SchedulerHorizon :=
  ⟨max upperBound floor, max upperBound floor, floor, 0, 0⟩

def steps (h : SchedulerHorizon) : ℕ := h.horizon

/-- Records one finished update and prices the remaining ones on the mean cost so far. -/
def observe (h : SchedulerHorizon) (stepsTaken remainingUpdates globalStep : ℕ) :
    SchedulerHorizon :=
  let measuredSteps := saturatingAdd h.measuredSteps stepsTaken
  let measuredUpdates := h.measuredUpdates + 1
  let perUpdate := divCeil measuredSteps measuredUpdates
  { h with
    measuredSteps
    measuredUpdates
    horizon := min (max (max (saturatingAdd globalStep (saturatingMul perUpdate remainingUpdates))
      (saturatingAdd globalStep 1)) h.floor) h.upperBound }

end SchedulerHorizon

/-- The two step counters of a launch beside its horizon. -/
structure Clock where
  horizon : SchedulerHorizon
  /-- The step of the last metrics the launch received, zero before any. -/
  metricsStep : ℕ
  /-- The trainer's own counter, which a checkpoint restores. -/
  trainerStep : ℕ

def Clock.launch (nominal warmup trainerStep : ℕ) : Clock := ⟨.new nominal warmup, 0, trainerStep⟩

/-- An update of this many steps is finished. -/
def Clock.close (clock : Clock) (steps remainingUpdates : ℕ) : Clock :=
  let trainerStep := clock.trainerStep + steps
  { horizon := clock.horizon.observe (trainerStep - clock.metricsStep) remainingUpdates trainerStep
    metricsStep := trainerStep
    trainerStep }

/-! ### Rounding -/

theorem divCeil_le_iff {a b c : ℕ} (hb : 0 < b) : divCeil a b ≤ c ↔ a ≤ c * b := by
  unfold divCeil
  rw [Nat.div_le_iff_le_mul_add_pred hb, Nat.mul_comm]
  omega

theorem le_divCeil_mul (a : ℕ) {b : ℕ} (hb : 0 < b) : a ≤ divCeil a b * b :=
  (divCeil_le_iff hb).mp le_rfl

theorem divCeil_pos {a b : ℕ} (ha : 0 < a) (hb : 0 < b) : 0 < divCeil a b := by
  by_contra h
  have := le_divCeil_mul a hb
  rw [Nat.eq_zero_of_not_pos h, Nat.zero_mul] at this
  omega

theorem divCeil_mul_self (a : ℕ) {b : ℕ} (hb : 0 < b) : divCeil (b * a) b = a :=
  le_antisymm ((divCeil_le_iff hb).mpr (Nat.mul_comm b a).le) (by
    have := le_divCeil_mul (b * a) hb
    exact Nat.le_of_mul_le_mul_left (by rwa [Nat.mul_comm b (divCeil _ _)]) hb)

/-- A longer count never rounds to less. -/
theorem divCeil_anti (a : ℕ) {b b' : ℕ} (hb : 0 < b) (h : b ≤ b') : divCeil a b' ≤ divCeil a b :=
  (divCeil_le_iff (hb.trans_le h)).mpr ((le_divCeil_mul a hb).trans (Nat.mul_le_mul_left _ h))

/-! ### Saturation -/

theorem saturatingAdd_of_le {a b : ℕ} (h : a + b ≤ usizeMax) : saturatingAdd a b = a + b :=
  min_eq_left h

/-- Saturating does not show through a bound that fits. -/
theorem clamp_saturating (a b c floor : ℕ) {bound : ℕ} (h : bound ≤ usizeMax) :
    min (max (max (saturatingAdd a (saturatingMul b c)) (saturatingAdd a 1)) floor) bound =
      min (max (max (a + b * c) (a + 1)) floor) bound := by
  unfold saturatingAdd saturatingMul
  generalize usizeMax = limit at h
  generalize b * c = product
  omega

/-! ### Many updates -/

section Spent

variable (steps : ℕ → ℕ)

/-- The steps of the first updates. -/
def spent (count : ℕ) : ℕ := ∑ update ∈ Finset.range count, steps update

/-- The horizon after `count` updates of which the last `measured` were measured. -/
def priced (updates nominal warmup measured count : ℕ) : ℕ :=
  min (max (max (spent steps count + divCeil (spent steps count) measured * (updates - count))
    (spent steps count + 1)) warmup) (max nominal warmup)

/-- The clock of a launch at update `start`, some updates later. -/
def Clock.after (updates start : ℕ) (clock : Clock) : ℕ → Clock
  | 0 => clock
  | count + 1 =>
    (Clock.after updates start clock count).close (steps (start + count))
      (updates - (start + count) - 1)

variable {steps} {updates share warmup start : ℕ}

@[simp] theorem spent_zero : spent steps 0 = 0 := rfl

theorem spent_succ (count : ℕ) : spent steps (count + 1) = spent steps count + steps count :=
  Finset.sum_range_succ steps count

/-- No update costs more than its share. -/
def Shared (steps : ℕ → ℕ) (share : ℕ) : Prop := ∀ update, 0 < steps update ∧ steps update ≤ share

theorem Shared.spent_le (h : Shared steps share) (count : ℕ) : spent steps count ≤ count * share := by
  induction count with
  | zero => simp
  | succ count ih =>
    rw [spent_succ, Nat.succ_mul]
    exact Nat.add_le_add ih (h count).2

theorem Shared.spent_pos (h : Shared steps share) {count : ℕ} (hcount : 0 < count) :
    0 < spent steps count := by
  obtain ⟨count, rfl⟩ := Nat.exists_eq_succ_of_ne_zero hcount.ne'
  rw [Nat.succ_eq_add_one, spent_succ]
  have := (h count).1
  omega

theorem spent_of_forall {count cost : ℕ} (h : ∀ update < count, steps update = cost) :
    spent steps count = count * cost := by
  induction count with
  | zero => simp
  | succ count ih =>
    rw [spent_succ, ih fun update hupdate => h update (by omega), h count (Nat.lt_succ_self _),
      Nat.succ_mul]

/-- What a launch has measured: the updates it ran, and all the steps the trainer counts. -/
theorem Clock.after_steps (h : Shared steps share) (hfits : updates * share ≤ usizeMax)
    (hwarmup : warmup ≤ usizeMax) {count : ℕ} (hcount : start + count ≤ updates) :
    Clock.after steps updates start
        (.launch (updates * share) warmup (spent steps start)) count =
      { horizon := {
          horizon := if count = 0 then max (updates * share) warmup
            else priced steps updates (updates * share) warmup count (start + count)
          upperBound := max (updates * share) warmup
          floor := warmup
          measuredSteps := if count = 0 then 0 else spent steps (start + count)
          measuredUpdates := count }
        metricsStep := if count = 0 then 0 else spent steps (start + count)
        trainerStep := spent steps (start + count) } := by
  induction count with
  | zero => rfl
  | succ count ih =>
    rw [Clock.after, ih (by omega)]
    have hspent : spent steps (start + count) + steps (start + count) =
        spent steps (start + (count + 1)) := (spent_succ _).symm
    have hle : spent steps (start + (count + 1)) ≤ usizeMax :=
      ((h.spent_le _).trans (Nat.mul_le_mul_right _ hcount)).trans hfits
    have hbound : max (updates * share) warmup ≤ usizeMax := max_le hfits hwarmup
    -- the first update of a launch is measured from zero, the others from the one before
    have hmeasured : saturatingAdd (if count = 0 then 0 else spent steps (start + count))
        (spent steps (start + (count + 1)) - if count = 0 then 0 else spent steps (start + count)) =
        spent steps (start + (count + 1)) := by
      split
      · exact saturatingAdd_of_le (by omega) |>.trans (by omega)
      · rw [saturatingAdd_of_le (by omega)]
        omega
    simp only [Clock.close, SchedulerHorizon.observe, hspent, hmeasured, Nat.succ_ne_zero, if_false,
      priced]
    have hremaining : updates - (start + count) - 1 = updates - (start + (count + 1)) := by omega
    rw [hremaining, clamp_saturating _ _ _ _ hbound]

/-! ### Where a price can be -/

variable {measured count : ℕ}

theorem priced_le : priced steps updates (updates * share) warmup measured count ≤
    max (updates * share) warmup :=
  min_le_right _ _

theorem le_priced : warmup ≤ priced steps updates (updates * share) warmup measured count :=
  le_min (le_max_right _ _) (le_max_right _ _)

/-- While updates remain, their steps are not all taken. -/
theorem Shared.spent_lt (h : Shared steps share) (hcount : count < updates) :
    spent steps count < updates * share := by
  have hshare : 0 < share := (h 0).1.trans_le (h 0).2
  exact (h.spent_le count).trans_lt (Nat.mul_lt_mul_of_pos_right hcount hshare)

theorem Shared.lt_priced (h : Shared steps share) (hcount : count < updates) :
    spent steps count < priced steps updates (updates * share) warmup measured count := by
  have hlt := h.spent_lt hcount
  unfold priced
  omega

/-- The share of the updates that remain. -/
theorem share_split (hcount : count ≤ updates) :
    count * share + share * (updates - count) = updates * share := by
  rw [Nat.mul_comm share, ← Nat.add_mul, Nat.add_sub_cancel' hcount]

/-- Where every update so far cost its whole share, the price is the bound. -/
theorem Shared.priced_of_full (h : Shared steps share) (hfull : spent steps count = count * share)
    (hmeasured : 0 < measured) (hle : measured ≤ count) (hcount : count < updates) :
    priced steps updates (updates * share) warmup measured count = max (updates * share) warmup := by
  have hcost : share ≤ divCeil (spent steps count) measured :=
    calc share = divCeil (spent steps count) count := by
          rw [hfull, divCeil_mul_self share (hmeasured.trans_le hle)]
      _ ≤ divCeil (spent steps count) measured := divCeil_anti _ hmeasured hle
  have hprice : updates * share ≤
      spent steps count + divCeil (spent steps count) measured * (updates - count) := by
    rw [hfull, ← share_split hcount.le]
    rw [hfull] at hcost
    exact Nat.add_le_add_left (Nat.mul_le_mul_right _ hcost) _
  have hlt := h.spent_lt hcount
  unfold priced
  omega

/-- And only there, unless the warm-up is the bound. -/
theorem Shared.price_lt (h : Shared steps share) (hfull : spent steps count ≠ count * share)
    (hpos : 0 < count) (hcount : count < updates) :
    spent steps count + divCeil (spent steps count) count * (updates - count) <
      updates * share := by
  have hle := h.spent_le count
  have hcost : divCeil (spent steps count) count ≤ share :=
    (divCeil_le_iff hpos).mpr (by rwa [Nat.mul_comm])
  have hrest := Nat.mul_le_mul_right (updates - count) hcost
  have hsplit := @share_split updates share count hcount.le
  omega

theorem Shared.priced_eq_bound_iff (h : Shared steps share) (hwarmup : warmup < updates * share)
    (hpos : 0 < count) (hcount : count < updates) :
    priced steps updates (updates * share) warmup count count = max (updates * share) warmup ↔
      spent steps count = count * share := by
  refine ⟨fun hprice => ?_, fun hfull => h.priced_of_full hfull hpos le_rfl hcount⟩
  by_contra hfull
  have hlt := h.price_lt hfull hpos hcount
  have hremain : 0 < divCeil (spent steps count) count * (updates - count) :=
    Nat.mul_pos (divCeil_pos (h.spent_pos hpos) hpos) (by omega)
  unfold priced at hprice
  omega

/-- When a launch that measured fewer updates prices the rest alike. -/
theorem Shared.priced_eq_iff (h : Shared steps share) (hwarmup : warmup < updates * share)
    (hmeasured : 0 < measured) (hle : measured ≤ count) (hcount : count < updates) :
    priced steps updates (updates * share) warmup measured count =
        priced steps updates (updates * share) warmup count count ↔
      spent steps count = count * share ∨
      divCeil (spent steps count) measured = divCeil (spent steps count) count ∨
      spent steps count + divCeil (spent steps count) measured * (updates - count) ≤ warmup := by
  have hpos := hmeasured.trans_le hle
  constructor
  · intro hsame
    by_contra hnone
    push Not at hnone
    obtain ⟨hfull, hmean, hfloor⟩ := hnone
    have hlt := h.price_lt hfull hpos hcount
    have hmore : divCeil (spent steps count) count < divCeil (spent steps count) measured :=
      lt_of_le_of_ne (divCeil_anti _ hmeasured hle) (Ne.symm hmean)
    have hdearer := Nat.mul_lt_mul_of_pos_right hmore (by omega : 0 < updates - count)
    have hremain : 0 < divCeil (spent steps count) count * (updates - count) :=
      Nat.mul_pos (divCeil_pos (h.spent_pos hpos) hpos) (by omega)
    unfold priced at hsame
    omega
  · rintro (hfull | hmean | hfloor)
    · rw [h.priced_of_full hfull hmeasured hle hcount, h.priced_of_full hfull hpos le_rfl hcount]
    · simp only [priced, hmean]
    · have hcheaper := Nat.mul_le_mul_right (updates - count)
        (divCeil_anti (spent steps count) hmeasured hle)
      have hremain : 0 < divCeil (spent steps count) measured * (updates - count) :=
        Nat.mul_pos (divCeil_pos (h.spent_pos hpos) hmeasured) (by omega)
      unfold priced
      omega

end Spent

end Retrograd.Training
