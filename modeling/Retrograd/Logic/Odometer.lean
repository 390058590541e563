import Mathlib.Data.List.Nodup
import Mathlib.Tactic.Ring
import Mathlib.Tactic.Linarith

/-!
# An odometer

A search over all index vectors below given sizes that carries its digits by hand. One tick takes
the number of **ticks that are left** down by one, so a walk from the zero index visits every index
once unless it finds one it does not accept.
-/

namespace Retrograd.Logic

open List Option

/-- The next index, the first digit running fastest: none when every digit wrapped. -/
def tick : List ℕ → List ℕ → Option (List ℕ)
  | size :: sizes, digit :: index =>
    if digit + 1 < size then some ((digit + 1) :: index)
    else (tick sizes index).map fun index => 0 :: index
  | _, _ => none

/-- How many ticks are left. -/
def ticksLeft : List ℕ → List ℕ → ℕ
  | size :: sizes, digit :: index => (size - 1 - digit) + max size 1 * ticksLeft sizes index
  | _, _ => 0

/-- Every digit is below its size. -/
def InRange (sizes index : List ℕ) : Prop := List.Forall₂ (fun digit size => digit < size) index sizes

variable {sizes index next other : List ℕ}

theorem ticksLeft_tick (h : tick sizes index = some next) :
    ticksLeft sizes next < ticksLeft sizes index := by
  induction sizes, index using tick.induct generalizing next with
  | case1 size sizes digit index hlt =>
    rw [tick, if_pos hlt, some.injEq] at h
    rw [← h, ticksLeft, ticksLeft]
    omega
  | case2 size sizes digit index hge ih =>
    rw [tick, if_neg hge] at h
    obtain ⟨rest, hrest, rfl⟩ := map_eq_some_iff.mp h
    rw [ticksLeft, ticksLeft]
    -- a carry pays for the digits it winds back
    have hcarry : max size 1 * (ticksLeft sizes rest + 1) ≤ max size 1 * ticksLeft sizes index :=
      Nat.mul_le_mul_left _ (ih hrest)
    rw [Nat.mul_succ] at hcarry
    omega
  | case3 sizes index hshape =>
    rw [tick] at h
    · cases h
    · exact hshape

theorem InRange.tick (h : InRange sizes index) (htick : tick sizes index = some next) :
    InRange sizes next ∧ ticksLeft sizes index = ticksLeft sizes next + 1 := by
  induction h generalizing next with
  | nil => cases htick
  | @cons digit size index sizes hdigit hrest ih =>
    rw [Logic.tick] at htick
    split_ifs at htick with hlt
    · rw [some.injEq] at htick
      rw [← htick, ticksLeft, ticksLeft]
      exact ⟨.cons hlt hrest, by omega⟩
    · obtain ⟨rest, hnext, rfl⟩ := map_eq_some_iff.mp htick
      obtain ⟨hrange, hleft⟩ := ih hnext
      rw [ticksLeft, ticksLeft, hleft, Nat.mul_succ]
      exact ⟨.cons (Nat.zero_lt_of_lt hdigit) hrange, by omega⟩

theorem InRange.ticksLeft_of_none (h : InRange sizes index) (htick : Logic.tick sizes index = none) :
    ticksLeft sizes index = 0 := by
  induction h with
  | nil => rfl
  | @cons digit size index sizes hdigit _ ih =>
    rw [Logic.tick] at htick
    split_ifs at htick with hlt
    rw [ticksLeft, ih (map_eq_none_iff.mp htick)]
    omega

/-- An index is known by the ticks it has left. -/
theorem InRange.eq_of_ticksLeft (h : InRange sizes index) (hother : InRange sizes other)
    (hleft : ticksLeft sizes index = ticksLeft sizes other) : index = other := by
  induction h generalizing other with
  | nil => cases hother; rfl
  | @cons digit size index sizes hdigit _ ih =>
    obtain _ | ⟨hdigit', hother⟩ := hother
    rename_i digit' other
    rw [ticksLeft, ticksLeft] at hleft
    have hmod := congrArg (· % max size 1) hleft
    have hdiv := congrArg (· / max size 1) hleft
    have hsize : max size 1 = size := by omega
    simp only [hsize, Nat.add_mul_mod_self_left] at hmod
    simp only [hsize, Nat.add_mul_div_left _ _ (Nat.zero_lt_of_lt hdigit)] at hdiv
    rw [Nat.div_eq_of_lt (by omega), Nat.div_eq_of_lt (by omega), Nat.zero_add, Nat.zero_add]
      at hdiv
    rw [Nat.mod_eq_of_lt (by omega), Nat.mod_eq_of_lt (by omega)] at hmod
    rw [ih hother hdiv, show digit = digit' by omega]

theorem InRange.ticksLeft_le (h : InRange sizes index) :
    ticksLeft sizes index ≤ ticksLeft sizes (List.replicate sizes.length 0) := by
  induction h with
  | nil => exact le_rfl
  | @cons digit size index sizes _ _ ih =>
    rw [length_cons, replicate_succ, ticksLeft, ticksLeft]
    have hrest := Nat.mul_le_mul_left (max size 1) ih
    omega

/-- Looks at one index after the other as long as each is accepted: the indices it looked at, and
whether it accepted all of them. -/
def walk (sizes : List ℕ) (accept : List ℕ → Bool) (index : List ℕ) : List (List ℕ) × Bool :=
  if accept index then
    match _htick : tick sizes index with
    | none => ([index], true)
    | some next =>
      let rest := walk sizes accept next
      (index :: rest.1, rest.2)
  else ([index], false)
termination_by ticksLeft sizes index
decreasing_by exact ticksLeft_tick _htick

/-- What a walk has looked at. -/
structure Walked (sizes : List ℕ) (accept : List ℕ → Bool) (index : List ℕ)
    (result : List (List ℕ) × Bool) : Prop where
  inRange : ∀ seen ∈ result.1, InRange sizes seen
  falling : result.1.Pairwise fun a b => ticksLeft sizes b < ticksLeft sizes a
  from_index : ∀ seen ∈ result.1, ticksLeft sizes seen ≤ ticksLeft sizes index
  all : result.2 = true → ∀ other, InRange sizes other → ticksLeft sizes other ≤ ticksLeft sizes index →
    other ∈ result.1
  accepted : result.2 = true → ∀ seen ∈ result.1, accept seen
  refused : result.2 = false → ∃ seen ∈ result.1, accept seen = false

theorem walk_spec (accept : List ℕ → Bool) (h : InRange sizes index) :
    Walked sizes accept index (walk sizes accept index) := by
  induction index using walk.induct sizes accept with
  | case1 index haccept htick =>
    have hzero := h.ticksLeft_of_none htick
    rw [walk, if_pos haccept]
    split
    · refine ⟨?_, pairwise_singleton _ _, ?_, fun _ other hother hle => ?_, ?_, ?_⟩
      · simpa using h
      · simp
      · rw [mem_singleton]
        exact hother.eq_of_ticksLeft h (by omega)
      · simpa using haccept
      · simp
    · next hnext => rw [htick] at hnext; cases hnext
  | case2 index haccept next htick ih =>
    obtain ⟨hnext, hleft⟩ := h.tick htick
    have hrest := ih hnext
    rw [walk, if_pos haccept]
    split
    · next hnone => rw [htick] at hnone; cases hnone
    · next next' hsome =>
      obtain rfl : next = next' := some.inj (htick.symm.trans hsome)
      refine ⟨?_, pairwise_cons.mpr ⟨fun seen hseen => ?_, hrest.falling⟩, ?_,
        fun hall other hother hle => ?_, fun hall => ?_, fun hsome => ?_⟩
      · exact forall_mem_cons.mpr ⟨h, hrest.inRange⟩
      · have hseen := hrest.from_index seen hseen
        omega
      · refine forall_mem_cons.mpr ⟨le_rfl, fun seen hseen => ?_⟩
        have hseen := hrest.from_index seen hseen
        omega
      · rcases Nat.lt_or_ge (ticksLeft sizes other) (ticksLeft sizes index) with hlt | hge
        · exact .tail _ (hrest.all hall other hother (by omega))
        · exact hother.eq_of_ticksLeft h (Nat.le_antisymm hle hge) ▸ .head _
      · exact forall_mem_cons.mpr ⟨haccept, hrest.accepted hall⟩
      · obtain ⟨seen, hseen, hrefused⟩ := hrest.refused hsome
        exact ⟨seen, .tail _ hseen, hrefused⟩
  | case3 index hrefuse =>
    rw [walk, if_neg hrefuse]
    refine ⟨?_, pairwise_singleton _ _, ?_, fun hall => ?_, fun hall => ?_, fun _ => ?_⟩
    · simpa using h
    · simp
    · cases hall
    · cases hall
    · exact ⟨index, .head _, Bool.eq_false_iff.mpr hrefuse⟩

/-- **A walk from zero looks at no index twice**, and accepts only after it has looked at all. -/
theorem walk_zero (accept : List ℕ → Bool) (hsizes : ∀ size ∈ sizes, 0 < size) :
    (walk sizes accept (List.replicate sizes.length 0)).1.Nodup ∧
    (∀ seen ∈ (walk sizes accept (List.replicate sizes.length 0)).1, InRange sizes seen) ∧
    ((walk sizes accept (List.replicate sizes.length 0)).2 = true →
      ∀ index, InRange sizes index →
        index ∈ (walk sizes accept (List.replicate sizes.length 0)).1) ∧
    ((walk sizes accept (List.replicate sizes.length 0)).2 = true ↔
      ∀ index, InRange sizes index → accept index = true) := by
  have hzero : InRange sizes (List.replicate sizes.length 0) := by
    induction sizes with
    | nil => exact .nil
    | cons size sizes ih =>
      exact .cons (hsizes _ (.head _)) (ih fun size hsize => hsizes _ (.tail _ hsize))
  have hwalk := walk_spec accept hzero
  refine ⟨hwalk.falling.imp fun hlt heq => ?_, hwalk.inRange, fun hall index hindex =>
    hwalk.all hall index hindex hindex.ticksLeft_le, fun hall index hindex => ?_, fun haccept => ?_⟩
  · rw [heq] at hlt
    exact absurd hlt (lt_irrefl _)
  · exact hwalk.accepted hall index (hwalk.all hall index hindex hindex.ticksLeft_le)
  · by_contra hnot
    obtain ⟨seen, hseen, hrefused⟩ := hwalk.refused (Bool.eq_false_iff.mpr hnot)
    rw [haccept seen (hwalk.inRange seen hseen)] at hrefused
    cases hrefused

end Retrograd.Logic
