import Retrograd.Agent.Lockstep

/-!
# Batches of member updates

The lockstep loop walks lists of `(member, value)` entries and updates one member for each.
Every such list names a member at most once, so a walk is **one update per member**: what
happens to a member depends on its own entry alone (`modifyAll_getElem?`, `updateAll_getElem?`),
and the members that go on are listed with what their own update said (`updateAll_going`).
-/

namespace Retrograd.Agent

open List Option

/-- The value entered for a member. -/
def entryOf {β : Type} (entries : List (ℕ × β)) (j : ℕ) : Option β :=
  (entries.find? fun entry => entry.1 = j).map Prod.snd

section Entries

variable {β γ : Type} {entries : List (ℕ × β)} {states : List RolloutState} {j : ℕ}

theorem entryOf_cons (entry : ℕ × β) :
    entryOf (entry :: entries) j = if entry.1 = j then some entry.2 else entryOf entries j := by
  unfold entryOf
  by_cases h : entry.1 = j <;> simp [h]

theorem entryOf_eq_none (h : j ∉ entries.map Prod.fst) : entryOf entries j = none := by
  rw [entryOf, map_eq_none_iff, find?_eq_none]
  intro entry hentry hj
  exact h (List.mem_map.mpr ⟨entry, hentry, by simpa using hj⟩)

theorem entryOf_eq_some (hnodup : (entries.map Prod.fst).Nodup) {b : β} :
    entryOf entries j = some b ↔ (j, b) ∈ entries := by
  induction entries with
  | nil => simp [entryOf]
  | cons entry rest ih =>
    obtain ⟨i, c⟩ := entry
    rw [map_cons, nodup_cons] at hnodup
    rw [entryOf_cons, mem_cons]
    by_cases h : i = j
    · subst h
      have hnot : (i, b) ∉ rest := fun hmem => hnodup.1 (List.mem_map.mpr ⟨_, hmem, rfl⟩)
      simp [hnot, eq_comm]
    · simp [h, ih hnodup.2, Ne.symm h]

/-- A walk that only updates does so once for each member it names. -/
theorem modifyAll_getElem? {update : RolloutState → β → RolloutState}
    (hnodup : (entries.map Prod.fst).Nodup) :
    (modifyAll update states entries)[j]? =
      states[j]?.map fun state =>
        match entryOf entries j with
        | some b => update state b
        | none => state := by
  induction entries generalizing states with
  | nil => simp [modifyAll, entryOf]
  | cons entry rest ih =>
    rw [map_cons, nodup_cons] at hnodup
    have hstep : modifyAll update states (entry :: rest) =
        modifyAll update (states.modify entry.1 fun state => update state entry.2) rest := rfl
    rw [hstep, ih hnodup.2, entryOf_cons, getElem?_modify]
    by_cases h : entry.1 = j
    · subst h
      rw [entryOf_eq_none hnodup.1]
      cases states[entry.1]? <;> simp
    · cases states[j]? <;> simp [h]

@[simp] theorem modifyAll_length {update : RolloutState → β → RolloutState} :
    (modifyAll update states entries).length = states.length := by
  induction entries generalizing states with
  | nil => rfl
  | cons entry rest ih =>
    exact (@ih (states.modify entry.1 fun state => update state entry.2)).trans
      (length_modify ..)

variable {update : RolloutState → β → RolloutState × Option γ}

private theorem foldl_updateOne (going : List (ℕ × γ)) (hnodup : (entries.map Prod.fst).Nodup) :
    (∀ j, (entries.foldl (updateOne update) (states, going)).1[j]? =
      states[j]?.map fun state =>
        match entryOf entries j with
        | some b => (update state b).1
        | none => state) ∧
    (entries.foldl (updateOne update) (states, going)).2 =
      going ++ entries.filterMap fun entry => (states[entry.1]?).bind fun state =>
        (update state entry.2).2.map fun c => (entry.1, c) := by
  induction entries generalizing states going with
  | nil => simp [entryOf]
  | cons entry rest ih =>
    rw [map_cons, nodup_cons] at hnodup
    rw [foldl_cons]
    cases hstate : states[entry.1]? with
    | none =>
      have hstep : updateOne update (states, going) entry = (states, going) := by
        rw [updateOne, hstate]
      obtain ⟨hget, hgoing⟩ := @ih states going hnodup.2
      refine ⟨fun j => ?_, ?_⟩
      · rw [hstep, hget, entryOf_cons]
        by_cases h : entry.1 = j
        · subst h
          simp [hstate]
        · rw [if_neg h]
      · rw [hstep, hgoing]
        simp [hstate]
    | some state =>
      have hstep : updateOne update (states, going) entry =
          (states.set entry.1 (update state entry.2).1,
            going ++ ((update state entry.2).2.map fun c => (entry.1, c)).toList) := by
        simp only [updateOne, hstate]
        cases (update state entry.2).2 <;> simp
      obtain ⟨hget, hgoing⟩ := @ih (states.set entry.1 (update state entry.2).1)
        (going ++ ((update state entry.2).2.map fun c => (entry.1, c)).toList) hnodup.2
      have hpos : entry.1 < states.length := (List.getElem?_eq_some_iff.mp hstate).1
      refine ⟨fun j => ?_, ?_⟩
      · rw [hstep, hget, entryOf_cons, getElem?_set]
        by_cases h : entry.1 = j
        · subst h
          rw [entryOf_eq_none hnodup.1, hstate, if_pos rfl, if_pos hpos, if_pos rfl]
          rfl
        · rw [if_neg h, if_neg h]
      · -- the entries after this one are for other members, which the step left alone
        have hrest : ∀ e ∈ rest, (states.set entry.1 (update state entry.2).1)[e.1]? =
            states[e.1]? := by
          intro e he
          rw [getElem?_set_ne]
          intro h
          exact hnodup.1 (List.mem_map.mpr ⟨e, he, h.symm⟩)
        rw [hstep, hgoing, filterMap_congr fun e he => by rw [hrest e he],
          filterMap_cons, hstate, bind_some]
        cases (update state entry.2).2 <;> simp

/-- A walk updates every member it names once, by its own entry. -/
theorem updateAll_getElem? (hnodup : (entries.map Prod.fst).Nodup) :
    (updateAll update states entries).1[j]? =
      states[j]?.map fun state =>
        match entryOf entries j with
        | some b => (update state b).1
        | none => state :=
  (foldl_updateOne [] hnodup).1 j

/-- The members that go on after a walk, with what their own update said. -/
theorem updateAll_going (hnodup : (entries.map Prod.fst).Nodup) :
    (updateAll update states entries).2 = entries.filterMap fun entry =>
      (states[entry.1]?).bind fun state =>
        (update state entry.2).2.map fun c => (entry.1, c) :=
  (foldl_updateOne [] hnodup).2.trans (nil_append _)

/-- A member goes on with what its own update said. -/
theorem entryOf_going (hnodup : (entries.map Prod.fst).Nodup)
    (hgoing : ((updateAll update states entries).2.map Prod.fst).Nodup) :
    entryOf (updateAll update states entries).2 j =
      (entryOf entries j).bind fun b => states[j]?.bind fun state => (update state b).2 := by
  refine Option.ext fun c => ?_
  rw [entryOf_eq_some hgoing, updateAll_going hnodup, mem_filterMap]
  constructor
  · rintro ⟨⟨i, b⟩, hb, h⟩
    obtain ⟨state, hstate, h⟩ := bind_eq_some_iff.mp h
    obtain ⟨c', hc', h⟩ := map_eq_some_iff.mp h
    cases h
    rw [(entryOf_eq_some hnodup).mpr hb, bind_some, hstate, bind_some, hc']
  · intro h
    obtain ⟨b, hb, h⟩ := bind_eq_some_iff.mp h
    obtain ⟨state, hstate, h⟩ := bind_eq_some_iff.mp h
    exact ⟨(j, b), (entryOf_eq_some hnodup).mp hb, by simp [hstate, h]⟩

/-- The members that go on are among those the walk named, in the same order. -/
theorem updateAll_sublist (hnodup : (entries.map Prod.fst).Nodup) :
    ((updateAll update states entries).2.map Prod.fst).Sublist (entries.map Prod.fst) := by
  rw [updateAll_going hnodup]
  clear hnodup
  induction entries with
  | nil => exact .slnil
  | cons entry rest ih =>
    cases hgoing : (states[entry.1]?).bind fun state =>
        (update state entry.2).2.map fun c => (entry.1, c) with
    | none =>
      rw [filterMap_cons, hgoing]
      exact ih.cons _
    | some e =>
      obtain ⟨state, -, c, -, rfl⟩ : ∃ state, states[entry.1]? = some state ∧
          ∃ c, (update state entry.2).2 = some c ∧ (entry.1, c) = e := by
        simpa [bind_eq_some_iff] using hgoing
      rw [filterMap_cons, hgoing]
      exact ih.cons_cons entry.1

theorem going_nodup (hnodup : (entries.map Prod.fst).Nodup) :
    ((updateAll update states entries).2.map Prod.fst).Nodup :=
  (updateAll_sublist hnodup).nodup hnodup

end Entries

/-! ### Stepping the environments -/

section Environments

variable {ε : Type} {step : ε → ToolCall → Except Error StepOutcome × ε}

/-- Every member that waits has its own environment stepped, and no other environment is. -/
theorem stepPending_spec {index : ℕ} {environments : List ε}
    {pending : List (ℕ × ParsedAssistant)} (hsorted : (pending.map Prod.fst).Pairwise (· < ·))
    (hbound : ∀ entry ∈ pending, index ≤ entry.1 ∧ entry.1 < index + environments.length) :
    Forall₂ (fun entry turn => ∃ environment,
        environments[entry.1 - index]? = some environment ∧
        turn = (stepEnvironment step environment entry.2).1)
      pending (stepPending step index environments pending).1 ∧
    ∀ j, (stepPending step index environments pending).2[j]? =
      environments[j]?.map fun environment =>
        match entryOf pending (index + j) with
        | some parsed => (stepEnvironment step environment parsed).2
        | none => environment := by
  induction environments generalizing index pending with
  | nil =>
    cases pending with
    | nil => exact ⟨.nil, by simp [stepPending]⟩
    | cons entry rest =>
      have h := hbound entry mem_cons_self
      simp only [length_nil] at h
      omega
  | cons environment rest ih =>
    cases pending with
    | nil => exact ⟨.nil, fun j => by simp [stepPending, entryOf]⟩
    | cons entry pending =>
      obtain ⟨member, parsed⟩ := entry
      rw [map_cons, pairwise_cons] at hsorted
      obtain ⟨hfirst, hrest⟩ := hsorted
      have hbound' := fun entry he => hbound entry (mem_cons_of_mem _ he)
      have hmember := hbound (member, parsed) mem_cons_self
      rw [length_cons] at hmember
      -- positions past the first environment are positions of the rest, one lower
      have hshift : ∀ (k : ℕ), index + 1 ≤ k →
          (environment :: rest)[k - index]? = rest[k - (index + 1)]? := by
        intro k hk
        have : k - index = (k - (index + 1)) + 1 := by omega
        rw [this, getElem?_cons_succ]
      by_cases hne : member = index
      · subst hne
        have hlater : ∀ e ∈ pending, member + 1 ≤ e.1 := fun e he =>
          hfirst e.1 (List.mem_map.mpr ⟨e, he, rfl⟩)
        obtain ⟨hturns, henvs⟩ := @ih (member + 1) pending hrest
          fun e he => ⟨hlater e he, by have := hbound' e he; rw [length_cons] at this; omega⟩
        have hstep : stepPending step member (environment :: rest) ((member, parsed) :: pending) =
            ((stepEnvironment step environment parsed).1 ::
                (stepPending step (member + 1) rest pending).1,
              (stepEnvironment step environment parsed).2 ::
                (stepPending step (member + 1) rest pending).2) := by
          rw [stepPending, if_neg (by simp)]
        rw [hstep]
        refine ⟨.cons ⟨environment, by simp, rfl⟩ ?_, fun j => ?_⟩
        · exact ((forall₂_and_left _ _).mpr ⟨hlater, hturns⟩).imp
            fun e _ ⟨he, env, henv, hturn⟩ => ⟨env, (hshift e.1 he).trans henv, hturn⟩
        · cases j with
          | zero => simp [entryOf]
          | succ j =>
            rw [getElem?_cons_succ, henvs, getElem?_cons_succ, entryOf_cons,
              if_neg (by simp), Nat.add_assoc, Nat.add_comm 1 j]
      · have hlater : ∀ e ∈ (member, parsed) :: pending, index + 1 ≤ e.1 := by
          intro e he
          rcases mem_cons.mp he with rfl | he
          · have := hmember.1
            omega
          · have := hfirst e.1 (List.mem_map.mpr ⟨e, he, rfl⟩)
            omega
        obtain ⟨hturns, henvs⟩ := @ih (index + 1) ((member, parsed) :: pending)
          (pairwise_cons.mpr ⟨hfirst, hrest⟩) fun e he => ⟨hlater e he, by
            have := (hbound e he).2
            rw [length_cons] at this
            omega⟩
        have hstep : stepPending step index (environment :: rest) ((member, parsed) :: pending) =
            ((stepPending step (index + 1) rest ((member, parsed) :: pending)).1,
              environment ::
                (stepPending step (index + 1) rest ((member, parsed) :: pending)).2) := by
          rw [stepPending, if_pos hne]
        rw [hstep]
        refine ⟨?_, fun j => ?_⟩
        · exact ((forall₂_and_left _ _).mpr ⟨hlater, hturns⟩).imp
            fun e _ ⟨he, env, henv, hturn⟩ => ⟨env, (hshift e.1 he).trans henv, hturn⟩
        · cases j with
          | zero =>
            have hnone : entryOf ((member, parsed) :: pending) index = none :=
              entryOf_eq_none fun hmem => by
                obtain ⟨e, he, heq⟩ := List.mem_map.mp hmem
                have := hlater e he
                omega
            simp [hnone]
          | succ j =>
            rw [getElem?_cons_succ, henvs, getElem?_cons_succ, Nat.add_assoc,
              Nat.add_comm 1 j]

end Environments

end Retrograd.Agent
