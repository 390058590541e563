import Retrograd.Agent.Rollouts

/-!
# Contracts of the world

Two things a world may promise about its answers, each a choice of what the member system allows.
Under a `PolicyContract` **every call answers each of its requests**, with no more tokens than it
was asked for; under `PerRequest` an answer is moreover a function of its own request. Batches are
split across the backend's capacity and put together again, which neither notices.
-/

namespace Retrograd.Agent

open List
open Infer (Token)
open Logic
open Training (SamplingParams)

variable {σ ε : Type} {out : Outside σ ε} {engine : Engine} {may : Answers}

/-! ### Chunks -/

private theorem chunksOf_flatten {α : Type} {size : ℕ} (hsize : 0 < size) (fuel : ℕ)
    (requests : List α) (hfuel : requests.length ≤ fuel) :
    (inChunks.chunksOf size fuel requests).flatten = requests := by
  induction fuel generalizing requests with
  | zero =>
    rw [length_eq_zero_iff.mp (Nat.le_zero.mp hfuel)]
    rfl
  | succ fuel ih =>
    cases requests with
    | nil => rfl
    | cons request rest =>
      have hrest : ((request :: rest).drop size).length ≤ fuel := by
        rw [length_drop]
        rw [length_cons] at hfuel ⊢
        omega
      rw [inChunks.chunksOf, flatten_cons, ih _ hrest, take_append_drop]
      simp

variable {α β : Type} {R : α → β → Prop}

private theorem forall₂_flatten {ls : List (List α)} {ls' : List (List β)}
    (h : Forall₂ (Forall₂ R) ls ls') : Forall₂ R ls.flatten ls'.flatten := by
  induction h with
  | nil => exact .nil
  | cons hfirst _ ih => exact rel_append hfirst ih

/-- A batch in chunks is answered when each of its chunks is. -/
theorem inChunks_answered {E : Error → Prop} {call : List α → RolloutM σ ε (List β)}
    {requests : List α} (capacity : ℕ)
    (hcall : ∀ chunk, (∀ r ∈ chunk, r ∈ requests) → Asks (call chunk) (Forall₂ R chunk) E) :
    Asks (inChunks call capacity requests) (Forall₂ R requests) E := by
  have hflatten := chunksOf_flatten (Nat.lt_of_lt_of_le Nat.zero_lt_one (Nat.le_max_right
    capacity 1)) requests.length requests le_rfl
  have hparts : Asks ((inChunks.chunksOf (max capacity 1) requests.length requests).mapM call)
      (Forall₂ (Forall₂ R)
        (inChunks.chunksOf (max capacity 1) requests.length requests)) E := by
    refine Asks.mapM fun chunk hchunk => hcall chunk fun r hr => ?_
    rw [← hflatten]
    exact mem_flatten.mpr ⟨chunk, hchunk, hr⟩
  refine hparts.bind fun parts hall => Asks.pure ?_
  rw [← hflatten]
  exact forall₂_flatten hall

/-- A world whose two calls answer each request answers each request of a batch. -/
theorem generates_of_calls
    (hshared : ∀ prompt sampling policy, match (out.generateShared prompt sampling policy).1 with
      | .ok answers => Forall₂ (fun params => may.generation (prompt, params)) sampling answers
      | .error e => may.lost e)
    (hcontinuous : ∀ requests policy, match (out.generateContinuous requests policy).1 with
      | .ok answers => Forall₂ may.generation requests answers
      | .error e => may.lost e)
    (sharedPrompt : Option (List Token × String)) (turn : ℕ)
    (requests : List (List Token × SamplingParams))
    (hcontexts : ∀ prompt, turn = 0 → sharedPrompt = some prompt → ∀ r ∈ requests,
      r.1 = prompt.1) :
    Asks (ε := ε) (settled (generate out sharedPrompt turn requests))
      (Answered may.generation may.lost requests) fun _ => False := by
  have hbatch : ∀ requests, Asks (ε := ε) (ask (out.generateContinuous requests))
      (Forall₂ may.generation requests) may.lost := fun requests =>
    Asks.ask.mono
      (fun answers ⟨policy, h⟩ => by simpa [h] using hcontinuous requests policy)
      fun e ⟨policy, h⟩ => by simpa [h] using hcontinuous requests policy
  have hgenerate : Asks (ε := ε) (generate out sharedPrompt turn requests)
      (Forall₂ may.generation requests) may.lost := by
    unfold generate
    split
    · next prompt text =>
      -- every member still stands on the shared prompt
      have hprompt : requests = (requests.map Prod.snd).map fun params => (prompt, params) := by
        rw [map_map]
        refine (map_id _).symm.trans (map_congr_left fun r hr => ?_)
        exact Prod.ext (hcontexts (prompt, text) rfl rfl r hr) rfl
      have hchunks : Asks (ε := ε) (inChunks (fun sampling =>
          ask (out.generateShared prompt sampling)) out.sequenceCapacity (requests.map Prod.snd))
          (Forall₂ (fun params => may.generation (prompt, params)) (requests.map Prod.snd))
          may.lost :=
        inChunks_answered _ fun sampling _ => Asks.ask.mono
          (fun answers ⟨policy, h⟩ => by simpa [h] using hshared prompt sampling policy)
          fun e ⟨policy, h⟩ => by simpa [h] using hshared prompt sampling policy
      refine hchunks.imp fun answers hall => ?_
      rw [hprompt]
      exact forall₂_map_left_iff.mpr hall
    · exact inChunks_answered _ fun chunk _ => hbatch chunk
  refine hgenerate.settled.imp fun result ⟨hok, herror⟩ => ?_
  cases result with
  | ok answers =>
    have hall := hok answers rfl
    exact ⟨fun _ => hall, fun hlen => absurd hall.length_eq.symm hlen⟩
  | error e => exact herror e rfl

/-! ### A policy that keeps to its requests -/

/-- The policy gave this generation for this request: in a call whose contexts are its members'
own, or in one on a prompt they share. -/
def Sampled (out : Outside σ ε) (request : List Token × SamplingParams)
    (generation : PolicyGeneration) : Prop :=
  (∃ requests policy answers, (out.generateContinuous requests policy).1 = .ok answers ∧
    ∃ k : ℕ, requests[k]? = some request ∧ answers[k]? = some generation) ∨
  ∃ sampling policy answers, (out.generateShared request.1 sampling policy).1 = .ok answers ∧
    ∃ k : ℕ, sampling[k]? = some request.2 ∧ answers[k]? = some generation

/-- The policy scored this row so, in a batch that held it. -/
def Rescored (out : Outside σ ε) (row : List Token × List Bool) (scores : List Float32) : Prop :=
  ∃ batch policy rows, (out.scoreMaskedBatch batch policy).1 = .ok rows ∧
    ∃ k : ℕ, batch[k]? = some row ∧ rows[k]? = some scores

/-- Every call of the policy answers each of its requests, within the tokens it was given. What
is sampled, which tokens are forced and when a call fails is free. -/
structure PolicyContract (out : Outside σ ε) : Prop where
  shared : ∀ prompt sampling policy answers,
    (out.generateShared prompt sampling policy).1 = .ok answers →
    List.Forall₂ (fun params generation => generation.tokens.length ≤ params.maxNewTokens)
      sampling answers
  continuous : ∀ requests policy answers,
    (out.generateContinuous requests policy).1 = .ok answers →
    List.Forall₂ (fun request generation =>
      generation.tokens.length ≤ request.2.maxNewTokens) requests answers

/-- What a policy of the contract may answer; the rest of the world is free. -/
def Answers.contract (out : Outside σ ε) : Answers where
  generation := fun request generation => Sampled out request generation ∧
    generation.tokens.length ≤ request.2.maxNewTokens
  render := fun _ _ _ => True
  score := Rescored out
  late := True
  lost := fun _ => True
  broken := fun _ => True

/-- Answers that are related position by position, with where they stand. -/
private theorem forall₂_position {l : List α} {l' : List β} (h : Forall₂ R l l') :
    Forall₂ (fun a b => (∃ k : ℕ, l[k]? = some a ∧ l'[k]? = some b) ∧ R a b) l l' := by
  refine forall₂_iff_get.mpr ⟨h.length_eq, fun k hk hk' => ⟨⟨k, ?_, ?_⟩, ?_⟩⟩
  · simp
  · simp
  · exact (forall₂_iff_get.mp h).2 k hk hk'

theorem honors_contract (hcontract : PolicyContract out) : Honors out engine (.contract out) where
  generates := by
    refine generates_of_calls (fun prompt sampling policy => ?_) fun requests policy => ?_
    · split
      · next answers h =>
        exact (forall₂_position (hcontract.shared prompt sampling policy answers h)).imp
          fun params generation ⟨hk, hroom⟩ =>
            ⟨.inr ⟨sampling, policy, answers, h, hk⟩, hroom⟩
      · trivial
    · split
      · next answers h =>
        exact (forall₂_position (hcontract.continuous requests policy answers h)).imp
          fun request generation ⟨hk, hroom⟩ =>
            ⟨.inl ⟨requests, policy, answers, h, hk⟩, hroom⟩
      · trivial
  renders := fun _ _ _ => trivial
  scores := fun batch policy => by
    cases h : (out.scoreMaskedBatch batch policy).1 with
    | error e => trivial
    | ok rows =>
      refine ⟨fun hlen => ?_, fun _ _ => trivial⟩
      have hall : Forall₂ (fun _ _ => True) batch rows :=
        forall₂_iff_get.mpr ⟨hlen.symm, fun _ _ _ => trivial⟩
      exact (forall₂_position hall).imp fun row scores ⟨hk, _⟩ => ⟨batch, policy, rows, h, hk⟩
  late := fun _ => trivial
  notes := fun _ _ _ _ => trivial

/-! ### A world that answers each request by itself -/

/-- Every answer is a function of its own request, whatever else is in the batch and whatever was
asked before; and no call fails. -/
structure PerRequest (out : Outside σ ε) (answer : List Token × SamplingParams → PolicyGeneration)
    (rendered : List Message → List ToolSpec → Except Error RenderedFraming)
    (score : List Token × List Bool → List Float32) : Prop where
  shared : ∀ prompt sampling policy, (out.generateShared prompt sampling policy).1 =
    .ok (sampling.map fun params => answer (prompt, params))
  continuous : ∀ requests policy, (out.generateContinuous requests policy).1 =
    .ok (requests.map answer)
  renders : ∀ messages specs policy, (out.renderChatFraming messages specs policy).1 =
    rendered messages specs
  scores : ∀ batch policy, (out.scoreMaskedBatch batch policy).1 = .ok (batch.map score)
  notes : ∀ waiting policy, (out.noteToolWait waiting policy).1 = .ok ()

variable {answer : List Token × SamplingParams → PolicyGeneration}
  {rendered : List Message → List ToolSpec → Except Error RenderedFraming}
  {score : List Token × List Bool → List Float32}

/-- The one answer to each request, and nothing that ends a member from outside. -/
def Answers.perRequest (answer : List Token × SamplingParams → PolicyGeneration)
    (rendered : List Message → List ToolSpec → Except Error RenderedFraming)
    (score : List Token × List Bool → List Float32) : Answers where
  generation := fun request generation => generation = answer request
  render := fun messages specs render => render = rendered messages specs
  score := fun row scores => scores = score row
  late := False
  lost := fun _ => False
  broken := fun _ => False

private theorem forall₂_map (f : α → β) (l : List α) :
    Forall₂ (fun a b => b = f a) l (l.map f) :=
  forall₂_map_right_iff.mpr (forall₂_same.mpr fun _ _ => rfl)

theorem honors_perRequest (hworld : PerRequest out answer rendered score)
    (hbudget : engine.limits.maxRolloutSecs = 0) :
    Honors out engine (.perRequest answer rendered score) where
  generates := by
    refine generates_of_calls (fun prompt sampling policy => ?_) fun requests policy => ?_
    · rw [hworld.shared]
      exact forall₂_map (fun params => answer (prompt, params)) sampling
    · rw [hworld.continuous]
      exact forall₂_map answer requests
  renders := fun messages specs policy => hworld.renders messages specs policy
  scores := fun batch policy => by
    rw [hworld.scores]
    exact ⟨fun _ => forall₂_map score batch, fun hlen => absurd (length_map ..) hlen⟩
  late := fun hlate => absurd hbudget hlate.ne'
  notes := fun waiting policy e he => by
    rw [hworld.notes] at he
    cases he

end Retrograd.Agent
