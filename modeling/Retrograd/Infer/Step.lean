import Retrograd.Infer.Plan

/-!
# A backend step

A step appends the tokens of each row to the row's slot. Over a planned step **every slot still
holds a prefix** of its member's prompt and history, however many tokens a failing step made
resident; a successful one extends each slot by exactly its row.
-/

namespace Retrograd.Infer

open Logic List

variable {w : World} {s s' : Scheduler} {pending : List Queued} {g m : ℕ} {group : LiveGroup}
  {member : LiveMember} {row row' : StepRow} {kind kind' : RowKind} {plan : Plan}

/-- A row that starts where its slot ends. -/
structure Continues (w : World) (s : Scheduler) (row : StepRow) : Prop where
  owner : ∃ g m group member, RowAt s g m group member row
  synced : w.Reliable → (s.backend.slots row.slot).length = row.pos0

/-- The context a row is computed in: what its slot holds is what its member has so far. -/
theorem RowAt.contents (h : RowAt s g m group member row) (hl : Live w s) (hw : w.Reliable)
    (hsynced : (s.backend.slots row.slot).length = row.pos0) :
    contents (s.backend.slots row.slot) = tagged (row.adapter.tag s.backend.activeAdapter)
      ((group.prompt ++ member.history).take row.pos0) := by
  rw [h.slot] at hsynced ⊢
  rw [h.adapter]
  exact (hl.content hw group (mem_of_getElem? h.at_.atGroup) member
    (mem_of_getElem? h.at_.atMember) h.at_.live).contents hsynced

theorem Continues.congr (h : Continues w s row) (hlive : s'.live = s.live)
    (hslot : s'.backend.slots row.slot = s.backend.slots row.slot) : Continues w s' row := by
  obtain ⟨g, m, group, member, hat⟩ := h.owner
  refine ⟨⟨g, m, group, member, hat.congr hlive⟩, fun hw => ?_⟩
  rw [hslot]
  exact h.synced hw

/-- The slot of a row after `n` of its tokens were made resident. -/
def grown (b : Backend) (row : StepRow) (n : ℕ) : List Cell :=
  b.slots row.slot
    ++ b.freshCells (tagged (row.adapter.tag b.activeAdapter) (row.tokens.take n))

theorem length_grown (b : Backend) (row : StepRow) (n : ℕ) :
    (grown b row n).length = (b.slots row.slot).length + min n row.tokens.length := by
  rw [grown, length_append, ← length_contents (b.freshCells _), Backend.contents_freshCells,
    length_tagged, length_take]

/-- Making some tokens of one row resident keeps the invariant. -/
theorem Inv.grow (h : Inv w pending s) (hrow : Continues w s row) (n next : ℕ) :
    Inv w pending (s.withSlot row.slot (grown s.backend row n) next) := by
  obtain ⟨g, m, group, member, hat⟩ := hrow.owner
  have hcells : w.Reliable → ∃ k, Retrograd.Infer.contents (grown s.backend row n)
      = tagged (group.adapter.tag s.backend.activeAdapter)
        ((group.prompt ++ member.history).take k) := by
    intro hw
    have hpos0 : ((group.prompt ++ member.history).take row.pos0).length = row.pos0 := by
      rw [length_take]
      have := hat.pos0_le
      omega
    have htake := congrArg (List.take (row.pos0 + n)) hat.tokens
    rw [take_append, hpos0, Nat.add_sub_cancel_left, take_of_length_le
      (by rw [hpos0]; exact Nat.le_add_right ..), take_take] at htake
    refine ⟨min (row.pos0 + n) (row.pos0 + row.tokens.length), ?_⟩
    rw [grown, contents_append, Backend.contents_freshCells,
      hat.contents h.live hw (hrow.synced hw), hat.adapter, ← tagged_append, htake]
  rw [hat.slot]
  exact h.withSlot hat.at_ hcells next

/-- Making the first `n` tokens of a step resident keeps the invariant. Enough of them extend
every row's slot by its row. -/
theorem decodeRows_inv (rows : List StepRow) : ∀ {n : ℕ} {s : Scheduler}, Inv w pending s →
    (∀ row ∈ rows, Continues w s row) → rows.Pairwise (fun a b => b.slot ≠ a.slot) →
    ∃ s', s' = { s with backend := Backend.decodeRows n rows s.backend } ∧ Inv w pending s' ∧
      (∀ σ, (∀ row ∈ rows, row.slot ≠ σ) → s'.backend.slots σ = s.backend.slots σ) ∧
      (Backend.stepTokens rows ≤ n → ∀ row ∈ rows, (s'.backend.slots row.slot).length
        = (s.backend.slots row.slot).length + row.tokens.length) := by
  induction rows with
  | nil => exact fun h _ _ => ⟨_, rfl, h, fun _ _ => rfl, fun _ => nofun⟩
  | cons row rows ih =>
    intro n s h hrows horder
    rw [pairwise_cons] at horder
    obtain ⟨next, hnext⟩ : ∃ next, next = s.backend.nextCell + (row.tokens.take n).length :=
      ⟨_, rfl⟩
    obtain ⟨s₁, hs₁⟩ : ∃ s₁ : Scheduler, s₁ = s.withSlot row.slot (grown s.backend row n) next :=
      ⟨_, rfl⟩
    have h₁ : Inv w pending s₁ := by
      rw [hs₁]
      exact h.grow (hrows row mem_cons_self) n next
    have hother : ∀ σ, row.slot ≠ σ → s₁.backend.slots σ = s.backend.slots σ := by
      intro σ hσ
      rw [hs₁, withSlot_slots, if_neg (Ne.symm hσ)]
    have hself : s₁.backend.slots row.slot = grown s.backend row n := by
      rw [hs₁, withSlot_slots, if_pos rfl]
    obtain ⟨s₂, hs₂, h₂, hkept, hgrown⟩ := ih (n := n - row.tokens.length) h₁
      (fun row' hrow' => (hrows row' (mem_cons_of_mem _ hrow')).congr (by rw [hs₁]; rfl)
        (hother _ (Ne.symm (horder.1 row' hrow')))) horder.2
    refine ⟨s₂, ?_, h₂, fun σ hσ => ?_, fun hle row' hrow' => ?_⟩
    · rw [hs₂, hs₁, hnext]
      rfl
    · rw [hkept σ fun row' hrow' => hσ row' (mem_cons_of_mem _ hrow'),
        hother σ (hσ row mem_cons_self)]
    · rw [Backend.stepTokens, map_cons, sum_cons] at hle
      rcases mem_cons.mp hrow' with rfl | hrow'
      · rw [hkept _ horder.1, hself, length_grown, min_eq_right (by omega)]
      · rw [hgrown (by rw [Backend.stepTokens]; omega) row' hrow',
          hother _ (Ne.symm (horder.1 row' hrow'))]

/-- A planned step's rows continue their slots. -/
theorem Planned.continues (hplan : Planned s plan) (hs : Settled w s) :
    ∀ row ∈ plan.map Prod.fst, Continues w s row := by
  intro row hrow
  obtain ⟨entry, hentry, rfl⟩ := mem_map.mp hrow
  obtain ⟨m, group, member, hat⟩ := (hplan.rows entry hentry).owner
  refine ⟨⟨_, m, group, member, hat⟩, fun hw => ?_⟩
  rw [hat.slot, (hs group (mem_of_getElem? hat.at_.atGroup)).synced hw m member
    hat.at_.atMember hat.at_.live not_mem_nil, hat.pos0, Nat.add_zero]

/-- A planned step's rows write different slots. -/
theorem Planned.slots (hplan : Planned s plan) (hl : Live w s) :
    (plan.map Prod.fst).Pairwise fun a b => b.slot ≠ a.slot := by
  rw [pairwise_map]
  exact hplan.order.imp_of_mem fun {a b} ha hb hbefore =>
    (hplan.rows a ha).slot_ne hl (hplan.rows b hb) hbefore

/-- What a successful step leaves. -/
structure Stepped (w : World) (pending : List Queued) (plan : Plan) (s s' : Scheduler) : Prop where
  inv : Inv w pending s'
  live : s'.live = s.live
  aside : Aside s s'
  kept : ∀ σ, (∀ entry ∈ plan, entry.1.slot ≠ σ) → s'.backend.slots σ = s.backend.slots σ
  grown : ∀ entry ∈ plan, (s'.backend.slots entry.1.slot).length
    = (s.backend.slots entry.1.slot).length + entry.1.tokens.length

/-- A planned step extends every row's slot by its row; a failing one keeps the invariant. -/
theorem step_spec (h : Inv w pending s) (hs : Settled w s) (hplan : Planned s plan) :
    wp (invoke w (Backend.step w (plan.map Prod.fst))) (fun _ s' => Stepped w pending plan s s')
      (fun stop s' => (∃ error, stop = .error error) ∧ Inv w pending s' ∧ s'.live = s.live ∧
        Aside s s') s := by
  have hquiet : ∀ calls, Quiet s { s with backend := { s.backend with calls } } :=
    fun calls => ⟨calls, rfl⟩
  have hrows : ∀ calls n, ∃ s' : Scheduler, s' = { s with
        backend := Backend.decodeRows n (plan.map Prod.fst) { s.backend with calls } } ∧
      Inv w pending s' ∧
      (∀ σ, (∀ row ∈ plan.map Prod.fst, row.slot ≠ σ) →
        s'.backend.slots σ = s.backend.slots σ) ∧
      (Backend.stepTokens (plan.map Prod.fst) ≤ n → ∀ row ∈ plan.map Prod.fst,
        (s'.backend.slots row.slot).length
          = (s.backend.slots row.slot).length + row.tokens.length) := fun calls n =>
    decodeRows_inv (n := n) (plan.map Prod.fst) (h.quiet (hquiet calls))
      (fun row hrow => (hplan.continues hs row hrow).congr rfl rfl) (hplan.slots h.live)
  refine wp_invoke (fun stop s' hf => ?_) (fun calls out b hb => ?_) fun calls error b hb => ?_
  · refine ⟨hf.1, h.quiet hf.2.2, ?_, hf.2.2.aside⟩
    obtain ⟨calls, rfl⟩ := hf.2.2
    rfl
  · unfold Backend.step at hb
    dsimp only at hb
    split at hb
    · cases hb
    split at hb
    · cases hb
    split at hb
    · cases hb
    cases hb
    obtain ⟨s', hs', h', hkept, hgrown⟩ :=
      hrows calls (Backend.stepTokens (plan.map Prod.fst))
    rw [← hs']
    refine ⟨h', by rw [hs'], by rw [hs']; exact ⟨rfl, rfl, rfl, rfl, rfl, rfl⟩,
      fun σ hσ => hkept σ fun row hrow => ?_, fun entry hentry =>
        hgrown le_rfl _ (mem_map_of_mem hentry)⟩
    obtain ⟨entry, hentry, rfl⟩ := mem_map.mp hrow
    exact hσ entry hentry
  · unfold Backend.step at hb
    dsimp only at hb
    have hrefused : ∀ {error'}, (Except.error error', { s.backend with calls })
        = ((Except.error error, b) : Reply ℕ) → Inv w pending { s with backend := b } ∧
        ({ s with backend := b } : Scheduler).live = s.live ∧
        Aside s { s with backend := b } := by
      intro error' heq
      cases heq
      exact ⟨h.quiet (hquiet calls), rfl, (hquiet calls).aside⟩
    refine ⟨⟨error, rfl⟩, ?_⟩
    split at hb
    · exact hrefused hb
    split at hb
    · exact hrefused hb
    split at hb
    · next n _ _ =>
      cases hb
      obtain ⟨s', hs', h', -, -⟩ := hrows calls n
      rw [← hs']
      exact ⟨h', by rw [hs'], by rw [hs']; exact ⟨rfl, rfl, rfl, rfl, rfl, rfl⟩⟩
    · cases hb

end Retrograd.Infer
