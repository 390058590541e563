import Retrograd.Infer.Settle

/-!
# One iteration

An iteration prepares, composes, executes and accounts a step. When it succeeds the scheduler is
**stable** again; when it fails every live request is told, and a stable scheduler with nothing
live is left. Requests an admission pass failed with are owed to nobody any more.
-/

namespace Retrograd.Infer

open Logic List

variable {w : World} {s s' : Scheduler} {pending lost : List Queued} {plan : Plan}

/-- The output buffer and the rotation states are nobody's business. -/
theorem Inv.withStep (h : Inv w pending s) (out decodeCursor : ℕ) (prefillTurn : Bool) :
    Inv w pending { s with out, decodeCursor, prefillTurn } := by
  obtain ⟨P, hp⟩ := h.pool
  exact {
    pool := ⟨P, hp.congr rfl rfl rfl rfl rfl rfl (hp.rows.congr rfl rfl rfl rfl rfl)⟩
    live := { h.live with }
    ledger := h.ledger
    valid := h.valid }

/-! ### Executing a plan -/

/-- How far the slots of a step are ahead of the phases. -/
def ahead (s s' : Scheduler) (g m : ℕ) : ℕ :=
  match s.live[g]? with
  | none => 0
  | some group =>
    match group.members[m]? with
    | none => 0
    | some member =>
      if member.live then
        (s'.backend.slots member.slot).length - (s.backend.slots member.slot).length
      else 0

theorem LiveAt.ahead_eq {g m : ℕ} {group : LiveGroup} {member : LiveMember}
    (hat : LiveAt s g m group member) : ahead s s' g m
      = (s'.backend.slots member.slot).length - (s.backend.slots member.slot).length := by
  unfold ahead
  rw [hat.atGroup]
  dsimp only
  rw [hat.atMember]
  exact if_pos hat.live

theorem Stepped.ahead_row {entry : StepRow × RowKind} {g m : ℕ} {group : LiveGroup}
    {member : LiveMember} (h : Stepped w pending plan s s') (hentry : entry ∈ plan)
    (hat : RowAt s g m group member entry.1) : ahead s s' g m = entry.1.tokens.length := by
  rw [hat.at_.ahead_eq, ← hat.slot, h.grown entry hentry, Nat.add_sub_cancel_left]

/-- After a step, its rows are still to be accounted. -/
theorem Stepped.owing (h : Stepped w pending plan s s') (hl : Live w s) (hs : Settled w s)
    (hplan : Planned s plan) : Owing w s' (plan.map Prod.snd) (ahead s s') := by
  have hmove : ∀ {g m group member}, LiveAt s g m group member → LiveAt s' g m group member :=
    fun hat => { hat with atGroup := by rw [h.live]; exact hat.atGroup }
  constructor
  case sound =>
    intro g group hg
    rw [h.live] at hg
    have hok : GroupOk w s group [] fun _ => 0 := hs group (mem_of_getElem? hg)
    refine { hok with synced := fun hw m member hm hlive hleaving => ?_ }
    have hlen := hok.synced hw m member hm hlive hleaving
    have hat : LiveAt s g m group member := ⟨hg, hm, hlive⟩
    rw [hat.ahead_eq, ← Nat.add_zero (group.residentLen m member), ← hlen]
    -- a slot only grows in a step
    by_cases hrow : ∃ entry ∈ plan, entry.1.slot = member.slot
    · obtain ⟨entry, hentry, hslot⟩ := hrow
      rw [← hslot, h.grown entry hentry]
      omega
    · push Not at hrow
      rw [h.kept _ hrow]
      omega
  case due =>
    intro kind hkind
    obtain ⟨⟨row, kind'⟩, hentry, rfl⟩ := mem_map.mp hkind
    cases hplan.rows _ hentry with
    | decode hat phase one =>
      exact .decode (hmove hat.at_) phase ((h.ahead_row hentry hat).trans one)
    | prefill hat phase lt le len =>
      exact .prefill (hmove hat.at_) phase lt le ((h.ahead_row hentry hat).trans len)
    | terminal hat phase le one =>
      exact .terminal (hmove hat.at_) phase le ((h.ahead_row hentry hat).trans one)
  case order => exact pairwise_map.mpr hplan.order
  case terminals =>
    intro g m group next hin hg
    rw [h.live] at hg
    exact hplan.terminals hin hg
  case only =>
    intro g m hne
    obtain ⟨group, member, hat⟩ : ∃ group member, LiveAt s g m group member := by
      unfold ahead at hne
      split at hne
      · exact absurd rfl hne
      split at hne
      · exact absurd rfl hne
      split_ifs at hne with hlive
      · exact ⟨_, _, by assumption, by assumption, hlive⟩
      · exact absurd rfl hne
    rw [hat.ahead_eq] at hne
    obtain ⟨entry, hentry, hslot⟩ : ∃ entry ∈ plan, entry.1.slot = member.slot := by
      by_contra hnone
      push Not at hnone
      rw [h.kept _ hnone, Nat.sub_self] at hne
      exact hne rfl
    refine ⟨entry.2, mem_map_of_mem hentry, ?_⟩
    obtain ⟨m', group', member', hat'⟩ := (hplan.rows entry hentry).owner
    have hsame : (entry.2.groupIndex, m') = (g, m) := by
      by_contra hdiff
      exact hat.slot_ne hl hat'.at_ hdiff (hat'.slot.symm.trans hslot)
    obtain ⟨hgroup, hmember⟩ := Prod.mk.inj hsame
    have hunique : ∀ {m₁ group₁ member₁ m₂ group₂ member₂},
        RowAt s entry.2.groupIndex m₁ group₁ member₁ entry.1 →
        RowAt s entry.2.groupIndex m₂ group₂ member₂ entry.1 → m₁ = m₂ := by
      intro m₁ group₁ member₁ m₂ group₂ member₂ h₁ h₂
      by_contra hdiff
      refine h₂.at_.slot_ne hl h₁.at_ (fun heq => hdiff (Prod.mk.inj heq).2) ?_
      rw [← h₁.slot, ← h₂.slot]
    have hrow := hplan.rows entry hentry
    obtain ⟨row, kind⟩ := entry
    cases hrow with
    | decode hat₁ => exact ⟨hgroup, (hunique hat₁ hat').trans hmember⟩
    | terminal hat₁ => exact ⟨hgroup, (hunique hat₁ hat').trans hmember⟩
    | prefill hat₁ =>
      refine ⟨hgroup, _, ?_, (hunique hat₁ hat').trans hmember⟩
      rw [h.live, ← hgroup]
      exact hat₁.at_.atGroup

/-- Executing a plan settles every row it made, or fails with the invariant kept. -/
theorem executeStep_spec (h : Inv w pending s) (hs : Settled w s) (hplan : Planned s plan)
    (total : ℕ) :
    wp (executeStep w plan total) (fun _ s' => Inv w pending s' ∧ Aside s s' ∧ Settled w s' ∧
      Peopled s') (Broken w pending s) s := by
  unfold executeStep
  rw [wp_bind, wp_settle]
  refine wp_mono (step_spec h hs hplan) ?_ ?_
  · rintro out s₁ hstep
    dsimp only
    rw [wp_bind, wp_modify]
    obtain ⟨s₂, hs₂⟩ : ∃ s₂ : Scheduler, s₂ = { s₁ with out } := ⟨_, rfl⟩
    have ho : Owing w s₂ (plan.map Prod.snd) (ahead s s₂) := by
      rw [hs₂]
      have hstep₂ : Stepped w pending plan s { s₁ with out } :=
        ⟨hstep.inv.withStep out _ _, hstep.live,
          hstep.aside.trans ⟨rfl, rfl, rfl, rfl, rfl, rfl⟩, hstep.kept, hstep.grown⟩
      exact hstep₂.owing h.live hs hplan
    have h₂ : Inv w pending s₂ := by
      rw [hs₂]
      exact hstep.inv.withStep out _ _
    have ha₂ : Aside s s₂ := by
      rw [hs₂]
      exact hstep.aside.trans ⟨rfl, rfl, rfl, rfl, rfl, rfl⟩
    have hkinds : plan.zipIdx.map (fun row => row.1.2) = plan.map Prod.snd := by
      have hmap : plan.zipIdx.map (fun row => row.1.2)
          = (plan.zipIdx.map Prod.fst).map Prod.snd := map_map.symm
      rw [hmap, zipIdx_map_fst]
    rw [← hs₂, wp_bind]
    refine wp_mono (settleRows_spec plan.zipIdx h₂ (hkinds ▸ ho)) ?_ fun _ _ hf => hf.trans ha₂
    rintro _ s₃ ⟨h₃, ha₃, hs₃⟩
    have ha₃ := ha₂.trans ha₃
    unfold dropFinished
    rw [wp_bind, wp_modify]
    obtain ⟨s₄, hs₄⟩ : ∃ s₄ : Scheduler, s₄ = { s₃ with
      live := s₃.live.filter fun group => group.members.any LiveMember.live } := ⟨_, rfl⟩
    have h₄ : Inv w pending s₄ := hs₄ ▸ h₃.dropFinished
    have hsettled₄ : Settled w s₄ := hs₄ ▸ hs₃.dropFinished
    have hpeopled₄ : Peopled s₄ := hs₄ ▸ peopled_dropFinished s₃
    have ha₄ : Aside s s₄ := by
      rw [hs₄]
      exact ha₃.trans ⟨rfl, rfl, rfl, rfl, rfl, rfl⟩
    rw [← hs₄, wp_bind, wp_get, wp_ite]
    refine ⟨fun _ => ?_, fun _ => ⟨h₄, ha₄, hsettled₄, hpeopled₄⟩⟩
    obtain ⟨P, hp⟩ := h₄.pool
    refine wp_mono (releaseRetired_spec hp) ?_ ?_
    · rintro _ s₅ ⟨P₅, hp₅, hu₅, -⟩
      exact ⟨h₄.frame hu₅.toFrame hp₅, ha₄.trans hu₅.toBeside.aside,
        hsettled₄.frame hu₅.toFrame, hpeopled₄.congr hu₅.live⟩
    · rintro stop s₅ ⟨herror, -, P₅, hp₅, hu₅, -⟩
      exact ⟨herror, h₄.frame hu₅.toFrame hp₅, ha₄.trans hu₅.toBeside.aside⟩
  · rintro stop s₁ ⟨⟨error, rfl⟩, h₁, hlive₁, ha₁⟩
    dsimp only
    rw [wp_bind]
    refine wp_mono (classifyStepError_spec error total) ?_ fun _ _ hf => hf
    rintro error' s₂ hq₂
    have hlive₂ : s₂.live = s.live := by
      obtain ⟨calls, rfl⟩ := hq₂
      exact hlive₁
    rw [wp_bind]
    refine wp_mono (rollback_spec (h₁.quiet hq₂) fun row hrow =>
      RowKind.alive_congr (hplan.rows row hrow).alive hlive₂) ?_ fun _ _ hf => hf
    rintro _ s₃ ⟨h₃, -, ha₃⟩
    exact ⟨⟨_, rfl⟩, h₃, ha₁.trans (hq₂.aside.trans ha₃)⟩

/-! ### Iterations -/

/-- A composed step is planned over the live groups. -/
theorem composeStep_spec (h : Prepared w pending s) :
    wp (composeStep) (fun result s' => Inv w pending s' ∧ Settled w s' ∧ Peopled s' ∧
      Planned s' result.1 ∧ Aside s s' ∧ s'.live = s.live ∧ s'.backend = s.backend)
      (Broken w pending s) s := by
  unfold composeStep
  rw [wp_bind, wp_get]
  dsimp only
  obtain ⟨composed, hcomposed⟩ : ∃ composed, composed =
      compose s.live s.options.nBatch s.options.mode s.decodeCursor s.prefillTurn := ⟨_, rfl⟩
  have hplan : Yields (compose s.live s.options.nBatch s.options.mode s.decodeCursor
      s.prefillTurn).plan fun result => Planned s result.1 := yields_compose h
  rw [← hcomposed] at hplan ⊢
  rw [wp_bind, wp_set]
  have hinv := h.inv.withStep s.out composed.decodeCursor composed.prefillTurn
  have haside : Aside s { s with
    decodeCursor := composed.decodeCursor, prefillTurn := composed.prefillTurn } :=
    ⟨rfl, rfl, rfl, rfl, rfl, rfl⟩
  cases hcase : composed.plan with
  | ok plan =>
    rw [hcase] at hplan
    exact ⟨hinv, h.settled.kept rfl fun _ _ => rfl, h.peopled, Planned.congr hplan rfl, haside,
      rfl, rfl⟩
  | error stop =>
    rw [hcase] at hplan
    exact ⟨hplan, hinv, haside⟩

theorem composeStep_plan : wp composeStep (fun result _ => (compose s.live s.options.nBatch
    s.options.mode s.decodeCursor s.prefillTurn).plan = .ok result) (fun _ _ => True) s := by
  unfold composeStep
  rw [wp_bind, wp_get]
  dsimp only
  rw [wp_bind, wp_set]
  cases hplan : (compose s.live s.options.nBatch s.options.mode s.decodeCursor
      s.prefillTurn).plan with
  | ok plan => exact rfl
  | error stop => exact trivial

theorem Inv.stable (h : Inv w (s.queue ++ lost) s) (hs : Settled w s) (hp : Peopled s)
    (hempty : s.inHand = []) : Stable w lost s := by
  refine ⟨?_, hs, hp⟩
  rw [hempty, append_nil]
  exact h

/-- An iteration that fails after its preparation has nothing in hand. -/
theorem Broken.step {stop : Stop} (hempty : s.inHand = [])
    (h : Broken w (s.queue ++ lost) s stop s') : StepFailed w lost stop s' := by
  obtain ⟨herror, h', ha⟩ := h
  refine .inr ⟨herror, lost, ?_, id⟩
  rw [ha.queue, ha.inHand, hempty, append_nil]
  exact h'

/-- A successful iteration leaves a stable scheduler, with nothing in hand. -/
theorem stepOnce_spec (h : Stable w lost s) :
    wp (stepOnce w) (fun _ s' => Stable w (s.inHand ++ lost) s' ∧ s'.inHand = [])
      (StepFailed w (s.inHand ++ lost)) s := by
  unfold stepOnce
  rw [wp_bind]
  refine wp_mono (prepare_spec h) ?_ fun _ _ hf => hf
  rintro _ s₁ ⟨h₁, hempty₁⟩
  have hstable₁ := h₁.inv.stable h₁.settled h₁.peopled hempty₁
  rw [wp_bind, wp_get, wp_ite]
  refine ⟨fun _ => ⟨hstable₁, hempty₁⟩, fun _ => ?_⟩
  rw [wp_bind]
  refine wp_mono (composeStep_spec h₁) ?_ fun _ _ hf => hf.step hempty₁
  rintro ⟨plan, total⟩ s₂ ⟨h₂, hs₂, hp₂, hplan₂, ha₂, -, -⟩
  have hempty₂ : s₂.inHand = [] := ha₂.inHand.trans hempty₁
  rw [← ha₂.queue] at h₂
  dsimp only
  rw [wp_ite]
  refine ⟨fun _ => ⟨h₂.stable hs₂ hp₂ hempty₂, hempty₂⟩, fun _ => ?_⟩
  rw [wp_bind]
  refine wp_mono (executeStep_spec h₂ hs₂ hplan₂ total) ?_ fun _ _ hf => hf.step hempty₂
  rintro _ s₃ ⟨h₃, ha₃, hs₃, hp₃⟩
  have hempty₃ : s₃.inHand = [] := ha₃.inHand.trans hempty₂
  rw [← ha₃.queue] at h₃
  exact ⟨h₃.stable hs₃ hp₃ hempty₃, hempty₃⟩

/-- How a pump fails: with an error and nothing live, or because every request id is in use. -/
def PumpFailed (w : World) (lost : List Queued) (stop : Stop) (s' : Scheduler) : Prop :=
  (stop = .noFreeId ∧ i32Max ≤ w.nSlots) ∨ ((∃ error, stop = .error error) ∧ s'.live = [] ∧
    ∃ lost', Stable w lost' s' ∧ (lost = [] → lost' = []))

/-- A failed iteration fails every live request: a stable scheduler is left in any case. -/
theorem pump_spec (h : Stable w lost s) :
    wp (pump w) (fun _ s' => Stable w (s.inHand ++ lost) s' ∧ s'.inHand = [])
      (PumpFailed w (s.inHand ++ lost)) s := by
  unfold pump
  rw [wp_bind, wp_get, wp_bind, wp_get]
  dsimp only
  rw [wp_bind, wp_settle]
  refine wp_mono (stepOnce_spec h) ?_ ?_
  · rintro stepped s₁ h₁
    dsimp only
    rw [wp_bind, wp_get, wp_bind, wp_get]
    exact h₁
  · rintro stop s₁ (⟨rfl, hmany⟩ | ⟨⟨error, rfl⟩, lost', h₁, hlost⟩)
    · exact .inl ⟨rfl, hmany⟩
    dsimp only
    rw [wp_bind]
    refine wp_mono (failAll_spec error h₁) ?_ fun _ _ hf => hf
    rintro _ s₂ ⟨h₂, hidle, ha₂⟩
    refine .inr ⟨⟨error, rfl⟩, hidle, lost', ⟨?_, settled_of_idle hidle, peopled_of_idle hidle⟩,
      hlost⟩
    rw [ha₂.queue, ha₂.inHand]
    exact h₂

end Retrograd.Infer
