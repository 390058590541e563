import Retrograd.Infer.Finish

/-!
# Failing an iteration

A failed step is **rolled back**: every slot it touched is emptied. Whatever failed, every live
request is then told and its slot released, so that afterwards nothing is live and a slot is a
dormant node's or empty.
-/

namespace Retrograd.Infer

open Logic List Function

variable {w : World} {s s' s'' : Scheduler} {pending : List Queued} {g m : ℕ} {group : LiveGroup}
  {member : LiveMember} {H : List ℕ} {P : Labels}

/-! ### Releasing slots -/

variable {E : Stop → Scheduler → Prop}

/-- Releasing a held slot never fails, and empties it in a reliable world. -/
theorem release_spec {σ : ℕ} (h : Pool w H P s) (hσ : σ ∈ H) (hlt : σ < w.nSlots) :
    wp (release w σ) (fun _ s' => Pool w H P s' ∧ Beside s s' ∧
      s'.backend.activeAdapter = s.backend.activeAdapter ∧
      (∀ τ, s'.backend.slots τ = s.backend.slots τ ∨ s'.backend.slots τ = []) ∧
      (w.Reliable → s'.backend.slots σ = [])) E s := by
  unfold release
  rw [wp_bind]
  have hdone : ∀ s₁, Pool w H P s₁ → Beside s s₁ →
      s₁.backend.activeAdapter = s.backend.activeAdapter →
      (∀ τ, s₁.backend.slots τ = s.backend.slots τ ∨ s₁.backend.slots τ = []) →
      (w.Reliable → s₁.backend.slots σ = []) → wp (do
        let _ ← attempt (query w ())) (fun _ s' => Pool w H P s' ∧ Beside s s' ∧
      s'.backend.activeAdapter = s.backend.activeAdapter ∧
      (∀ τ, s'.backend.slots τ = s.backend.slots τ ∨ s'.backend.slots τ = []) ∧
      (w.Reliable → s'.backend.slots σ = [])) E s₁ := by
    intro s₁ h₁ hb hactive hslots hempty
    have hquiet : ∀ s₂, Quiet s₁ s₂ → Pool w H P s₂ ∧ Beside s s₂ ∧
        s₂.backend.activeAdapter = s.backend.activeAdapter ∧
        (∀ τ, s₂.backend.slots τ = s.backend.slots τ ∨ s₂.backend.slots τ = []) ∧
        (w.Reliable → s₂.backend.slots σ = []) := by
      intro s₂ hq
      refine ⟨h₁.quiet hq, hb.trans (Upkeep.quiet hq (H := H)).toBeside, ?_⟩
      obtain ⟨calls, rfl⟩ := hq
      exact ⟨hactive, hslots, hempty⟩
    rw [wp_bind]
    refine wp_attempt_call (wp_mono (query_spec ()) ?_ fun _ _ hf => hf) ?_
    · exact fun _ s₂ ⟨_, hq⟩ => hquiet s₂ hq
    · exact fun s₂ hq => hquiet s₂ hq
  refine wp_attempt (wp_mono (seqRm_spec hlt) ?_ ?_)
  · intro _ s₁ hq
    have hp := (h.withSlot hσ [] s.backend.nextCell).quiet hq
    obtain ⟨calls, rfl⟩ := hq
    refine hdone _ hp { Beside.refl s with } rfl (fun τ => ?_) fun _ => update_self ..
    by_cases hτ : τ = σ
    · exact .inr (by rw [hτ]; exact update_self ..)
    · exact .inl (update_of_ne hτ ..)
  · rintro stop s₁ ⟨⟨error, rfl⟩, hw, hq⟩
    refine hdone s₁ (h.quiet hq) (Upkeep.quiet hq (H := H)).toBeside ?_ ?_ fun hw' => absurd hw' hw
    · obtain ⟨calls, rfl⟩ := hq
      rfl
    · obtain ⟨calls, rfl⟩ := hq
      exact fun τ => .inl rfl

/-- Releasing a live member's slot keeps the invariant. -/
theorem release_live (h : Inv w pending s) (hat : LiveAt s g m group member) :
    wp (release w member.slot) (fun _ s' => Inv w pending s' ∧ s'.live = s.live ∧ Aside s s') E
      s := by
  obtain ⟨P, hp⟩ := h.pool
  refine wp_mono (release_spec hp hat.mem_slots (h.live.slots_lt _ hat.mem_slots)) ?_
    fun _ _ hf => hf
  rintro _ s₁ ⟨hp₁, hb, hactive, hslots, -⟩
  refine ⟨⟨⟨P, ?_⟩, h.live.emptied hb hactive fun τ _ => hslots τ, ?_, h.valid⟩, hb.live, hb.aside⟩
  · rw [Scheduler.liveSlots, hb.live]
    exact hp₁
  · rw [Scheduler.keys, hb.live, hb.streams, hb.nextStream]
    exact h.ledger

/-! ### Rolling a step back -/

/-- What a row of a plan belongs to, still there and live. -/
def RowKind.alive (s : Scheduler) : RowKind → Prop
  | .decode g m | .terminal g m => ∃ group member, LiveAt s g m group member
  | .prefill g _ _ => ∃ group leader, LiveAt s g group.leader group leader

theorem RowKind.alive_congr {kind : RowKind} (h : kind.alive s) (hlive : s'.live = s.live) :
    kind.alive s' := by
  have hat : ∀ {g m group member}, LiveAt s g m group member → LiveAt s' g m group member :=
    fun hat => { hat with atGroup := by rw [hlive]; exact hat.atGroup }
  cases kind with
  | decode g m | terminal g m =>
    obtain ⟨group, member, h⟩ := h
    exact ⟨group, member, hat h⟩
  | prefill g finish sampled =>
    obtain ⟨group, leader, h⟩ := h
    exact ⟨group, leader, hat h⟩

theorem rollback_spec (h : Inv w pending s) {plan : Plan} (hplan : ∀ row ∈ plan, row.2.alive s) :
    wp (rollback w plan) (fun _ s' => Inv w pending s' ∧ s'.live = s.live ∧ Aside s s') E s := by
  unfold rollback
  refine wp_forM (I := fun s' => Inv w pending s' ∧ s'.live = s.live ∧ Aside s s') ?_
    ⟨h, rfl, Aside.refl s⟩
  rintro ⟨row, kind⟩ hrow s₁ ⟨h₁, hlive₁, ha₁⟩
  have halive := RowKind.alive_congr (hplan _ hrow) hlive₁
  have hdone : ∀ {g m group member}, LiveAt s₁ g m group member →
      wp (release w member.slot) (fun _ s' => Inv w pending s' ∧ s'.live = s.live ∧ Aside s s') E
        s₁ := by
    intro g m group member hat
    refine wp_mono (release_live h₁ hat) ?_ fun _ _ hf => hf
    rintro _ s₂ ⟨h₂, hlive₂, ha₂⟩
    exact ⟨h₂, hlive₂.trans hlive₁, ha₁.trans ha₂⟩
  cases kind with
  | decode g m | terminal g m =>
    obtain ⟨group, member, hat⟩ := halive
    dsimp only
    rw [wp_bind, wp_groupAt hat.atGroup, wp_bind, wp_memberAt hat.atMember]
    exact hdone hat
  | prefill g finish sampled =>
    obtain ⟨group, leader, hat⟩ := halive
    dsimp only
    rw [wp_bind, wp_groupAt hat.atGroup, wp_bind, wp_memberAt hat.atMember]
    exact hdone hat

theorem classifyStepError_spec (error : InferError) (needed : ℕ) :
    wp (classifyStepError w error needed) (fun _ s' => Quiet s s') E s := by
  unfold classifyStepError
  split
  · rw [wp_bind]
    refine wp_attempt_call (wp_mono memory_spec ?_ fun _ _ hf => hf) ?_
    · rintro memory s₁ ⟨-, hq⟩
      exact hq
    · exact fun s₁ hq => hq
  · exact Quiet.refl s

/-! ### Failing every live request -/

/-- The invariant while live members are failed: the slots `L` are still to be released. -/
structure Failing (w : World) (pending : List Queued) (L : List ℕ) (s : Scheduler) : Prop where
  pool : ∃ P, Pool w (L ++ s.liveSlots) P s
  lt : ∀ σ ∈ L, σ < w.nSlots
  live : Live w s
  ledger : Ledger pending s.keys s.streams s.nextStream
  valid : ∀ q ∈ pending, q.request.validate = .ok ()

theorem Inv.failing (h : Inv w pending s) : Failing w pending [] s :=
  ⟨h.pool, nofun, h.live, h.ledger, h.valid⟩

theorem set_of_getElem? {α : Type} {l : List α} {i : ℕ} {x : α} (h : l[i]? = some x) :
    l.set i x = l := by
  obtain ⟨hi, rfl⟩ := List.getElem?_eq_some_iff.mp h
  exact set_getElem_self hi

/-- A live member is told the error, and gives its slot up for release. -/
theorem failMember_spec {L : List ℕ} (error : InferError) (h : Failing w pending L s)
    (hg : s.live[g]? = some group) (hm : group.members[m]? = some member) :
    wp (failMember w error g m) (fun slot s' => Failing w pending (slot.toList ++ L) s' ∧
      Aside s s' ∧ ∃ member', member'.live = false ∧
        s'.live = s.live.set g { group with members := group.members.set m member' }) E s := by
  unfold failMember
  rw [wp_bind, wp_groupAt hg, wp_bind, wp_memberAt hm, wp_ite]
  refine ⟨fun hdead => ⟨h, Aside.refl s, member, by simpa using hdead, ?_⟩, fun hlive => ?_⟩
  · rw [set_of_getElem? hm, set_of_getElem? hg]
  have hlive : member.live = true := by simpa using hlive
  have hat : LiveAt s g m group member := ⟨hg, hm, hlive⟩
  rw [hat.events h.live]
  dsimp only
  rw [wp_bind]
  refine wp_mono (sendBounded_spec _ _) ?_ fun _ _ hf => hf
  rintro taken s₁ ⟨st, reads, ho, rfl⟩
  rw [wp_bind, wp_modify, wp_pure]
  obtain ⟨member', hmember'⟩ : ∃ member' : LiveMember,
      member' = { member with events := none, live := false } := ⟨_, rfl⟩
  have hset : (s.withStream member.cancelled st reads).setMember g m
      (fun member => { member with events := none, live := false })
      = { s.withStream member.cancelled st reads with
        live := s.live.set g { group with members := group.members.set m member' } } := by
    rw [Scheduler.setMember, Scheduler.setGroup]
    show ({ s.withStream member.cancelled st reads with live := s.live.modify g _ } : Scheduler) = _
    rw [modify_eq_set hg rfl, modify_eq_set hm hmember'.symm]
  rw [hset]
  refine ⟨?_, ⟨rfl, rfl, rfl, rfl, rfl, rfl⟩, member', by rw [hmember'], rfl⟩
  obtain ⟨P, hp⟩ := h.pool
  obtain ⟨f, hf⟩ : ∃ f : LiveGroup → LiveGroup, f = fun _ =>
      { group with members := group.members.set m member' } := ⟨_, rfl⟩
  have hmodify : s.live.set g { group with members := group.members.set m member' }
      = s.live.modify g f := (modify_eq_set hg (by rw [hf])).symm
  have hmembers : (f group).members = group.members.modify m fun _ => member' := by
    rw [hf]
    exact (modify_eq_set (f := fun _ => member') hm rfl).symm
  have hperm : (member :: liveOf (s.live.modify g f)).Perm (liveOf s.live) :=
    liveOf_kill hg hm hlive hmembers (by rw [hmember'])
  have hslots := hperm.map LiveMember.slot
  have hshape : MemberShape group member' := by
    have := hat.shape h.live
    rw [hmember']
    exact { this with events := rfl, generated_le := fun h => by cases h }
  have hkill := h.live.kill hat (f := f) (by rw [hf]; exact ⟨rfl, rfl, rfl, rfl⟩)
    (by rw [hf]) hmembers hshape (by rw [hmember'])
  rw [hmodify]
  constructor
  case valid => exact h.valid
  case live => exact { hkill with }
  case lt =>
    intro σ hσ
    rcases mem_cons.mp hσ with rfl | hσ
    · exact h.live.slots_lt _ hat.mem_slots
    · exact h.lt σ hσ
  case pool =>
    refine ⟨P, ?_⟩
    have hp₁ : Pool w (member.slot :: L ++ (liveOf (s.live.modify g f)).map LiveMember.slot) P
        { s with live := s.live.modify g f } := by
      refine Pool.held (H := L ++ s.liveSlots) ?_ fun σ => ?_
      · refine hp.setLive (exists_modify fun group' hg' => ?_)
        rw [hg] at hg'
        cases hg'
        rw [hf]
      · have hmem := hslots.mem_iff (a := σ)
        rw [map_cons, mem_cons] at hmem
        simp only [cons_append, mem_cons, mem_append, Scheduler.liveSlots]
        tauto
    exact hp₁.congr rfl rfl rfl rfl rfl rfl (hp₁.rows.congr rfl rfl rfl rfl rfl)
  case ledger =>
    have hkeys : (member.key :: (liveOf (s.live.modify g f)).map LiveMember.key).Perm s.keys :=
      hperm.map LiveMember.key
    exact (h.ledger.perm (Perm.refl _) hkeys).fail ho

/-- Failing the members at all indices leaves none of them live. -/
theorem failMembers_spec (error : InferError) (indices : List (ℕ × ℕ)) :
    ∀ {L : List ℕ} {s : Scheduler}, Failing w pending L s →
    (∀ i ∈ indices, ∃ group member, s.live[i.1]? = some group ∧
      group.members[i.2]? = some member) →
    (∀ g m group member, LiveAt s g m group member → (g, m) ∈ indices) →
    wp (failMembers w error indices) (fun slots s' => Failing w pending (slots ++ L) s' ∧
      Aside s s' ∧ liveOf s'.live = []) E s := by
  induction indices with
  | nil =>
    intro L s h _ hall
    refine ⟨h, Aside.refl s, eq_nil_iff_forall_not_mem.mpr fun member hmem => ?_⟩
    obtain ⟨group, hg, hm, hlive⟩ := mem_liveOf.mp hmem
    obtain ⟨g, hg⟩ := mem_iff_getElem?.mp hg
    obtain ⟨m, hm⟩ := mem_iff_getElem?.mp hm
    exact not_mem_nil (hall g m group member ⟨hg, hm, hlive⟩)
  | cons index indices ih =>
    intro L s h hindices hall
    obtain ⟨g, m⟩ := index
    obtain ⟨group, member, hg, hm⟩ := hindices (g, m) mem_cons_self
    unfold failMembers
    rw [wp_bind]
    refine wp_mono (failMember_spec error h hg hm) ?_ fun _ _ hf => hf
    rintro slot s₁ ⟨h₁, ha₁, member', hdead, hlive₁⟩
    rw [wp_bind]
    refine wp_mono (ih h₁ ?_ ?_) ?_ fun _ _ hf => hf
    · rintro ⟨g', m'⟩ hmem
      obtain ⟨group', member'', hg', hm'⟩ := hindices (g', m') (mem_cons_of_mem _ hmem)
      dsimp only at hg' hm' ⊢
      rw [hlive₁]
      by_cases hgg : g' = g
      · subst hgg
        rw [hg] at hg'
        cases hg'
        have hlt := (List.getElem?_eq_some_iff.mp hg).1
        have hlt' := (List.getElem?_eq_some_iff.mp hm').1
        refine ⟨_, _, getElem?_set_self hlt, getElem?_eq_getElem ?_⟩
        rw [length_set]
        exact hlt'
      · exact ⟨group', member'', by rw [getElem?_set_ne (Ne.symm hgg), hg'], hm'⟩
    · intro g' m' group' member'' hat
      have hin : (g', m') ∈ (g, m) :: indices := by
        by_cases hgg : g' = g
        · subst hgg
          have hat' := hat.atGroup
          rw [hlive₁, getElem?_set_self (List.getElem?_eq_some_iff.mp hg).1] at hat'
          cases hat'
          by_cases hmm : m' = m
          · rw [hmm]
            exact mem_cons_self
          · refine hall g' m' group member'' ⟨hg, ?_, hat.live⟩
            rw [← hat.atMember, getElem?_set_ne (Ne.symm hmm)]
        · refine hall g' m' group' member'' ⟨?_, hat.atMember, hat.live⟩
          rw [← hat.atGroup, hlive₁, getElem?_set_ne (Ne.symm hgg)]
      rcases mem_cons.mp hin with heq | hmem
      · exfalso
        cases heq
        have hat' := hat.atGroup
        rw [hlive₁, getElem?_set_self (List.getElem?_eq_some_iff.mp hg).1] at hat'
        cases hat'
        have hatm := hat.atMember
        rw [getElem?_set_self (List.getElem?_eq_some_iff.mp hm).1] at hatm
        cases hatm
        exact Bool.false_ne_true (hdead.symm.trans hat.live)
      · exact hmem
    · rintro slots s₂ ⟨h₂, ha₂, hnone⟩
      refine ⟨{ h₂ with pool := ?_, lt := ?_ }, ha₁.trans ha₂, hnone⟩
      · obtain ⟨P, hp⟩ := h₂.pool
        refine ⟨P, hp.held fun σ => ?_⟩
        simp only [mem_append]
        tauto
      · intro σ hσ
        refine h₂.lt σ ?_
        simp only [mem_append] at hσ ⊢
        tauto

theorem mem_memberIndices {live : List LiveGroup} {i : ℕ × ℕ} : i ∈ memberIndices live ↔
    ∃ group, live[i.1]? = some group ∧ i.2 < group.members.length := by
  unfold memberIndices
  simp only [mem_flatMap, mem_map, mem_range, Prod.exists, mem_zipIdx_iff_getElem?]
  constructor
  · rintro ⟨group, g, hg, m, hm, rfl⟩
    exact ⟨group, hg, hm⟩
  · rintro ⟨group, hg, hm⟩
    exact ⟨group, i.1, hg, i.2, hm, rfl⟩

/-- Whatever failed, afterwards nothing is live and every stream of a live member was told. -/
theorem failAll_spec (error : InferError) (h : Inv w pending s) :
    wp (failAll w error) (fun _ s' => Inv w pending s' ∧ s'.live = [] ∧ Aside s s') E s := by
  unfold failAll
  rw [wp_bind, wp_get, wp_bind]
  refine wp_mono (failMembers_spec error _ h.failing ?_ ?_) ?_ fun _ _ hf => hf
  · intro i hi
    obtain ⟨group, hg, hm⟩ := mem_memberIndices.mp hi
    exact ⟨group, _, hg, getElem?_eq_getElem hm⟩
  · intro g m group member hat
    exact mem_memberIndices.mpr ⟨group, hat.atGroup, (List.getElem?_eq_some_iff.mp hat.atMember).1⟩
  rintro slots s₁ ⟨h₁, ha₁, hnone⟩
  rw [append_nil] at h₁
  obtain ⟨P, hp⟩ := h₁.pool
  rw [Scheduler.liveSlots, hnone, map_nil, append_nil] at hp
  rw [wp_bind]
  refine wp_mono (wp_forM_list (fun rest s₂ => (∀ σ ∈ rest, σ ∈ slots) ∧ Pool w slots P s₂ ∧
    Beside s₁ s₂ ∧ (w.Reliable → ∀ σ ∈ slots, σ ∈ rest ∨ s₂.backend.slots σ = [])) ?_
    ⟨fun _ => id, hp, Beside.refl s₁, fun _ σ hσ => .inl hσ⟩) ?_ fun _ _ hf => hf
  · rintro σ rest s₂ ⟨hsub, hp₂, hb₂, hempty⟩
    have hσ := hsub σ mem_cons_self
    refine wp_mono (release_spec hp₂ hσ (h₁.lt σ hσ)) ?_ fun _ _ hf => hf
    rintro _ s₃ ⟨hp₃, hb₃, -, hslots, hgone⟩
    refine ⟨fun τ hτ => hsub τ (mem_cons_of_mem _ hτ), hp₃, hb₂.trans hb₃, fun hw τ hτ => ?_⟩
    by_cases hτσ : τ = σ
    · rw [hτσ]
      exact .inr (hgone hw)
    · rcases hempty hw τ hτ with hmem | hnil
      · exact .inl ((mem_cons.mp hmem).resolve_left hτσ)
      · refine .inr ?_
        rcases hslots τ with heq | heq
        · rw [heq, hnil]
        · exact heq
  rintro _ s₂ ⟨-, hp₂, hb₂, hempty⟩
  rw [wp_modify]
  have hnil : liveOf ([] : List LiveGroup) = [] := rfl
  refine ⟨⟨⟨P, ?_⟩, ?_, ?_, h₁.valid⟩, rfl, ha₁.trans (hb₂.aside.trans ⟨rfl, rfl, rfl, rfl, rfl, rfl⟩)⟩
  · show Pool w [] P _
    refine Pool.setLive (Pool.release (L := slots) ?_ fun hw σ hσ _ => ?_)
      fun _ h => (not_mem_nil h).elim
    · rw [append_nil]
      exact hp₂
    · exact (hempty hw σ hσ).resolve_left not_mem_nil
  · have hlive := h₁.live
    exact {
      slots_nodup := nodup_nil
      slots_lt := fun _ h => (not_mem_nil h).elim
      ids_nodup := nodup_nil
      ids_range := fun _ h => (not_mem_nil h).elim
      next_range := by
        show 0 < s₂.nextRequestId ∧ s₂.nextRequestId ≤ i32Max
        rw [hb₂.nextRequestId]
        exact hlive.next_range
      next_free := not_mem_nil
      shape := fun _ h => (not_mem_nil h).elim
      content := fun _ _ h => (not_mem_nil h).elim }
  · show Ledger pending [] s₂.streams s₂.nextStream
    rw [hb₂.streams, hb₂.nextStream]
    have hledger := h₁.ledger
    rw [Scheduler.keys, hnone] at hledger
    exact hledger

end Retrograd.Infer
