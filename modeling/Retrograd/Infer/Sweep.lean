import Retrograd.Infer.Sync

/-!
# Removing cancelled members

At the start of an iteration every cancelled member ends. When the leader of a prefilling group
is among them, its prefix is **moved to another member** first, so that what was prefilled is not
lost with it. Afterwards the groups are as sound as before.
-/

namespace Retrograd.Infer

open Logic List

variable {w : World} {s s' : Scheduler} {pending : List Queued} {g m : ℕ} {group : LiveGroup}
  {member : LiveMember}

/-- How a program that keeps the invariant fails: with an error, whatever else it did. -/
def Broken (w : World) (pending : List Queued) (s : Scheduler) (stop : Stop) (s' : Scheduler) :
    Prop :=
  (∃ error, stop = .error error) ∧ Inv w pending s' ∧ Aside s s'

theorem Broken.trans {s'' : Scheduler} {stop : Stop} (ha : Aside s s')
    (h : Broken w pending s' stop s'') : Broken w pending s stop s'' :=
  ⟨h.1, h.2.1, ha.trans h.2.2⟩

theorem QuietFails.broken {stop : Stop} (h : Inv w pending s) (hf : QuietFails w s stop s') :
    Broken w pending s stop s' :=
  ⟨hf.1, h.quiet hf.2.2, hf.2.2.aside⟩

/-! ### Replacing a leader -/

theorem replacement_spec {m : ℕ} (h : replacement s group = some m) :
    ∃ member, group.members[m]? = some member ∧ member.live = true ∧
      (s.streams member.cancelled).cancelled = false := by
  unfold replacement at h
  obtain ⟨hlt, hm, -⟩ := findIdx?_eq_some_iff_getElem.mp h
  rw [Bool.and_eq_true, Bool.not_eq_true'] at hm
  exact ⟨_, getElem?_eq_getElem hlt, hm⟩

theorem not_cancelled_of_replacement (h : replacement s group = none) (hm : member ∈ group.members)
    (hlive : member.live = true) : (s.streams member.cancelled).cancelled = true := by
  unfold replacement at h
  have hnone := findIdx?_eq_none_iff.mp h member hm
  simpa [hlive] using hnone

theorem mem_cancelledMembers : m ∈ cancelledMembers s group ↔
    ∃ member, group.members[m]? = some member ∧ member.live = true ∧
      (s.streams member.cancelled).cancelled = true := by
  unfold cancelledMembers
  simp only [mem_filterMap, Prod.exists, mem_zipIdx_iff_getElem?, Bool.and_eq_true,
    Option.ite_none_right_eq_some, Option.some.injEq]
  constructor
  · rintro ⟨member, i, hi, hc, rfl⟩
    exact ⟨member, hi, hc⟩
  · rintro ⟨member, hm, hc⟩
    exact ⟨member, m, hm, hc, rfl⟩

/-- Indices kept from an indexed list stay in order. -/
theorem filterMap_sublist_range {α : Type} {l : List α} {i : ℕ} {f : α × ℕ → Option ℕ}
    (hf : ∀ x j, f x = some j → j = x.2) :
    ((l.zipIdx i).filterMap f).Sublist (List.range' i l.length) := by
  induction l generalizing i with
  | nil => exact Sublist.refl _
  | cons a l ih =>
    rw [zipIdx_cons, filterMap_cons, length_cons, range'_succ]
    cases hfa : f (a, i) with
    | none => exact ih.cons _
    | some j =>
      rw [hf _ j hfa]
      exact ih.cons_cons _

theorem nodup_cancelledMembers (s : Scheduler) (group : LiveGroup) :
    (cancelledMembers s group).Nodup := by
  refine Nodup.sublist (filterMap_sublist_range fun x j hj => ?_) nodup_range'
  dsimp only at hj
  split at hj <;> cases hj
  rfl

/-- Members may be marked as leaving unless they leave a prefilling group its leader owes. -/
theorem GroupOk.leave {leaving : List ℕ} {extra : ℕ → ℕ} (h : GroupOk w s group [] extra)
    (hleader : ∀ pos, group.phase = .prefill pos → ∀ m member, group.members[m]? = some member →
      member.live = true → m ∉ leaving → group.leader ∉ leaving) :
    GroupOk w s group leaving extra where
  more := h.more
  phase := by
    have hphase := h.phase
    unfold PhaseOk at hphase ⊢
    split at hphase
    · next pos hpos =>
      obtain ⟨hle, hl, hgenerated⟩ := hphase
      exact ⟨hle, fun m member hm hlive hstays => ⟨hleader pos hpos m member hm hlive hstays,
        (hl m member hm hlive not_mem_nil).2⟩, hgenerated⟩
    · exact hphase
    · exact hphase
  synced hw m member hm hlive _ := h.synced hw m member hm hlive not_mem_nil

/-- The members of one group that are leaving. -/
def onlyAt (g : ℕ) (leaving : List ℕ) (i : ℕ) : List ℕ := if i = g then leaving else []

/-- What copying a slot to another leaves alone. -/
structure Copied (σ : ℕ) (s s' : Scheduler) : Prop where
  aside : Aside s s'
  live : s'.live = s.live
  streams : s'.streams = s.streams
  others : ∀ τ, τ ≠ σ → s'.backend.slots τ = s.backend.slots τ

/-- Copying the leader's prefix into the empty slot of another member of its group. -/
theorem copyPrefix_spec {n : ℕ} {leader : LiveMember} (h : Inv w pending s)
    (hat : LiveAt s g m group member) (hleader : LiveAt s g group.leader group leader)
    (hpos : 0 < n) (hprompt : n ≤ group.prompt.length)
    (hlen : w.Reliable → (s.backend.slots leader.slot).length = n)
    (hempty : w.Reliable → s.backend.slots member.slot = []) :
    wp (seqCp w leader.slot member.slot none) (fun _ s' => Inv w pending s' ∧
      Copied member.slot s s' ∧ (w.Reliable → (s'.backend.slots member.slot).length = n))
      (Broken w pending s) s := by
  refine wp_mono (seqCp_spec (h.live.slots_lt _ hleader.mem_slots)
    (h.live.slots_lt _ hat.mem_slots) (by simp) fun hw => ⟨fun hnil => ?_, hempty hw⟩) ?_
    fun _ _ hf => hf.broken h
  · have := hlen hw
    rw [hnil, length_nil] at this
    omega
  rintro _ s₁ ⟨cells, next, hq, hcells, -⟩
  have hcells : contents cells = contents (s.backend.slots leader.slot) := hcells
  have h₁ : Inv w pending s₁ := by
    refine Inv.quiet (h.withSlot hat (fun hw => ⟨n, ?_⟩) next) hq
    have hheld := h.live.content hw group (mem_of_getElem? hat.atGroup) leader
      (mem_of_getElem? hleader.atMember) hleader.live
    rw [hcells, hheld.contents (hlen hw), take_append_of_le_length hprompt,
      take_append_of_le_length hprompt]
  have haside : Aside s (s.withSlot member.slot cells next) := ⟨rfl, rfl, rfl, rfl, rfl, rfl⟩
  have hslots₁ : ∀ τ, s₁.backend.slots τ
      = (s.withSlot member.slot cells next).backend.slots τ := by
    obtain ⟨calls, rfl⟩ := hq
    exact fun _ => rfl
  refine ⟨h₁, ⟨haside.trans hq.aside, ?_, ?_, fun τ hτ => ?_⟩, fun hw => ?_⟩
  · obtain ⟨calls, rfl⟩ := hq
    rfl
  · obtain ⟨calls, rfl⟩ := hq
    rfl
  · rw [hslots₁, withSlot_slots, if_neg hτ]
  · rw [hslots₁, withSlot_slots, if_pos rfl, ← length_contents, hcells, length_contents, hlen hw]

/-- The prefix of a cancelled leader is copied to another member, which leads from then on. -/
private theorem replaceLeader_copy {pos : ℕ} {leader : LiveMember} (h : Inv w pending s)
    (hs : Settled w s) (hphase : group.phase = .prefill pos) (hat : LiveAt s g m group member)
    (hne : m ≠ group.leader) (hleader : LiveAt s g group.leader group leader)
    (hcancelled : (s.streams leader.cancelled).cancelled = true)
    (hstays : (s.streams member.cancelled).cancelled = false) :
    wp (do
      if 0 < pos then seqCp w leader.slot member.slot none
      modify fun s => s.setGroup g fun group => { group with leader := m })
      (fun _ s' => Inv w pending s' ∧ Aside s s' ∧
        s'.live.length = s.live.length ∧ ∃ group', s'.live[g]? = some group' ∧
          Sound w s' (onlyAt g (cancelledMembers s' group')) fun _ _ => 0)
      (Broken w pending s) s := by
  have hok : GroupOk w s group [] fun _ => 0 := hs group (mem_of_getElem? hat.atGroup)
  have hprefill := hok.phase
  unfold PhaseOk at hprefill
  rw [hphase] at hprefill
  obtain ⟨hpos, -, hgenerated⟩ := hprefill
  have hdone : ∀ s₁, Inv w pending s₁ → Aside s s₁ → s₁.live = s.live → s₁.streams = s.streams →
      (∀ g' m' group' member', LiveAt s g' m' group' member' → (g', m') ≠ (g, m) →
        s₁.backend.slots member'.slot = s.backend.slots member'.slot) →
      (w.Reliable → (s₁.backend.slots member.slot).length = pos) →
      Inv w pending (s₁.setGroup g fun group => { group with leader := m }) ∧
        Aside s (s₁.setGroup g fun group => { group with leader := m }) ∧
        (s₁.setGroup g fun group => { group with leader := m }).live.length = s.live.length ∧
        ∃ group', (s₁.setGroup g fun group => { group with leader := m }).live[g]? = some group' ∧
          Sound w (s₁.setGroup g fun group => { group with leader := m })
            (onlyAt g (cancelledMembers (s₁.setGroup g fun group => { group with leader := m })
              group')) fun _ _ => 0 := by
    intro s₁ h₁ ha₁ hlive₁ hstreams₁ hslots₁ hlen₁
    have hg₁ : s₁.live[g]? = some group := by rw [hlive₁]; exact hat.atGroup
    have hlt := (List.getElem?_eq_some_iff.mp hat.atMember).1
    refine ⟨h₁.regroup hg₁ ⟨rfl, rfl, rfl, rfl⟩ hlt rfl, ha₁.trans ⟨rfl, rfl, rfl, rfl, rfl, rfl⟩,
      ?_, { group with leader := m }, setGroup_getElem? hg₁, ?_⟩
    · show (s₁.live.modify g _).length = _
      rw [length_modify, hlive₁]
    refine (settled_iff.mp hs).update (g := g) (fun i hig => ?_) (fun i m' group' member' hig hx =>
      hslots₁ i m' group' member' hx (by simp [hig])) (fun i hig => ⟨if_neg hig, rfl⟩) ?_
    · show (s₁.live.modify g _)[i]? = _
      rw [getElem?_modify, hlive₁]
      simp [Ne.symm hig]
    intro group' hg'
    rw [setGroup_getElem? hg₁] at hg'
    cases hg'
    rw [onlyAt, if_pos rfl]
    have hnot : m ∉ cancelledMembers (s₁.setGroup g fun group => { group with leader := m })
        { group with leader := m } := by
      intro hmem
      obtain ⟨member', hm', -, hc⟩ := mem_cancelledMembers.mp hmem
      have hm' : group.members[m]? = some member' := hm'
      rw [hat.atMember] at hm'
      cases hm'
      have hc : (s₁.streams member.cancelled).cancelled = true := hc
      rw [hstreams₁, hstays] at hc
      cases hc
    constructor
    case more => exact hok.more
    case phase =>
      unfold PhaseOk
      simp only [hphase]
      exact ⟨hpos, fun _ _ _ _ _ => ⟨hnot, member, hat.atMember, hat.live⟩, hgenerated⟩
    case synced =>
      intro hw m' member' hm' hlive' hleaving
      have hm' : group.members[m']? = some member' := hm'
      have hat' : LiveAt s g m' group member' := ⟨hat.atGroup, hm', hlive'⟩
      show (s₁.backend.slots member'.slot).length = _
      simp only [LiveGroup.residentLen, hphase]
      by_cases hmm : m' = m
      · subst hmm
        rw [hat.atMember] at hm'
        cases hm'
        rw [hlen₁ hw, if_pos rfl, Nat.add_zero]
      · rw [hslots₁ g m' group member' hat' (by simp [hmm]), if_neg hmm,
          hok.synced hw m' member' hm' hlive' not_mem_nil, LiveGroup.residentLen, hphase]
        -- the old leader holds the prefix, but it is cancelled
        refine congrArg (· + 0) (if_neg ?_)
        rintro rfl
        rw [hleader.atMember] at hm'
        cases hm'
        refine hleaving (mem_cancelledMembers.mpr ⟨leader, hleader.atMember, hleader.live, ?_⟩)
        show (s₁.streams leader.cancelled).cancelled = true
        rw [hstreams₁, hcancelled]
  dsimp only
  rw [wp_ite]
  refine ⟨fun hzero => ?_, fun hzero => ?_⟩
  swap
  · rw [wp_modify]
    refine hdone s h (Aside.refl s) rfl rfl (fun _ _ _ _ _ _ => rfl) fun hw => ?_
    rw [hok.synced hw m member hat.atMember hat.live not_mem_nil, LiveGroup.residentLen,
      hphase]
    simp only [if_neg hne]
    omega
  have hlen : w.Reliable → (s.backend.slots leader.slot).length = pos := fun hw => by
    rw [hok.synced hw _ leader hleader.atMember hleader.live not_mem_nil,
      LiveGroup.residentLen, hphase]
    simp
  have hempty : w.Reliable → s.backend.slots member.slot = [] := fun hw => by
    rw [← length_eq_zero_iff,
      hok.synced hw m member hat.atMember hat.live not_mem_nil, LiveGroup.residentLen, hphase]
    simp [hne]
  rw [wp_bind]
  have hshape := h.live.shape group (mem_of_getElem? hat.atGroup)
  have hprefix : pos ≤ group.prompt.length := by
    have := hshape.prefixEnd
    split at this <;> omega
  refine wp_mono (copyPrefix_spec h hat hleader hzero hprefix hlen hempty) ?_ fun _ _ hf => hf
  rintro _ s₁ ⟨h₁, hcopied, hlen₁⟩
  rw [wp_modify]
  exact hdone s₁ h₁ hcopied.aside hcopied.live hcopied.streams (fun g' m' group' member' hx hne' =>
    hcopied.others _ (hat.slot_ne h.live hx hne')) hlen₁

/-- After its leader was replaced, a group is sound without its cancelled members. -/
theorem replaceLeader_spec (h : Inv w pending s) (hs : Settled w s)
    (hg : s.live[g]? = some group) :
    wp (replaceLeader w g) (fun _ s' => Inv w pending s' ∧ Aside s s' ∧
      s'.live.length = s.live.length ∧ ∃ group', s'.live[g]? = some group' ∧
        Sound w s' (onlyAt g (cancelledMembers s' group')) fun _ _ => 0)
      (Broken w pending s) s := by
  have hsound := settled_iff.mp hs
  have hok : GroupOk w s group [] fun _ => 0 := hs group (mem_of_getElem? hg)
  have hother : ∀ L i, i ≠ g → onlyAt g L i = [] ∧ (fun _ : ℕ => 0) = fun _ => 0 :=
    fun L i hig => ⟨if_neg hig, rfl⟩
  have hself : ∀ L, onlyAt g L g = L := fun L => if_pos rfl
  have hkeep : (∀ pos, group.phase = .prefill pos → ∀ m member, group.members[m]? = some member →
      member.live = true → m ∉ cancelledMembers s group →
      group.leader ∉ cancelledMembers s group) →
      Inv w pending s ∧ Aside s s ∧ s.live.length = s.live.length ∧
      ∃ group', s.live[g]? = some group' ∧
        Sound w s (onlyAt g (cancelledMembers s group')) fun _ _ => 0 := by
    intro hleader
    refine ⟨h, Aside.refl s, rfl, group, hg, ?_⟩
    refine hsound.update (fun _ _ => rfl) (fun _ _ _ _ _ _ => rfl) (hother _) fun group' hg' => ?_
    rw [hg] at hg'
    cases hg'
    rw [hself]
    exact hok.leave hleader
  unfold replaceLeader
  rw [wp_bind, wp_groupAt hg]
  cases hphase : group.phase with
  | terminal next | decode => exact hkeep fun pos hpos => by rw [hphase] at hpos; cases hpos
  | prefill pos =>
    have hshape := h.live.shape group (mem_of_getElem? hg)
    obtain ⟨leader, hleader⟩ : ∃ leader, group.members[group.leader]? = some leader :=
      ⟨_, getElem?_eq_getElem hshape.leader_lt⟩
    dsimp only
    rw [wp_bind, wp_memberAt hleader, wp_bind]
    unfold isCancelled
    simp only [wp_bind, wp_get, wp_pure]
    rw [wp_ite]
    refine ⟨fun hcancelled => ?_, fun hcancelled => hkeep fun _ _ m member hm hlive hstays => ?_⟩
    swap
    · rintro hmem
      obtain ⟨leader', hleader', -, hc⟩ := mem_cancelledMembers.mp hmem
      rw [hleader] at hleader'
      cases hleader'
      exact hcancelled hc
    rw [wp_bind, wp_get]
    cases hreplacement : replacement s group with
    | none =>
      refine hkeep fun _ _ m member hm hlive hstays => absurd ?_ hstays
      exact mem_cancelledMembers.mpr ⟨member, hm, hlive,
        not_cancelled_of_replacement hreplacement (mem_of_getElem? hm) hlive⟩
    | some m =>
      obtain ⟨member, hm, hlive, hstays⟩ := replacement_spec hreplacement
      have hat : LiveAt s g m group member := ⟨hg, hm, hlive⟩
      have hne : m ≠ group.leader := by
        rintro rfl
        rw [hleader] at hm
        cases hm
        rw [hcancelled] at hstays
        cases hstays
      have hprefill := hok.phase
      unfold PhaseOk at hprefill
      rw [hphase] at hprefill
      obtain ⟨hpos, hleads, hgenerated⟩ := hprefill
      obtain ⟨-, leader', hleader', hlive'⟩ := hleads m member hm hlive not_mem_nil
      rw [hleader] at hleader'
      cases hleader'
      dsimp only
      rw [wp_bind, wp_memberAt hm]
      exact replaceLeader_copy h hs hphase hat hne ⟨hg, hleader, hlive'⟩ hcancelled hstays

/-! ### Ending the cancelled members -/

/-- Moving a member cancels at most its own request. -/
theorem Moved.cancelled {member' : LiveMember} (h : Moved g m group member member' s s') {id : ℕ}
    (hid : (s.streams id).cancelled = true) : (s'.streams id).cancelled = true := by
  obtain ⟨st, hst, hf⟩ := h.frame
  rw [hf.streams]
  show (Function.update s.streams member.cancelled st id).cancelled = true
  rw [Function.update_apply]
  split
  · next heq => exact hst (heq ▸ hid)
  · exact hid

/-- Members of a group that are live and cancelled. -/
def Doomed (s : Scheduler) (group : LiveGroup) (leaving : List ℕ) : Prop :=
  ∀ m ∈ leaving, ∃ member, group.members[m]? = some member ∧ member.live = true ∧
    (s.streams member.cancelled).cancelled = true

/-- Ending every cancelled member of a group leaves the group sound. -/
theorem finishCancelled_spec (leaving : List ℕ) (h : Inv w pending s)
    (hg : s.live[g]? = some group) (hnodup : leaving.Nodup) (hdoomed : Doomed s group leaving)
    (hs : Sound w s (onlyAt g leaving) fun _ _ => 0) :
    wp (leaving.forM fun m => finishMember w g m .cancelled) (fun _ s' => Inv w pending s' ∧
      Aside s s' ∧ s'.live.length = s.live.length ∧ Settled w s') (Broken w pending s) s := by
  refine wp_mono (wp_forM_list (fun rest s' => rest.Nodup ∧ Inv w pending s' ∧ Aside s s' ∧
    s'.live.length = s.live.length ∧ ∃ group', s'.live[g]? = some group' ∧
      Doomed s' group' rest ∧ Sound w s' (onlyAt g rest) fun _ _ => 0) ?_
    ⟨hnodup, h, Aside.refl s, rfl, group, hg, hdoomed, hs⟩) ?_ fun _ _ hf => hf
  · rintro m rest s₁ ⟨hnodup₁, h₁, ha₁, hlen₁, group₁, hg₁, hdoomed₁, hs₁⟩
    obtain ⟨member, hm, hlive, hcancelled⟩ := hdoomed₁ m mem_cons_self
    have hat : LiveAt s₁ g m group₁ member := ⟨hg₁, hm, hlive⟩
    refine wp_mono (finishMember_spec h₁ hat fun _ => h₁.ledger.cancelled _ hcancelled) ?_ ?_
    · rintro _ s₂ ⟨h₂, hmoved⟩
      refine ⟨hnodup₁.of_cons, h₂, ha₁.trans hmoved.aside, hmoved.length.trans hlen₁, _,
        hmoved.getElem?_self hat, fun m' hm' => ?_, ?_⟩
      · obtain ⟨member', hmember', hlive', hcancelled'⟩ :=
          hdoomed₁ m' (mem_cons_of_mem m hm')
        have hne : m ≠ m' := fun heq => (nodup_cons.mp hnodup₁).1 (heq ▸ hm')
        refine ⟨member', ?_, hlive', hmoved.cancelled hcancelled'⟩
        show (group₁.members.set m member.ended)[m']? = some member'
        rw [getElem?_set_ne hne, hmember']
      · refine hs₁.moved hat hmoved (fun i hig => ⟨?_, rfl⟩) ?_
        · rw [onlyAt, onlyAt, if_neg hig, if_neg hig]
        · have hok := hs₁ g group₁ hg₁
          rw [onlyAt, if_pos rfl] at hok ⊢
          exact hok.ended hat hmoved
    · rintro stop s₂ ⟨herror, h₂, hmoved⟩
      exact ⟨herror, h₂, ha₁.trans hmoved.aside⟩
  · rintro _ s₁ ⟨-, h₁, ha₁, hlen₁, -, -, -, hs₁⟩
    refine ⟨h₁, ha₁, hlen₁, settled_iff.mpr ?_⟩
    have hnil : onlyAt g [] = fun _ => [] := funext fun i => ite_self []
    rwa [hnil] at hs₁

/-- Groups without live members are dropped without any effect on the others. -/
theorem Inv.dropFinished (h : Inv w pending s) : Inv w pending { s with
    live := s.live.filter fun group => group.members.any LiveMember.live } := by
  obtain ⟨P, hp⟩ := h.pool
  have hsame := liveOf_filter s.live
  constructor
  case pool =>
    refine ⟨P, ?_⟩
    show Pool w ((liveOf (s.live.filter _)).map LiveMember.slot) P _
    rw [hsame]
    exact hp.setLive fun group hg => ⟨group, (mem_filter.mp hg).1, rfl⟩
  case live =>
    refine h.live.setLive (by rw [hsame]) (by rw [hsame]) (fun group hg => ?_)
      fun hw group hg => ?_
    · exact h.live.shape group (mem_filter.mp hg).1
    · exact h.live.content hw group (mem_filter.mp hg).1
  case ledger =>
    show Ledger pending ((liveOf (s.live.filter _)).map LiveMember.key) _ _
    rw [hsame]
    exact h.ledger
  case valid => exact h.valid

theorem Settled.dropFinished (h : Settled w s) : Settled w { s with
    live := s.live.filter fun group => group.members.any LiveMember.live } :=
  fun group hg => (h group (mem_filter.mp hg).1).congr fun _ _ _ => rfl

theorem peopled_dropFinished (s : Scheduler) : Peopled { s with
    live := s.live.filter fun group => group.members.any LiveMember.live } :=
  fun _ hg => any_eq_true.mp (mem_filter.mp hg).2

/-- Removing the cancelled members keeps the invariant and what is settled. -/
theorem removeCancelled_spec (h : Inv w pending s) (hs : Settled w s) :
    wp (removeCancelled w) (fun _ s' => Inv w pending s' ∧ Aside s s' ∧ Settled w s' ∧ Peopled s')
      (Broken w pending s) s := by
  unfold removeCancelled
  rw [wp_bind, wp_get, wp_bind]
  refine wp_mono (wp_forM (I := fun s' => Inv w pending s' ∧ Aside s s' ∧
    s'.live.length = s.live.length ∧ Settled w s') ?_ ⟨h, Aside.refl s, rfl, hs⟩) ?_
    fun _ _ hf => hf
  · rintro g hg s₁ ⟨h₁, ha₁, hlen₁, hs₁⟩
    obtain ⟨group, hgroup⟩ : ∃ group, s₁.live[g]? = some group :=
      ⟨_, getElem?_eq_getElem (hlen₁ ▸ mem_range.mp hg)⟩
    rw [wp_bind]
    refine wp_mono (replaceLeader_spec h₁ hs₁ hgroup) ?_ fun _ _ hf => hf.trans ha₁
    rintro _ s₂ ⟨h₂, ha₂, hlen₂, group₂, hgroup₂, hs₂⟩
    rw [wp_bind, wp_groupAt hgroup₂, wp_bind, wp_get]
    refine wp_mono (finishCancelled_spec _ h₂ hgroup₂ (nodup_cancelledMembers ..)
      (fun m hm => mem_cancelledMembers.mp hm) hs₂) ?_ fun _ _ hf => hf.trans (ha₁.trans ha₂)
    rintro _ s₃ ⟨h₃, ha₃, hlen₃, hs₃⟩
    exact ⟨h₃, (ha₁.trans ha₂).trans ha₃, hlen₃.trans (hlen₂.trans hlen₁), hs₃⟩
  · rintro _ s₁ ⟨h₁, ha₁, -, hs₁⟩
    unfold dropFinished
    rw [wp_modify]
    exact ⟨h₁.dropFinished, ha₁.trans ⟨rfl, rfl, rfl, rfl, rfl, rfl⟩, hs₁.dropFinished,
      peopled_dropFinished s₁⟩

end Retrograd.Infer
