import Retrograd.Infer.Sweep

/-!
# Phase transitions

Between steps a group whose prefix is complete shares it with all its members, and a group whose
terminal rows are done decodes. Both keep what is settled.
-/

namespace Retrograd.Infer

open Logic List

variable {w : World} {s s' : Scheduler} {pending : List Queued} {g m : ℕ} {group : LiveGroup}
  {member : LiveMember}

/-- Copying the leader's prefix to the members `rest`, whose slots are empty. -/
theorem sharePrefix_loop {n : ℕ} {leader : LiveMember} (rest : List LiveMember) :
    ∀ {s : Scheduler}, Inv w pending s → LiveAt s g group.leader group leader → 0 < n →
      n ≤ group.prompt.length → (w.Reliable → (s.backend.slots leader.slot).length = n) →
      (∀ x ∈ rest, (∃ m, LiveAt s g m group x) ∧ x.slot ≠ leader.slot ∧
        (w.Reliable → s.backend.slots x.slot = [])) →
      (rest.map LiveMember.slot).Nodup →
      wp (rest.forM fun member => seqCp w leader.slot member.slot none)
        (fun _ s' => Inv w pending s' ∧ Aside s s' ∧ s'.live = s.live ∧
          (∀ τ, τ ∉ rest.map LiveMember.slot → s'.backend.slots τ = s.backend.slots τ) ∧
          (w.Reliable → ∀ x ∈ rest, (s'.backend.slots x.slot).length = n))
        (Broken w pending s) s := by
  induction rest with
  | nil =>
    intro s h _ _ _ _ _ _
    refine ⟨h, ?_, rfl, ?_, ?_⟩
    · exact Aside.refl s
    · intro _ _
      rfl
    · intro _ x hx
      cases hx
  | cons x rest ih =>
    intro s h hleader hpos hprompt hlen hrest hnodup
    obtain ⟨⟨m, hat⟩, hne, hempty⟩ := hrest x mem_cons_self
    rw [map_cons, nodup_cons] at hnodup
    show wp (seqCp w leader.slot x.slot none >>= fun _ => rest.forM _) _ _ s
    rw [wp_bind]
    refine wp_mono (copyPrefix_spec h hat hleader hpos hprompt hlen hempty) ?_ fun _ _ hf => hf
    rintro _ s₁ ⟨h₁, hcopied, hlen₁⟩
    have hmove : ∀ {m x}, LiveAt s g m group x → LiveAt s₁ g m group x := fun hx =>
      { hx with atGroup := by rw [hcopied.live]; exact hx.atGroup }
    refine wp_mono (ih h₁ (hmove hleader) hpos hprompt (fun hw => ?_) (fun y hy => ?_) hnodup.2)
      ?_ fun _ _ hf => hf.trans hcopied.aside
    · rw [hcopied.others _ hne.symm, hlen hw]
    · obtain ⟨⟨m', hat'⟩, hne', hempty'⟩ := hrest y (mem_cons_of_mem _ hy)
      refine ⟨⟨m', hmove hat'⟩, hne', fun hw => ?_⟩
      rw [hcopied.others _ fun heq => hnodup.1 (heq ▸ mem_map_of_mem hy), hempty' hw]
    · rintro _ s₂ ⟨h₂, ha₂, hlive₂, hothers₂, hlen₂⟩
      refine ⟨h₂, hcopied.aside.trans ha₂, hlive₂.trans hcopied.live, fun τ hτ => ?_,
        fun hw y hy => ?_⟩
      · rw [map_cons, mem_cons, not_or] at hτ
        rw [hothers₂ τ hτ.2, hcopied.others τ hτ.1]
      · rcases mem_cons.mp hy with rfl | hy
        · rw [hothers₂ _ hnodup.1, hlen₁ hw]
        · exact hlen₂ hw y hy

/-- A group that has something to compute in the next step, or decodes. -/
def Ready (group : LiveGroup) : Prop :=
  match group.phase with
  | .prefill pos => pos < group.prefixEnd
  | .terminal next => ∃ m member, next ≤ m ∧ group.members[m]? = some member ∧ member.live = true
  | .decode => True

/-- What the phase transition of one group leaves. -/
structure Advanced (w : World) (pending : List Queued) (g : ℕ) (group : LiveGroup)
    (s s' : Scheduler) : Prop where
  inv : Inv w pending s'
  aside : Aside s s'
  settled : Settled w s'
  live : ∃ group', s'.live = s.live.set g group' ∧ group'.members = group.members ∧
    ((∃ member ∈ group.members, member.live = true) → Ready group')

/-- A new phase for a group whose slots already agree with it. -/
theorem Settled.setPhase {phase : GroupPhase} (hs : Settled w s) (hg : s.live[g]? = some group)
    {s' : Scheduler} (hlive : s'.live = s.live)
    (hslots : ∀ i m group' member', i ≠ g → LiveAt s i m group' member' →
      s'.backend.slots member'.slot = s.backend.slots member'.slot)
    (hok : GroupOk w s' { group with phase } [] fun _ => 0) :
    Settled w (s'.setGroup g fun group => { group with phase }) := by
  have hg' : s'.live[g]? = some group := by rw [hlive]; exact hg
  refine settled_iff.mpr ((settled_iff.mp hs).update (fun i hig => ?_) (fun i m group' x hig hx =>
    hslots i m group' x hig hx) (fun _ _ => ⟨rfl, rfl⟩) fun group' hgroup' => ?_)
  · show (s'.live.modify g _)[i]? = _
    rw [getElem?_modify, hlive]
    simp [Ne.symm hig]
  · rw [setGroup_getElem? hg'] at hgroup'
    cases hgroup'
    exact hok.congr fun _ _ _ => rfl

/-- A group that is done prefilling is done with its leader. -/
private theorem sharePrefix_spec {pos : ℕ} (h : Inv w pending s) (hs : Settled w s)
    (hg : s.live[g]? = some group) (hphase : group.phase = .prefill pos)
    (hpos : pos = group.prefixEnd) (hmany : 1 < group.members.length) :
    wp (sharePrefix w group) (fun _ s' => Inv w pending s' ∧ Aside s s' ∧ s'.live = s.live ∧
      (∀ i m group' member', i ≠ g → LiveAt s i m group' member' →
        s'.backend.slots member'.slot = s.backend.slots member'.slot) ∧
      (w.Reliable → ∀ (m : ℕ) (member : LiveMember), group.members[m]? = some member →
        member.live = true → (s'.backend.slots member.slot).length = group.prompt.length - 1))
      (Broken w pending s) s := by
  have hshape := h.live.shape group (mem_of_getElem? hg)
  have hok : GroupOk w s group [] fun _ => 0 := hs group (mem_of_getElem? hg)
  have hprefill := hok.phase
  unfold PhaseOk at hprefill
  rw [hphase] at hprefill
  obtain ⟨-, hleads, -⟩ := hprefill
  have hend : group.prefixEnd = group.prompt.length - 1 := by
    rw [hshape.prefixEnd, if_pos hmany]
  obtain ⟨leader, hleader⟩ : ∃ leader, group.members[group.leader]? = some leader :=
    ⟨_, getElem?_eq_getElem hshape.leader_lt⟩
  -- what a live member's slot holds before anything is copied
  have hbefore : w.Reliable → ∀ m member, group.members[m]? = some member → member.live = true →
      (s.backend.slots member.slot).length
        = if m = group.leader then group.prompt.length - 1 else 0 := by
    intro hw m member hm hlive
    rw [hok.synced hw m member hm hlive not_mem_nil, LiveGroup.residentLen, hphase,
      Nat.add_zero, ← hend, ← hpos]
  unfold sharePrefix
  rw [wp_bind, wp_memberAt hleader, wp_ite]
  refine ⟨fun hpositive => ?_, fun hzero => ⟨h, Aside.refl s, rfl, fun _ _ _ _ _ _ => rfl,
    fun hw m member hm hlive => ?_⟩⟩
  swap
  · rw [hbefore hw m member hm hlive]
    split <;> omega
  by_cases hany : ∃ m member, LiveAt s g m group member
  swap
  · -- nobody is live: nothing is copied
    have hnone : ∀ x ∈ group.members, x.live = false := by
      intro x hx
      obtain ⟨m, hm⟩ := mem_iff_getElem?.mp hx
      by_contra hlive
      exact hany ⟨m, x, hg, hm, by simpa using hlive⟩
    have hnil : (group.members.filter fun member => member.live && member.slot != leader.slot)
        = [] := by
      rw [filter_eq_nil_iff]
      intro x hx
      simp [hnone x hx]
    rw [hnil]
    refine ⟨h, Aside.refl s, rfl, fun _ _ _ _ _ _ => rfl, fun hw m member hm hlive => ?_⟩
    exact absurd ⟨m, member, hg, hm, hlive⟩ hany
  obtain ⟨m₀, member₀, hat₀⟩ := hany
  obtain ⟨-, leader', hleader', hlive'⟩ :=
    hleads m₀ member₀ hat₀.atMember hat₀.live not_mem_nil
  rw [hleader] at hleader'
  cases hleader'
  have hleaderAt : LiveAt s g group.leader group leader := ⟨hg, hleader, hlive'⟩
  have hrest : ∀ x ∈ group.members.filter fun member => member.live && member.slot != leader.slot,
      (∃ m, LiveAt s g m group x) ∧ x.slot ≠ leader.slot ∧
        (w.Reliable → s.backend.slots x.slot = []) := by
    intro x hx
    rw [mem_filter, Bool.and_eq_true, bne_iff_ne] at hx
    obtain ⟨hx, hlive, hne⟩ := hx
    obtain ⟨m, hm⟩ := mem_iff_getElem?.mp hx
    refine ⟨⟨m, hg, hm, hlive⟩, hne, fun hw => ?_⟩
    rw [← length_eq_zero_iff, hbefore hw m x hm hlive, if_neg]
    rintro rfl
    rw [hleader] at hm
    cases hm
    exact hne rfl
  have hnodup : ((group.members.filter fun member => member.live && member.slot != leader.slot).map
      LiveMember.slot).Nodup := by
    obtain ⟨A, B, hsplit, -⟩ := split_at hg
    have hslots := h.live.slots_nodup
    rw [Scheduler.liveSlots, hsplit, liveOf_split, map_append, map_append] at hslots
    have hmine := (nodup_append.mp (nodup_append.mp hslots).2.1).1
    refine hmine.sublist (Sublist.map _ (monotone_filter_right _ fun x hx => ?_))
    exact (Bool.and_eq_true _ _ ▸ hx).1
  refine wp_mono (sharePrefix_loop _ h hleaderAt hpositive (by rw [hend]; omega) (fun hw => ?_)
    hrest hnodup) ?_ fun _ _ hf => hf
  · rw [hbefore hw _ leader hleader hlive', if_pos rfl, hend]
  rintro _ s₁ ⟨h₁, ha₁, hlive₁, hothers, hlen⟩
  refine ⟨h₁, ha₁, hlive₁, fun i m group' x hig hx => hothers _ fun hmem => ?_,
    fun hw m member hm hlive => ?_⟩
  · obtain ⟨y, hy, hslot⟩ := mem_map.mp hmem
    obtain ⟨⟨m', hat'⟩, -, -⟩ := hrest y hy
    exact hx.slot_ne h.live hat' (by simp [Ne.symm hig]) hslot
  · by_cases hmm : m = group.leader
    · subst hmm
      rw [hleader] at hm
      cases hm
      rw [hothers, hbefore hw _ leader hleader hlive', if_pos rfl]
      intro hmem
      obtain ⟨y, hy, hslot⟩ := mem_map.mp hmem
      exact (hrest y hy).2.1 hslot
    · rw [← hend]
      refine hlen hw member (mem_filter.mpr ⟨mem_of_getElem? hm, ?_⟩)
      have hne := hleaderAt.slot_ne h.live ⟨hg, hm, hlive⟩ (by simp [hmm])
      simp [hlive, hne]

/-- Setting a group's phase keeps the invariant. -/
theorem Inv.setPhase (h : Inv w pending s) (hg : s.live[g]? = some group) (phase : GroupPhase) :
    Inv w pending (s.setGroup g fun group => { group with phase }) :=
  h.regroup hg ⟨rfl, rfl, rfl, rfl⟩
    (h.live.shape group (mem_of_getElem? hg)).leader_lt rfl

/-- A phase transition keeps the invariant and what is settled. -/
theorem advancePhase_spec (h : Inv w pending s) (hs : Settled w s)
    (hg : s.live[g]? = some group) :
    wp (advancePhase w g) (fun _ s' => Advanced w pending g group s s') (Broken w pending s) s := by
  have hshape := h.live.shape group (mem_of_getElem? hg)
  have hok : GroupOk w s group [] fun _ => 0 := hs group (mem_of_getElem? hg)
  have hkeep : ((∃ member ∈ group.members, member.live = true) → Ready group) →
      Advanced w pending g group s s := fun hready =>
    ⟨h, Aside.refl s, hs, group, (set_of_getElem? hg).symm, rfl, hready⟩
  have hset : ∀ {s₁ : Scheduler} (phase : GroupPhase), Inv w pending s₁ → Aside s s₁ →
      s₁.live = s.live → (∀ i m group' member', i ≠ g → LiveAt s i m group' member' →
        s₁.backend.slots member'.slot = s.backend.slots member'.slot) →
      GroupOk w s₁ { group with phase } [] (fun _ => 0) →
      ((∃ member ∈ group.members, member.live = true) → Ready { group with phase }) →
      Advanced w pending g group s (s₁.setGroup g fun group => { group with phase }) := by
    intro s₁ phase h₁ ha₁ hlive₁ hslots₁ hok₁ hready
    refine ⟨h₁.setPhase (by rw [hlive₁]; exact hg) phase, ha₁.trans ⟨rfl, rfl, rfl, rfl, rfl, rfl⟩,
      hs.setPhase hg hlive₁ hslots₁ hok₁, { group with phase }, ?_, rfl, hready⟩
    show s₁.live.modify g _ = _
    rw [hlive₁, modify_eq_set hg rfl]
  unfold advancePhase
  rw [wp_bind, wp_groupAt hg]
  have hphaseOk := hok.phase
  unfold PhaseOk at hphaseOk
  cases hphase : group.phase with
  | decode =>
    refine hkeep fun _ => ?_
    unfold Ready
    rw [hphase]
    trivial
  | terminal next =>
    rw [hphase] at hphaseOk
    dsimp only
    rw [wp_ite]
    refine ⟨fun hall => ?_, fun hall => hkeep fun _ => ?_⟩
    swap
    · unfold Ready
      rw [hphase]
      rw [all_eq_true] at hall
      push Not at hall
      obtain ⟨member, hmem, hlive⟩ := hall
      obtain ⟨m, hm⟩ := mem_iff_getElem?.mp hmem
      rw [getElem?_drop] at hm
      exact ⟨next + m, member, Nat.le_add_right .., hm, by simpa using hlive⟩
    rw [wp_modify]
    refine hset .decode h (Aside.refl s) rfl (fun _ _ _ _ _ _ => rfl) ⟨hok.more, ?_, ?_⟩
      fun _ => trivial
    · intro member hmem hlive
      obtain ⟨m, hm⟩ := mem_iff_getElem?.mp hmem
      refine (hphaseOk.2 m member hm hlive).1 (by_contra fun hle => ?_)
      have hdrop : member ∈ group.members.drop next := by
        refine mem_of_getElem? (i := m - next) ?_
        rw [getElem?_drop, Nat.add_sub_cancel' (Nat.not_lt.mp hle)]
        exact hm
      have := all_eq_true.mp hall member hdrop
      simp [hlive] at this
    · intro hw m member hm hlive hleaving
      have := hok.synced hw m member hm hlive hleaving
      rw [LiveGroup.residentLen, hphase] at this
      exact this
  | prefill pos =>
    rw [hphase] at hphaseOk
    obtain ⟨hle, hleads, hgenerated⟩ := hphaseOk
    dsimp only
    rw [wp_ite]
    refine ⟨fun hpos => ?_, fun hpos => hkeep fun _ => ?_⟩
    swap
    · unfold Ready
      rw [hphase]
      exact lt_of_le_of_ne hle hpos
    rw [wp_ite]
    refine ⟨fun hmany => ?_, fun hone => ?_⟩
    · rw [wp_bind]
      refine wp_mono (sharePrefix_spec h hs hg hphase hpos hmany) ?_ fun _ _ hf => hf
      rintro _ s₁ ⟨h₁, ha₁, hlive₁, hslots₁, hlen₁⟩
      rw [wp_modify]
      have hzero : ∀ member ∈ group.members, member.live = true → member.generated = 0 := by
        intro member hmem hlive
        rw [hgenerated member hmem hlive, if_neg (by omega)]
      refine hset (.terminal 0) h₁ ha₁ hlive₁ hslots₁ ⟨hok.more, ⟨hmany, ?_⟩, ?_⟩ ?_
      · intro m member hm hlive
        exact ⟨fun hlt => absurd hlt (Nat.not_lt_zero m),
          fun _ => hzero member (mem_of_getElem? hm) hlive⟩
      · intro hw m member hm hlive _
        show _ = group.prompt.length + member.generated - 1 + 0
        rw [hlen₁ hw m member hm hlive, hzero member (mem_of_getElem? hm) hlive]
        omega
      · rintro ⟨member, hmem, hlive⟩
        obtain ⟨m, hm⟩ := mem_iff_getElem?.mp hmem
        exact ⟨m, member, Nat.zero_le m, hm, hlive⟩
    · rw [wp_modify]
      have hlength : group.members.length = 1 := by
        have := hshape.leader_lt
        omega
      have hend : group.prefixEnd = group.prompt.length := by
        rw [hshape.prefixEnd, if_neg hone]
      have hfirst : ∀ member ∈ group.members, member.live = true → member.generated = 1 := by
        intro member hmem hlive
        rw [hgenerated member hmem hlive, if_pos ⟨hlength, hpos.trans hend⟩]
      refine hset .decode h (Aside.refl s) rfl (fun _ _ _ _ _ _ => rfl) ⟨hok.more, ?_, ?_⟩
        fun _ => trivial
      · intro member hmem hlive
        rw [hfirst member hmem hlive]
        exact Nat.one_pos
      · intro hw m member hm hlive hleaving
        have hlen := hok.synced hw m member hm hlive hleaving
        have hm' : m < group.members.length := (List.getElem?_eq_some_iff.mp hm).1
        have hleader : m = group.leader := by
          have := hshape.leader_lt
          omega
        rw [LiveGroup.residentLen, hphase] at hlen
        dsimp only at hlen
        rw [if_pos hleader] at hlen
        show _ = group.prompt.length + member.generated - 1 + 0
        rw [hlen, hpos, hend, hfirst member (mem_of_getElem? hm) hlive]
        omega

/-- What an iteration has when it composes its step. -/
structure Prepared (w : World) (pending : List Queued) (s : Scheduler) : Prop where
  inv : Inv w pending s
  settled : Settled w s
  peopled : Peopled s
  ready : ∀ group ∈ s.live, Ready group

/-- All phase transitions of an iteration leave every group ready. -/
theorem advancePhases_spec (h : Inv w pending s) (hs : Settled w s) (hpeopled : Peopled s) :
    wp (advancePhases w) (fun _ s' => Prepared w pending s' ∧ Aside s s') (Broken w pending s)
      s := by
  unfold advancePhases
  rw [wp_bind, wp_get]
  refine wp_mono (wp_forM_list (fun rest s' => Inv w pending s' ∧ Settled w s' ∧ Peopled s' ∧
    Aside s s' ∧ (∀ g ∈ rest, g < s'.live.length) ∧
    ∀ g group, s'.live[g]? = some group → g ∈ rest ∨ Ready group) ?_
    ⟨h, hs, hpeopled, Aside.refl s, fun g hg => mem_range.mp hg, fun g group hg =>
      .inl (mem_range.mpr (List.getElem?_eq_some_iff.mp hg).1)⟩) ?_ fun _ _ hf => hf
  · rintro g rest s₁ ⟨h₁, hs₁, hpeopled₁, ha₁, hlt₁, hready₁⟩
    obtain ⟨group, hgroup⟩ : ∃ group, s₁.live[g]? = some group :=
      ⟨_, getElem?_eq_getElem (hlt₁ g mem_cons_self)⟩
    refine wp_mono (advancePhase_spec h₁ hs₁ hgroup) ?_ fun _ _ hf => hf.trans ha₁
    rintro _ s₂ ⟨h₂, ha₂, hs₂, group', hlive₂, hmembers, hready₂⟩
    have halive := hpeopled₁ group (mem_of_getElem? hgroup)
    refine ⟨h₂, hs₂, fun x hx => ?_, ha₁.trans ha₂, fun i hi => ?_, fun i x hx => ?_⟩
    · rw [hlive₂] at hx
      rcases mem_or_eq_of_mem_set hx with hx | rfl
      · exact hpeopled₁ x hx
      · rw [hmembers]
        exact halive
    · rw [hlive₂, length_set]
      exact hlt₁ i (mem_cons_of_mem g hi)
    · rw [hlive₂] at hx
      by_cases hig : i = g
      · subst hig
        rw [getElem?_set_self (hlt₁ i mem_cons_self)] at hx
        cases hx
        exact .inr (hready₂ halive)
      · rw [getElem?_set_ne (Ne.symm hig)] at hx
        exact (hready₁ i x hx).imp_left fun hmem => (mem_cons.mp hmem).resolve_left hig
  · rintro _ s₁ ⟨h₁, hs₁, hpeopled₁, ha₁, -, hready₁⟩
    refine ⟨⟨h₁, hs₁, hpeopled₁, fun group hg => ?_⟩, ha₁⟩
    obtain ⟨g, hg⟩ := mem_iff_getElem?.mp hg
    exact (hready₁ g group hg).resolve_left not_mem_nil

end Retrograd.Infer
