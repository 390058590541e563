import Retrograd.Infer.Failure

/-!
# What live slots hold between steps

Between two iterations the length of a live member's slot is known from its group's **phase**:
the leader of a prefilling group holds what was prefilled and the others nothing, and later every
member holds its prompt and all tokens it generated but the last one. `Sound` says so of every
group, up to the members that are leaving and the rows of a step that are not accounted yet.
-/

namespace Retrograd.Infer

open Logic List

variable {w : World} {s s' : Scheduler} {pending : List Queued} {g m : ℕ} {group : LiveGroup}
  {member : LiveMember}

/-- How many positions the slot of a member holds, by its group's phase. -/
def LiveGroup.residentLen (group : LiveGroup) (m : ℕ) (member : LiveMember) : ℕ :=
  match group.phase with
  | .prefill pos => if m = group.leader then pos else 0
  | _ => group.prompt.length + member.generated - 1

/-- What the phase of a group says about its live members, those that are `leaving` apart. -/
def PhaseOk (group : LiveGroup) (leaving : List ℕ) : Prop :=
  match group.phase with
  | .prefill pos => pos ≤ group.prefixEnd ∧
      (∀ m member, group.members[m]? = some member → member.live = true → m ∉ leaving →
        group.leader ∉ leaving ∧
          ∃ leader, group.members[group.leader]? = some leader ∧ leader.live = true) ∧
      ∀ member ∈ group.members, member.live = true → member.generated =
        if group.members.length = 1 ∧ pos = group.prompt.length then 1 else 0
  | .terminal next => 1 < group.members.length ∧
      ∀ m member, group.members[m]? = some member → member.live = true →
        (m < next → 0 < member.generated) ∧ (next ≤ m → member.generated = 0)
  | .decode => ∀ member ∈ group.members, member.live = true → 0 < member.generated

/-- A group between steps: its phase and its slots agree. The slots of `leaving` members are not
looked at, and the slot of a member holds `extra` positions more than was accounted. -/
structure GroupOk (w : World) (s : Scheduler) (group : LiveGroup) (leaving : List ℕ)
    (extra : ℕ → ℕ) : Prop where
  more : ∀ member ∈ group.members, member.live = true → member.generated < member.limit
  phase : PhaseOk group leaving
  synced : w.Reliable → ∀ m member, group.members[m]? = some member → member.live = true →
    m ∉ leaving →
    (s.backend.slots member.slot).length = group.residentLen m member + extra m

/-- Every group's phase and slots agree. -/
def Sound (w : World) (s : Scheduler) (leaving : ℕ → List ℕ) (extra : ℕ → ℕ → ℕ) : Prop :=
  ∀ g group, s.live[g]? = some group → GroupOk w s group (leaving g) (extra g)

/-- Every group's phase and slots agree, nobody is leaving and every row was accounted. -/
def Settled (w : World) (s : Scheduler) : Prop :=
  ∀ group ∈ s.live, GroupOk w s group [] fun _ => 0

theorem settled_iff : Settled w s ↔ Sound w s (fun _ => []) fun _ _ => 0 := by
  constructor
  · intro h g group hg
    exact h group (mem_of_getElem? hg)
  · intro h group hg
    obtain ⟨g, hg⟩ := mem_iff_getElem?.mp hg
    exact h g group hg

/-- Every group has a live member. -/
def Peopled (s : Scheduler) : Prop := ∀ group ∈ s.live, ∃ member ∈ group.members, member.live = true

theorem Peopled.congr (h : Peopled s) (hlive : s'.live = s.live) : Peopled s' := by
  unfold Peopled
  rw [hlive]
  exact h

theorem peopled_of_idle (h : s.live = []) : Peopled s := by
  intro group hg
  rw [h] at hg
  cases hg

theorem settled_of_idle (h : s.live = []) : Settled w s := by
  intro group hg
  rw [h] at hg
  cases hg

/-- Only the lengths of the live members' slots matter. -/
theorem GroupOk.congr {leaving : List ℕ} {extra : ℕ → ℕ} (h : GroupOk w s group leaving extra)
    (hslots : ∀ member ∈ group.members, member.live = true →
      s'.backend.slots member.slot = s.backend.slots member.slot) :
    GroupOk w s' group leaving extra :=
  { h with
    synced := fun hw m member hm hlive hleaving => by
      rw [hslots member (mem_of_getElem? hm) hlive]
      exact h.synced hw m member hm hlive hleaving }

/-- Whoever leaves the live members and their slots alone keeps every group sound. -/
theorem Sound.kept {leaving : ℕ → List ℕ} {extra : ℕ → ℕ → ℕ} (h : Sound w s leaving extra)
    (hlive : s'.live = s.live)
    (hkept : ∀ σ ∈ s.liveSlots, s'.backend.slots σ = s.backend.slots σ) :
    Sound w s' leaving extra := by
  intro g group hg
  rw [hlive] at hg
  refine (h g group hg).congr fun member hmem hlive => hkept _ ?_
  exact mem_map_of_mem (mem_liveOf.mpr ⟨group, mem_of_getElem? hg, hmem, hlive⟩)

theorem Settled.kept (h : Settled w s) (hlive : s'.live = s.live)
    (hkept : ∀ σ ∈ s.liveSlots, s'.backend.slots σ = s.backend.slots σ) : Settled w s' :=
  settled_iff.mpr ((settled_iff.mp h).kept hlive hkept)

theorem Settled.frame (h : Settled w s) (hf : Frame s.liveSlots s s') : Settled w s' :=
  h.kept hf.live hf.kept

/-- In a reliable world the length of a live member's slot gives its contents. -/
theorem Holds.contents {n : ℕ} (h : Holds s group member)
    (hlen : (s.backend.slots member.slot).length = n) :
    contents (s.backend.slots member.slot) = tagged (group.adapter.tag s.backend.activeAdapter)
      ((group.prompt ++ member.history).take n) := by
  obtain ⟨k, hk⟩ := h
  have hn : n = min k (group.prompt ++ member.history).length := by
    rw [← hlen, ← length_contents, hk, length_tagged, length_take]
  rw [hk, hn]
  congr 1
  rcases le_total k (group.prompt ++ member.history).length with hle | hle
  · rw [min_eq_left hle]
  · rw [min_eq_right hle, take_length, take_of_length_le hle]

/-! ### Moving one member -/

variable {member' : LiveMember}

theorem Moved.getElem?_self (h : Moved g m group member member' s s')
    (hat : LiveAt s g m group member) : s'.live[g]? = some (group.moved m member member') := by
  rw [h.live, getElem?_set_self (List.getElem?_eq_some_iff.mp hat.atGroup).1]

theorem Moved.length (h : Moved g m group member member' s s') :
    s'.live.length = s.live.length := by
  rw [h.live, length_set]

/-- A member that moved leaves the slots of the live members alone. -/
theorem Moved.kept (h : Moved g m group member member' s s') {σ : ℕ} (hσ : σ ∈ s'.liveSlots) :
    s'.backend.slots σ = s.backend.slots σ := by
  obtain ⟨st, -, hf⟩ := h.frame
  exact hf.kept σ hσ

variable {leaving leaving' : ℕ → List ℕ} {extra extra' : ℕ → ℕ → ℕ}

/-- Changing one group and its members' slots keeps the other groups sound. -/
theorem Sound.update (h : Sound w s leaving extra) (hlive : ∀ i, i ≠ g → s'.live[i]? = s.live[i]?)
    (hslots : ∀ i m group member, i ≠ g → LiveAt s i m group member → s'.backend.slots member.slot = s.backend.slots member.slot)
    (hother : ∀ i, i ≠ g → leaving' i = leaving i ∧ extra' i = extra i)
    (hgroup : ∀ group, s'.live[g]? = some group → GroupOk w s' group (leaving' g) (extra' g)) :
    Sound w s' leaving' extra' := by
  intro i group hi
  by_cases hig : i = g
  · subst hig
    exact hgroup group hi
  rw [hlive i hig] at hi
  obtain ⟨hl, he⟩ := hother i hig
  rw [hl, he]
  refine (h i group hi).congr fun member hmem hlive => ?_
  obtain ⟨m, hm⟩ := mem_iff_getElem?.mp hmem
  exact hslots i m group member hig ⟨hi, hm, hlive⟩

/-- Moving a member of one group keeps the other groups sound. -/
theorem Sound.moved (h : Sound w s leaving extra) (hat : LiveAt s g m group member)
    (hm : Moved g m group member member' s s')
    (hother : ∀ i, i ≠ g → leaving' i = leaving i ∧ extra' i = extra i)
    (hgroup : GroupOk w s' (group.moved m member member') (leaving' g) (extra' g)) :
    Sound w s' leaving' extra' := by
  have hlive : ∀ i, i ≠ g → s'.live[i]? = s.live[i]? := fun i hig => by
    rw [hm.live, getElem?_set_ne (Ne.symm hig)]
  refine h.update hlive (fun i m' group' x hig hx => hm.kept ?_) hother fun group' hg' => ?_
  · exact LiveAt.mem_slots (s := s') { hx with atGroup := by rw [hlive i hig]; exact hx.atGroup }
  · rw [hm.getElem?_self hat] at hg'
    cases hg'
    exact hgroup

/-- A live member of a group one member of which moved is that member, or was there before. -/
theorem moved_getElem? {member' x : LiveMember} {i : ℕ}
    (hx : (group.moved m member member').members[i]? = some x) :
    i = m ∧ x = member' ∨ i ≠ m ∧ group.members[i]? = some x := by
  have hx' : (group.members.set m member')[i]? = some x := hx
  by_cases hi : i = m
  · subst hi
    rw [getElem?_set] at hx'
    split at hx'
    · split at hx'
      · exact .inl ⟨rfl, by simpa using hx'.symm⟩
      · cases hx'
    · exact absurd rfl ‹_›
  · rw [getElem?_set_ne (Ne.symm hi)] at hx'
    exact .inr ⟨hi, hx'⟩

theorem moved_mem {member' x : LiveMember} (hx : x ∈ (group.moved m member member').members) :
    x = member' ∨ x ∈ group.members := by
  rcases mem_or_eq_of_mem_set hx with hx | rfl
  · exact .inr hx
  · exact .inl rfl

/-- A leaving member has left. -/
theorem GroupOk.ended {leaving : List ℕ} {extra : ℕ → ℕ} (hat : LiveAt s g m group member)
    (h : GroupOk w s group (m :: leaving) extra)
    (hm : Moved g m group member member.ended s s') :
    GroupOk w s' (group.moved m member member.ended) leaving extra := by
  have hother : ∀ {i x}, (group.moved m member member.ended).members[i]? = some x →
      x.live = true → i ≠ m ∧ group.members[i]? = some x := by
    intro i x hx hlive
    rcases moved_getElem? hx with ⟨rfl, rfl⟩ | hx
    · exact absurd hlive Bool.false_ne_true
    · exact hx
  have hmem : ∀ {x}, x ∈ (group.moved m member member.ended).members → x.live = true →
      x ∈ group.members := by
    intro x hx hlive
    obtain ⟨i, hi⟩ := mem_iff_getElem?.mp hx
    exact mem_of_getElem? (hother hi hlive).2
  have hlength : (group.moved m member member.ended).members.length = group.members.length :=
    length_set ..
  constructor
  case more => exact fun x hx hlive => h.more x (hmem hx hlive) hlive
  case phase =>
    have hphase := h.phase
    unfold PhaseOk at hphase ⊢
    have hph : (group.moved m member member.ended).phase = group.phase := rfl
    rw [hph]
    cases hcase : group.phase with
    | decode =>
      rw [hcase] at hphase
      exact fun x hx hlive => hphase x (hmem hx hlive) hlive
    | terminal next =>
      rw [hcase] at hphase
      refine ⟨by rw [hlength]; exact hphase.1, fun i x hx hlive => ?_⟩
      exact hphase.2 i x (hother hx hlive).2 hlive
    | prefill pos =>
      rw [hcase] at hphase
      obtain ⟨hpos, hleader, hgenerated⟩ := hphase
      refine ⟨hpos, fun i x hx hlive hleaving => ?_, fun x hx hlive => ?_⟩
      · obtain ⟨hne, hx⟩ := hother hx hlive
        obtain ⟨hstays, leader, hl, hll⟩ := hleader i x hx hlive (by simp [hne, hleaving])
        rw [mem_cons, not_or] at hstays
        refine ⟨hstays.2, leader, ?_, hll⟩
        show (group.members.set m member.ended)[group.leader]? = some leader
        rw [getElem?_set_ne (Ne.symm hstays.1), hl]
      · rw [hlength]
        exact hgenerated x (hmem hx hlive) hlive
  case synced =>
    intro hw i x hx hlive hleaving
    obtain ⟨hne, hx'⟩ := hother hx hlive
    rw [hm.kept]
    · exact h.synced hw i x hx' hlive (by simp [hne, hleaving])
    · exact mem_map_of_mem (mem_liveOf.mpr ⟨_, mem_of_getElem? (hm.getElem?_self hat),
        mem_of_getElem? hx, hlive⟩)

/-! ### Writing a live slot -/

/-- Two live members share no slot. -/
theorem LiveAt.slot_ne {g' m' : ℕ} {group' : LiveGroup} (h : Live w s)
    (hat : LiveAt s g m group member) (hat' : LiveAt s g' m' group' member')
    (hne : (g', m') ≠ (g, m)) : member'.slot ≠ member.slot := by
  obtain ⟨k, hk⟩ : ∃ k : LiveMember → LiveMember, k = fun member => { member with live := false } :=
    ⟨_, rfl⟩
  obtain ⟨f, hf⟩ : ∃ f : LiveGroup → LiveGroup, f = fun group =>
      { group with members := group.members.modify m k } := ⟨_, rfl⟩
  have hperm : (member :: liveOf (s.live.modify g f)).Perm (liveOf s.live) :=
    liveOf_kill hat.atGroup hat.atMember hat.live (k := k) (by rw [hf]) (by rw [hk])
  have hnot : member.slot ∉ (liveOf (s.live.modify g f)).map LiveMember.slot :=
    (nodup_cons.mp ((hperm.map LiveMember.slot).nodup_iff.mpr h.slots_nodup)).1
  have hin : member' ∈ liveOf (s.live.modify g f) := by
    by_cases hgg : g' = g
    · subst hgg
      have hsame := hat'.atGroup
      rw [hat.atGroup] at hsame
      cases hsame
      have hmm : m ≠ m' := fun heq => hne (by rw [heq])
      refine Retrograd.Infer.mem_liveOf.mpr ⟨f group, ?_, ?_, hat'.live⟩
      · refine mem_of_getElem? (i := g') ?_
        rw [getElem?_modify, hat.atGroup]
        simp
      · rw [hf]
        refine mem_of_getElem? (i := m') ?_
        show (group.members.modify m k)[m']? = some member'
        rw [getElem?_modify, hat'.atMember]
        simp [hmm]
    · refine Retrograd.Infer.mem_liveOf.mpr ⟨group', ?_, mem_of_getElem? hat'.atMember, hat'.live⟩
      refine mem_of_getElem? (i := g') ?_
      rw [getElem?_modify, hat'.atGroup]
      simp [Ne.symm hgg]
  exact fun heq => hnot (heq ▸ mem_map_of_mem hin)

/-- Another live member's slot is not written. -/
theorem LiveAt.withSlot_ne {g' m' : ℕ} {group' : LiveGroup} (h : Live w s)
    (hat : LiveAt s g m group member) (hat' : LiveAt s g' m' group' member')
    (hne : (g', m') ≠ (g, m)) (cells : List Cell) (next : ℕ) :
    (s.withSlot member.slot cells next).backend.slots member'.slot
      = s.backend.slots member'.slot := by
  rw [withSlot_slots, if_neg (hat.slot_ne h hat' hne)]

/-- A live member's slot may be given any prefix of its prompt and history. -/
theorem Inv.withSlot (h : Inv w pending s) (hat : LiveAt s g m group member) {cells : List Cell}
    (hcells : w.Reliable → ∃ n, contents cells = tagged (group.adapter.tag
      s.backend.activeAdapter) ((group.prompt ++ member.history).take n)) (next : ℕ) :
    Inv w pending (s.withSlot member.slot cells next) := by
  obtain ⟨P, hp⟩ := h.pool
  exact {
    pool := ⟨P, hp.withSlot hat.mem_slots cells next⟩
    live := { h.live with
      content := fun hw group' hg' member' hm' hlive' => by
        obtain ⟨g', hg'⟩ := mem_iff_getElem?.mp hg'
        obtain ⟨m', hm'⟩ := mem_iff_getElem?.mp hm'
        have hat' : LiveAt s g' m' group' member' := ⟨hg', hm', hlive'⟩
        by_cases hsame : (g', m') = (g, m)
        · cases hsame
          have hgg := hat'.atGroup
          rw [hat.atGroup] at hgg
          cases hgg
          have hmm := hat'.atMember
          rw [hat.atMember] at hmm
          cases hmm
          obtain ⟨n, hn⟩ := hcells hw
          exact ⟨n, by rw [withSlot_slots, if_pos rfl]; exact hn⟩
        · obtain ⟨n, hn⟩ := h.live.content hw group' (mem_of_getElem? hg') member'
            (mem_of_getElem? hm') hlive'
          exact ⟨n, by rw [hat.withSlot_ne h.live hat' hsame]; exact hn⟩ }
    ledger := h.ledger
    valid := h.valid }

/-! ### Regrouping -/

variable {f : LiveGroup → LiveGroup}

/-- Changing a group beside its members keeps the invariant. -/
theorem Inv.regroup (h : Inv w pending s) (hg : s.live[g]? = some group)
    (ha : Alike group (f group)) (hleader : (f group).leader < group.members.length)
    (hf : (f group).members = group.members) : Inv w pending (s.setGroup g f) := by
  obtain ⟨P, hp⟩ := h.pool
  have hsame := liveOf_regroup hg hf
  constructor
  case pool =>
    refine ⟨P, ?_⟩
    show Pool w ((liveOf (s.live.modify g f)).map LiveMember.slot) P _
    rw [hsame]
    refine hp.setLive (exists_modify fun group' hg' => ?_)
    rw [hg] at hg'
    cases hg'
    exact ha.adapter
  case live => exact h.live.regroup hg ha hleader hf
  case ledger =>
    show Ledger pending ((liveOf (s.live.modify g f)).map LiveMember.key) _ _
    rw [hsame]
    exact h.ledger
  case valid => exact h.valid

theorem setGroup_getElem? (hg : s.live[g]? = some group) :
    (s.setGroup g f).live[g]? = some (f group) := by
  show (s.live.modify g f)[g]? = _
  rw [getElem?_modify, hg]
  simp

end Retrograd.Infer
