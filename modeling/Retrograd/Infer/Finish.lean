import Retrograd.Infer.Live

/-!
# Ending and feeding a member

The two things that happen to a live member of a scheduler: it **ends** — final event, slot
handed over, key given up — or a token sampled for it is **emitted**, after which it may end.
Both keep the invariant whether they succeed or fail half-way, and touch no other live member.
-/

namespace Retrograd.Infer

open Logic List Function

variable {w : World} {s s' : Scheduler} {pending : List Queued} {g m : ℕ} {group : LiveGroup}
  {member : LiveMember}

variable {E : Stop → Scheduler → Prop}

theorem wp_groupAt {Q : LiveGroup → Scheduler → Prop} (h : s.live[g]? = some group) :
    wp (groupAt g) Q E s ↔ Q group s := by
  unfold groupAt
  rw [wp_bind, wp_get, h]
  rfl

theorem wp_memberAt {Q : LiveMember → Scheduler → Prop} (h : group.members[m]? = some member) :
    wp (memberAt group m) Q E s ↔ Q member s := by
  unfold memberAt
  rw [h]
  rfl

/-! ### Sending events -/

/-- The scheduler after one of its streams moved. -/
def Scheduler.withStream (s : Scheduler) (id : ℕ) (st : Stream) (reads : ℕ) : Scheduler :=
  { s with streams := Function.update s.streams id st, reads }

variable {event : Event} {st : Stream}

theorem Offered.refuse (h : st.lost) : Offered event st false st :=
  ⟨rfl, rfl, rfl, rfl, id, fun _ => h⟩

theorem Offered.overflow : Offered event st false { st with overflowed := true } :=
  ⟨rfl, rfl, rfl, rfl, fun _ => .inr rfl, fun _ => .inr rfl⟩

theorem Offered.take : Offered event st true { st with sent := st.sent ++ [event] } :=
  ⟨rfl, rfl, rfl, rfl, id, nofun⟩

/-- Events that a client takes change nothing of what was offered. -/
theorem Offered.consumed {st st' : Stream} {taken : Bool} {consumed : ℕ}
    (h : Offered event { st with consumed } taken st') : Offered event st taken st' :=
  ⟨h.capacity, h.completions, h.cancelled, h.sent, h.lost, h.taken_or_lost⟩

theorem trySend_spec (id : ℕ) (event : Event) :
    wp (trySend id event) (fun _ s' => ∃ taken st, Offered event (s.streams id) taken st ∧
      s' = s.withStream id st s.reads) E s := by
  unfold trySend
  rw [wp_modify]
  split
  · next hdropped =>
    refine ⟨false, _, Offered.refuse (.inl hdropped), ?_⟩
    rw [Scheduler.withStream, update_eq_self]
  split
  · exact ⟨false, _, Offered.overflow, rfl⟩
  · exact ⟨true, _, Offered.take, rfl⟩

/-- A bounded send returns whether the event was taken. -/
theorem sendBounded_spec (id : ℕ) (event : Event) :
    wp (sendBounded w id event) (fun taken s' => ∃ st reads,
      Offered event (s.streams id) taken st ∧ s' = s.withStream id st reads) E s := by
  unfold sendBounded
  simp only [wp_bind, wp_get, wp_ite, wp_set, wp_pure]
  have htwice : ∀ (consumed : ℕ) (f : Stream → Stream),
      { s.setStream id fun st => { st with consumed } with reads := s.reads + 1 }.setStream id f
        = s.withStream id (f { s.streams id with consumed }) (s.reads + 1) := by
    intro consumed f
    simp only [Scheduler.setStream, Scheduler.withStream, update_self,
      update_idem]
  refine ⟨fun hdropped => ⟨_, s.reads, Offered.refuse (.inl hdropped), ?_⟩, fun _ =>
    ⟨fun _ => ⟨fun _ => ?_, fun _ => ?_⟩, fun _ => ⟨_, _, Offered.take, rfl⟩⟩⟩
  · rw [Scheduler.withStream, update_eq_self]
  · exact ⟨_, _, Offered.consumed Offered.overflow, htwice _ _⟩
  · exact ⟨_, _, Offered.consumed Offered.take, htwice _ _⟩

/-- What ending a completion does to its stream: whoever owes the final event is quit of it. -/
structure Told (key : ℕ × ℕ) (streams : ℕ → Stream) (st : Stream) : Prop where
  quit : ∀ {pending keys next}, Ledger pending (key :: keys) streams next →
    Ledger pending keys (Function.update streams key.1 st) next
  cancelled : (streams key.1).cancelled = true → st.cancelled = true

/-- The final event of a member is sent, unless its request is cancelled: then its stream was
lost. -/
theorem sendEnd_spec {reason : FinishReason} {text : Bytes} {cacheHit : ℕ}
    (hevents : member.events = some member.cancelled)
    (hreason : reason = .cancelled → (s.streams member.cancelled).lost) :
    wp (sendEnd w member reason text cacheHit) (fun _ s' => ∃ st reads,
      Told member.key s.streams st ∧ s' = s.withStream member.cancelled st reads) E s := by
  unfold sendEnd
  rw [wp_ite]
  refine ⟨fun hcancelled => ?_, fun _ => ?_⟩
  · refine ⟨_, s.reads, ⟨fun h => ?_, fun _ => rfl⟩, rfl⟩
    exact h.abandon (hreason hcancelled) rfl rfl rfl
  · rw [hevents]
    dsimp only
    rw [wp_bind]
    refine wp_mono (sendBounded_spec _ _) ?_ fun _ _ hf => hf
    rintro taken s' ⟨st, reads, ho, rfl⟩
    rw [wp_ite]
    refine ⟨fun htaken => ?_, fun htaken => ?_⟩
    · have hlost : st.lost := ho.taken_or_lost (by simpa using htaken)
      refine ⟨{ st with cancelled := true }, reads, ⟨fun h => ?_, fun _ => rfl⟩, ?_⟩
      · exact h.finish rfl rfl ho rfl rfl rfl (fun _ => hlost) fun _ => hlost
      · simp only [Scheduler.setStream, Scheduler.withStream, update_self,
          update_idem]
    · refine ⟨st, reads, ⟨fun h => ?_, fun hc => ho.cancelled.trans hc⟩, rfl⟩
      exact h.finish rfl rfl ho rfl rfl rfl id fun hc =>
        ho.lost (h.cancelled _ (ho.cancelled ▸ hc))

/-! ### Ending a member -/

/-- A member after it has ended. -/
def LiveMember.ended (member : LiveMember) : LiveMember :=
  { member with live := false, detok := member.detok.finish.2, events := none, retention := none }

/-- A group one member of which moved on: a member that ended gives its reservation back. -/
def LiveGroup.moved (group : LiveGroup) (m : ℕ) (member member' : LiveMember) : LiveGroup :=
  { group with
    reserved := if member'.live then group.reserved else group.reserved - member.reservedShare
    members := group.members.set m member' }

/-- The parts of a member that never change. -/
structure SameMember (member member' : LiveMember) : Prop where
  slot : member'.slot = member.slot
  requestId : member'.requestId = member.requestId
  key : member'.key = member.key
  limit : member'.limit = member.limit
  share : member'.reservedShare = member.reservedShare

/-- What feeding or ending a member changes: the member, its stream, and what a frame allows. -/
structure Moved (g m : ℕ) (group : LiveGroup) (member member' : LiveMember)
    (s s' : Scheduler) : Prop where
  live : s'.live = s.live.set g (group.moved m member member')
  same : SameMember member member'
  frame : ∃ st, ((s.streams member.cancelled).cancelled = true → st.cancelled = true) ∧
    Frame s'.liveSlots { s with
      live := s'.live
      streams := Function.update s.streams member.cancelled st } s'

theorem modify_eq_set {α : Type} {l : List α} {i : ℕ} {x y : α} {f : α → α} (hx : l[i]? = some x)
    (hf : f x = y) : l.modify i f = l.set i y := by
  obtain ⟨A, B, rfl, rfl⟩ := split_at hx
  rw [modify_split, hf, set_append_right _ _ le_rfl, Nat.sub_self, set_cons_zero]

/-- Retains a node where there is one. -/
private def retainAt (w : World) (key : String) (node : Option ℕ) : M Unit :=
  match node with
  | some node => retain w key node
  | none => pure ()

/-- A retention named by a finished request replaces an earlier one. -/
theorem retainFinished_spec {H : List ℕ} {P : Labels} (h : Pool w H P s)
    (retention : Option Retention) (reason : FinishReason) {node : Option ℕ}
    (hnode : ∀ i, node = some i → ∃ ns p, P i = some (ns, p) ∧ p ≠ []) :
    wp (retainFinished w retention reason node) (fun _ s' => Pool w H P s' ∧ Upkeep H s s')
      (Fails w H P s) s := by
  unfold retainFinished
  cases retention with
  | none => exact ⟨h, Upkeep.refl H s⟩
  | some retention =>
    dsimp only
    rw [wp_ite]
    refine ⟨fun _ => ⟨h, Upkeep.refl H s⟩, fun _ => ?_⟩
    have hretain : ∀ s₁, Pool w H P s₁ → Upkeep H s s₁ → wp (retainAt w retention.key node)
        (fun _ s' => Pool w H P s' ∧ Upkeep H s s') (Fails w H P s) s₁ := by
      intro s₁ h₁ hu₁
      cases node with
      | none => exact ⟨h₁, hu₁⟩
      | some i =>
        obtain ⟨ns, p, hi, hp⟩ := hnode i rfl
        refine wp_mono (retain_spec h₁ retention.key hi hp) ?_ fun _ _ hf =>
          hf.trans hu₁ (PrefixTree.Extends.refl P)
        rintro _ s₂ ⟨h₂, hu₂⟩
        exact ⟨h₂, hu₁.trans hu₂⟩
    cases hrelease : retention.release with
    | none => exact hretain s h (Upkeep.refl H s)
    | some release =>
      dsimp only
      rw [wp_bind]
      refine wp_mono (releaseRetained_spec h release) ?_ fun _ _ hf => hf
      rintro _ s₁ ⟨h₁, hu₁, -⟩
      exact hretain s₁ h₁ hu₁

/-- Ending a live member keeps the invariant: its slot goes to the tree or is emptied, and its
stream is told. -/
theorem finishMember_spec (h : Inv w pending s) (hat : LiveAt s g m group member)
    {reason : FinishReason} (hreason : reason = .cancelled → (s.streams member.cancelled).lost) :
    wp (finishMember w g m reason)
      (fun _ s' => Inv w pending s' ∧ Moved g m group member member.ended s s')
      (fun stop s' => (∃ error, stop = .error error) ∧ Inv w pending s' ∧
        Moved g m group member member.ended s s') s := by
  obtain ⟨P, hpool⟩ := h.pool
  have hg := mem_of_getElem? hat.atGroup
  obtain ⟨s₁, hs₁⟩ : ∃ s₁ : Scheduler, s₁ = { s with
      live := s.live.set g (group.moved m member member.ended) } := ⟨_, rfl⟩
  have hset : s.live.set g (group.moved m member member.ended)
      = s.live.modify g fun _ => group.moved m member member.ended :=
    (modify_eq_set (f := fun _ => _) hat.atGroup rfl).symm
  have hmembers : (group.moved m member member.ended).members
      = group.members.modify m fun _ => member.ended :=
    (modify_eq_set (f := fun _ => member.ended) hat.atMember rfl).symm
  have hlive₁ : Live w s₁ := by
    rw [hs₁, hset]
    refine h.live.kill hat ⟨rfl, rfl, rfl, rfl⟩ rfl hmembers ?_ rfl
    have := hat.shape h.live
    exact { this with events := rfl, generated_le := nofun }
  have hperm : (member :: liveOf s₁.live).Perm (liveOf s.live) := by
    rw [hs₁, hset]
    exact liveOf_kill hat.atGroup hat.atMember hat.live hmembers rfl
  have hslots : (member.slot :: s₁.liveSlots).Perm s.liveSlots := hperm.map LiveMember.slot
  have hkeys : (member.key :: s₁.keys).Perm s.keys := hperm.map LiveMember.key
  have hnot : member.slot ∉ s₁.liveSlots :=
    (nodup_cons.mp (hslots.nodup_iff.mpr h.live.slots_nodup)).1
  have hlt : member.slot < w.nSlots := h.live.slots_lt _ hat.mem_slots
  have hpool₁ : Pool w (member.slot :: s₁.liveSlots) P s₁ := by
    refine Pool.held (H := s.liveSlots) ?_ fun σ => hslots.mem_iff
    rw [hs₁, hset]
    refine hpool.setLive (exists_modify fun group' hg' => ?_)
    rw [hat.atGroup] at hg'
    cases hg'
    rfl
  unfold finishMember
  rw [wp_bind, wp_groupAt hat.atGroup, wp_bind, wp_memberAt hat.atMember, wp_ite]
  refine ⟨fun hdead => by simp [hat.live] at hdead, fun _ => ?_⟩
  dsimp only
  rw [wp_bind, wp_modify]
  have hstart : s.setGroup g (fun group => { group with
      reserved := group.reserved - member.reservedShare
      members := group.members.modify m fun member' => { member' with
        live := false, detok := member.detok.finish.2, events := none, retention := none } })
      = s₁ := by
    rw [hs₁, Scheduler.setGroup, modify_eq_set hat.atGroup]
    rw [LiveGroup.moved, if_neg (by simp [LiveMember.ended]), modify_eq_set hat.atMember rfl]
    rfl
  rw [hstart, hat.events h.live]
  simp only [Option.isNone_some, Bool.false_eq_true, if_false, wp_bind]
  have hstreams₁ : s₁.streams = s.streams := by rw [hs₁]
  refine wp_mono (sendEnd_spec (hat.events h.live) fun hr => ?_) ?_ fun _ _ hf => hf
  · rw [hstreams₁]
    exact hreason hr
  rintro _ s₂ ⟨st, reads, htold, rfl⟩
  -- from here on only the tree, the retentions and the slot move
  have hlive₂ : Live w (s₁.withStream member.cancelled st reads) :=
    { hlive₁ with }
  have hledger₂ : Ledger pending (s₁.withStream member.cancelled st reads).keys
      (s₁.withStream member.cancelled st reads).streams
      (s₁.withStream member.cancelled st reads).nextStream := by
    refine htold.quit ?_
    rw [hstreams₁, hs₁]
    refine h.ledger.perm (Perm.refl _) ?_
    rw [← hs₁]
    exact hkeys
  have hpool₂ : Pool w (member.slot :: s₁.liveSlots) P
      (s₁.withStream member.cancelled st reads) :=
    hpool₁.congr rfl rfl rfl rfl rfl rfl (hpool₁.rows.congr rfl rfl rfl rfl rfl)
  have hdone : ∀ {P' : Labels} {s' : Scheduler}, Pool w s₁.liveSlots P' s' →
      Frame s₁.liveSlots (s₁.withStream member.cancelled st reads) s' →
      Inv w pending s' ∧ Moved g m group member member.ended s s' := by
    intro P' s' hp hf
    have hlive' : s'.live = s₁.live := hf.live
    refine ⟨Inv.of_frame hlive₂ hledger₂ h.valid hf hp, ?_, ⟨rfl, rfl, rfl, rfl, rfl⟩, st, ?_, ?_⟩
    · rw [hlive', hs₁]
    · rw [← hstreams₁]
      exact htold.cancelled
    · rw [Scheduler.liveSlots, hlive', ← hstreams₁]
      rw [hs₁] at hf ⊢
      exact { hf with }
  have hbackend : (s₁.withStream member.cancelled st reads).backend = s.backend := by
    rw [hs₁]
    rfl
  have hcontent : w.Reliable → ∃ n,
      contents ((s₁.withStream member.cancelled st reads).backend.slots member.slot)
        = tagged (nsTag (s₁.withStream member.cancelled st reads).backend.activeAdapter
            (adapterNamespace group.adapter)) ((group.prompt ++ member.history).take n) := by
    intro hw
    rw [hbackend, hpool.rows.tag hg]
    exact h.live.content hw group hg member (mem_of_getElem? hat.atMember) hat.live
  refine wp_mono (handOver_spec hpool₂ hnot hlt hcontent) ?_ ?_
  · rintro node s₃ ⟨P₃, hpool₃, hf₃, hnode⟩
    refine wp_mono (query_spec ()) ?_ ?_
    · rintro _ s₄ ⟨-, hq₄⟩
      have hf₄ := hf₃.trans (Upkeep.quiet hq₄).toFrame
      refine wp_mono (retainFinished_spec (hpool₃.quiet hq₄) member.retention reason hnode) ?_ ?_
      · rintro _ s₅ ⟨hpool₅, hu₅⟩
        exact hdone hpool₅ (hf₄.trans hu₅.toFrame)
      · rintro stop s₅ ⟨herror, -, P₅, hpool₅, hu₅, -⟩
        exact ⟨herror, hdone hpool₅ (hf₄.trans hu₅.toFrame)⟩
    · rintro stop s₄ ⟨herror, -, hq₄⟩
      exact ⟨herror, hdone (hpool₃.quiet hq₄) (hf₃.trans (Upkeep.quiet hq₄).toFrame)⟩
  · rintro stop s₃ ⟨herror, -, P₃, hpool₃, hf₃⟩
    exact ⟨herror, hdone hpool₃ hf₃⟩

/-! ### Moving a member -/

/-- A stream moved, and the ledger with it. -/
theorem Inv.withStream {pending' : List Queued} {id : ℕ} {reads : ℕ} (h : Inv w pending s)
    (hledger : Ledger pending' s.keys (Function.update s.streams id st) s.nextStream)
    (hvalid : ∀ q ∈ pending', q.request.validate = .ok ()) :
    Inv w pending' (s.withStream id st reads) := by
  obtain ⟨P, hp⟩ := h.pool
  exact {
    pool := ⟨P, hp.congr rfl rfl rfl rfl rfl rfl (hp.rows.congr rfl rfl rfl rfl rfl)⟩
    live := { h.live with }
    ledger := hledger
    valid := hvalid }

variable {member' : LiveMember}

/-- A member that moved holds no slot but its own. -/
theorem Moved.slots_subset (h : Moved g m group member member' s s')
    (hat : LiveAt s g m group member) : ∀ σ ∈ s'.liveSlots, σ ∈ s.liveSlots := by
  intro σ hσ
  obtain ⟨x, hx, rfl⟩ := mem_map.mp hσ
  rw [h.live] at hx
  obtain ⟨group', hg', hx', hlive⟩ := mem_liveOf.mp hx
  rcases mem_or_eq_of_mem_set hg' with hg' | rfl
  · exact mem_map_of_mem (mem_liveOf.mpr ⟨group', hg', hx', hlive⟩)
  · rcases mem_or_eq_of_mem_set hx' with hx' | rfl
    · exact mem_map_of_mem
        (mem_liveOf.mpr ⟨group, mem_of_getElem? hat.atGroup, hx', hlive⟩)
    · rw [h.same.slot]
      exact hat.mem_slots

theorem LiveGroup.moved_moved {member₁ member₂ : LiveMember} (hlive : member₁.live = true)
    (hsame : SameMember member member₁) :
    (group.moved m member member₁).moved m member₁ member₂ = group.moved m member member₂ := by
  simp only [LiveGroup.moved, hlive, if_true, set_set, hsame.share]

theorem Moved.trans {member₁ member₂ : LiveMember} {s₁ s₂ : Scheduler}
    (hat : LiveAt s₁ g m (group.moved m member member₁) member₁)
    (h : Moved g m group member member₁ s s₁)
    (h' : Moved g m (group.moved m member member₁) member₁ member₂ s₁ s₂) :
    Moved g m group member member₂ s s₂ := by
  have hcancelled : member₁.cancelled = member.cancelled := congrArg Prod.fst h.same.key
  obtain ⟨st, hst, hf⟩ := h.frame
  obtain ⟨st', hst', hf'⟩ := h'.frame
  refine ⟨?_, ⟨h'.same.slot.trans h.same.slot, h'.same.requestId.trans h.same.requestId,
    h'.same.key.trans h.same.key, h'.same.limit.trans h.same.limit,
    h'.same.share.trans h.same.share⟩, st', fun hc => hst' ?_, ?_⟩
  · rw [h'.live, h.live, set_set, LiveGroup.moved_moved hat.live h.same]
  · rw [hcancelled, hf.streams]
    exact (congrArg Stream.cancelled (update_self ..)).trans (hst hc)
  · have hsub := h'.slots_subset hat
    have hstreams : Function.update s₁.streams member₁.cancelled st'
        = Function.update s.streams member.cancelled st' := by
      rw [hcancelled, hf.streams, update_idem]
    rw [hstreams] at hf'
    refine Frame.trans ?_ hf'
    exact { hf.mono hsub with live := rfl, streams := rfl }

/-- A live member that moves without ending keeps the invariant. -/
theorem Inv.move (h : Inv w pending s) (hat : LiveAt s g m group member)
    (hsame : SameMember member member') (hlive : member'.live = true)
    (hshape : MemberShape group member') (hhistory : member.history <+: member'.history) :
    Inv w pending { s with live := s.live.set g (group.moved m member member') } ∧
      LiveAt { s with live := s.live.set g (group.moved m member member') } g m
        (group.moved m member member') member' := by
  obtain ⟨P, hpool⟩ := h.pool
  have hset : s.live.set g (group.moved m member member')
      = s.live.modify g fun _ => group.moved m member member' :=
    (modify_eq_set (f := fun _ => _) hat.atGroup rfl).symm
  have hmembers : (group.moved m member member').members
      = group.members.modify m fun _ => member' :=
    (modify_eq_set (f := fun _ => member') hat.atMember rfl).symm
  have hkeep : member'.live = member.live := by rw [hlive, hat.live]
  have hslots : (liveOf (s.live.modify g fun _ => group.moved m member member')).map
      LiveMember.slot = (liveOf s.live).map LiveMember.slot :=
    liveOf_touch hat.atGroup hat.atMember hmembers hkeep hsame.slot
  have hkeys : (liveOf (s.live.modify g fun _ => group.moved m member member')).map
      LiveMember.key = (liveOf s.live).map LiveMember.key :=
    liveOf_touch hat.atGroup hat.atMember hmembers hkeep hsame.key
  refine ⟨?_, ?_⟩
  · rw [hset]
    refine ⟨⟨P, ?_⟩, ?_, ?_, h.valid⟩
    · rw [Scheduler.liveSlots, hslots]
      refine hpool.setLive (exists_modify fun group' hg' => ?_)
      rw [hat.atGroup] at hg'
      cases hg'
      rfl
    · exact h.live.touch hat ⟨rfl, rfl, rfl, rfl⟩ rfl hmembers hshape hlive hsame.slot
        hsame.requestId hhistory
    · rw [Scheduler.keys, hkeys]
      exact h.ledger
  · refine ⟨?_, ?_, hlive⟩
    · show (s.live.set g _)[g]? = _
      rw [getElem?_set_self (List.getElem?_eq_some_iff.mp hat.atGroup).1]
    · show (group.members.set m member')[m]? = _
      rw [getElem?_set_self (List.getElem?_eq_some_iff.mp hat.atMember).1]

theorem LiveAt.setMember {k : LiveMember → LiveMember} (hat : LiveAt s g m group member)
    (hk : k member = member') (hlive : member'.live = true) :
    s.setMember g m k = { s with live := s.live.set g (group.moved m member member') } := by
  rw [Scheduler.setMember, Scheduler.setGroup, modify_eq_set hat.atGroup rfl]
  rw [LiveGroup.moved, if_pos hlive, modify_eq_set hat.atMember hk]

theorem Moved.step (hsame : SameMember member member') : Moved g m group member member' s
      { s with live := s.live.set g (group.moved m member member') } :=
  ⟨rfl, hsame, s.streams member.cancelled, id, by
    rw [update_eq_self]
    exact Frame.refl _ _⟩

theorem Moved.framed {s₁ s₂ : Scheduler} (h : Moved g m group member member' s s₁)
    (hf : Frame s₁.liveSlots s₁ s₂) : Moved g m group member member' s s₂ := by
  obtain ⟨st, hst, hf₁⟩ := h.frame
  refine ⟨hf.live.trans h.live, h.same, st, hst, ?_⟩
  rw [Scheduler.liveSlots, hf.live]
  exact hf₁.trans hf

theorem Moved.streamed {s₁ : Scheduler} {reads : ℕ} (h : Moved g m group member member' s s₁)
    (hst : (s₁.streams member.cancelled).cancelled = true → st.cancelled = true) :
    Moved g m group member member' s (s₁.withStream member.cancelled st reads) := by
  obtain ⟨st₁, hst₁, hf₁⟩ := h.frame
  refine ⟨h.live, h.same, st, fun hc => hst ?_, ?_⟩
  · rw [hf₁.streams]
    exact (congrArg Stream.cancelled (update_self ..)).trans (hst₁ hc)
  · refine { hf₁ with streams := ?_ }
    show Function.update s₁.streams member.cancelled st = _
    rw [hf₁.streams]
    exact update_idem ..

theorem LiveAt.framed {H : List ℕ} (hat : LiveAt s g m group member) (hf : Frame H s s') :
    LiveAt s' g m group member :=
  { hat with atGroup := by rw [hf.live]; exact hat.atGroup }

/-! ### What stays beside -/

/-- The parts of a scheduler that an iteration leaves alone outside its admission pass. -/
structure Aside (s s' : Scheduler) : Prop where
  options : s'.options = s.options
  queue : s'.queue = s.queue
  inHand : s'.inHand = s.inHand
  nextStream : s'.nextStream = s.nextStream
  rowAdapters : s'.rowAdapters = s.rowAdapters
  unloadedAdapters : s'.unloadedAdapters = s.unloadedAdapters

theorem Aside.refl (s : Scheduler) : Aside s s := ⟨rfl, rfl, rfl, rfl, rfl, rfl⟩

theorem Aside.trans {s'' : Scheduler} (h : Aside s s') (h' : Aside s' s'') :
    Aside s s'' where
  options := h'.options.trans h.options
  queue := h'.queue.trans h.queue
  inHand := h'.inHand.trans h.inHand
  nextStream := h'.nextStream.trans h.nextStream
  rowAdapters := h'.rowAdapters.trans h.rowAdapters
  unloadedAdapters := h'.unloadedAdapters.trans h.unloadedAdapters

theorem Beside.aside (h : Beside s s') : Aside s s' :=
  ⟨h.options, h.queue, h.inHand, h.nextStream, h.rowAdapters, h.unloadedAdapters⟩

theorem Quiet.aside (h : Quiet s s') : Aside s s' :=
  (Upkeep.quiet h (H := [])).toBeside.aside

theorem Moved.aside (h : Moved g m group member member' s s') : Aside s s' := by
  obtain ⟨st, -, hf⟩ := h.frame
  exact ⟨hf.options, hf.queue, hf.inHand, hf.nextStream, hf.rowAdapters, hf.unloadedAdapters⟩

/-! ### Emitting a token -/

theorem sampledPiece_spec (member : LiveMember) (token : Token) :
    wp (sampledPiece w member token) (fun _ s' => Quiet s s') (QuietFails w s) s := by
  unfold sampledPiece
  have hpiece : ∀ (silent : Bool) s₁, Quiet s s₁ → wp (if silent = true then pure []
      else query w (w.piece token member.unparseSpecial)) (fun _ s' => Quiet s s')
      (QuietFails w s) s₁ := by
    intro silent s₁ hq₁
    rw [wp_ite]
    refine ⟨fun _ => hq₁, fun _ => wp_mono (query_spec _) ?_ fun _ _ hf => hf.trans hq₁⟩
    exact fun _ s₂ ⟨_, hq₂⟩ => hq₁.trans hq₂
  dsimp only
  rw [wp_ite]
  refine ⟨fun _ => ?_, fun _ => hpiece false s (Quiet.refl s)⟩
  rw [wp_bind]
  refine wp_mono (query_spec _) ?_ fun _ _ hf => hf
  exact fun silent s₁ ⟨_, hq₁⟩ => hpiece silent s₁ hq₁

theorem topPieces_spec (unparseSpecial : Bool) (top : List (Token × F32)) : ∀ {s : Scheduler},
    wp (topPieces w unparseSpecial top) (fun _ s' => Quiet s s') E s := by
  induction top with
  | nil => exact fun {s} => Quiet.refl s
  | cons entry top ih =>
    intro s
    obtain ⟨token, logprob⟩ := entry
    unfold topPieces
    rw [wp_bind]
    refine wp_attempt_call (wp_mono (query_spec _) ?_ fun _ _ hf => hf) ?_
    · rintro _ s₁ ⟨-, hq₁⟩
      rw [wp_bind]
      exact wp_mono ih (fun _ _ hq₂ => hq₁.trans hq₂) fun _ _ hf => hf
    · intro s₁ hq₁
      rw [wp_bind]
      exact wp_mono ih (fun _ _ hq₂ => hq₁.trans hq₂) fun _ _ hf => hf

theorem stopReason_ne_cancelled (member : LiveMember) : stopReason member ≠ some .cancelled := by
  unfold stopReason
  split
  · split <;> nofun
  · nofun

/-- A member ends as cancelled only when its stream did not take the token. -/
theorem endReason_spec (member : LiveMember) (token : Token) (sent stopHit : Bool) :
    wp (endReason w member token sent stopHit) (fun reason s' => Quiet s s' ∧
      (reason = some .cancelled → sent = false) ∧ (reason = none → stopReason member = none))
      (QuietFails w s) s := by
  unfold endReason
  simp only [wp_ite, wp_bind, wp_pure]
  refine ⟨fun hsent => ⟨Quiet.refl s, fun _ => by simpa using hsent, by simp⟩, fun _ =>
    ⟨fun _ => ⟨Quiet.refl s, by simp, by simp⟩, fun _ => ?_⟩⟩
  refine wp_mono (query_spec _) ?_ fun _ _ hf => hf
  rintro eog s₁ ⟨-, hq⟩
  cases eog with
  | true => exact ⟨hq, by simp, by simp⟩
  | false => exact ⟨hq, fun hr => absurd hr (stopReason_ne_cancelled member), id⟩

/-- What emitting a token leaves of its member: it has ended, or it has one more token and may
generate more. -/
structure Fed (token : Token) (member member' : LiveMember) : Prop where
  generated : member'.live = true → member'.generated = member.generated + 1
  history : member'.live = true → member'.history = member.history ++ [token]
  generated_lt : member'.live = true → member'.generated < member'.limit

/-- Ends a member where there is a reason to. -/
private def finishFor (w : World) (g m : ℕ) (reason : Option FinishReason) : M Unit :=
  match reason with
  | some reason => finishMember w g m reason
  | none => pure ()

/-- Emitting a sampled token keeps the invariant, and feeds or ends its member. -/
theorem emitSampled_spec (h : Inv w pending s) (hat : LiveAt s g m group member)
    (hlimit : member.generated < member.limit) (produced : StepOutRow) :
    wp (emitSampled w g m produced) (fun _ s' => Inv w pending s' ∧
      ∃ member', Moved g m group member member' s s' ∧ Fed produced.token member member')
      (fun stop s' => (∃ error, stop = .error error) ∧ Inv w pending s' ∧ Aside s s') s := by
  have hend : ∀ {s₁ group₁ member₁ reason}, Inv w pending s₁ → LiveAt s₁ g m group₁ member₁ →
      (reason = .cancelled → (s₁.streams member₁.cancelled).lost) →
      (∀ s', Moved g m group₁ member₁ member₁.ended s₁ s' →
        Moved g m group member member₁.ended s s') →
      wp (finishMember w g m reason) (fun _ s' => Inv w pending s' ∧
        ∃ member', Moved g m group member member' s s' ∧ Fed produced.token member member')
        (fun stop s' => (∃ error, stop = .error error) ∧ Inv w pending s' ∧ Aside s s') s₁ := by
    intro s₁ group₁ member₁ reason h₁ hat₁ hreason hmoved
    refine wp_mono (finishMember_spec h₁ hat₁ hreason) ?_ ?_
    · rintro _ s' ⟨h', hm⟩
      exact ⟨h', _, hmoved s' hm, (fun h => by cases h), (fun h => by cases h),
        (fun h => by cases h)⟩
    · rintro stop s' ⟨herror, h', hm⟩
      exact ⟨herror, h', (hmoved s' hm).aside⟩
  have hshape := hat.shape h.live
  unfold emitSampled
  rw [wp_bind, wp_groupAt hat.atGroup, wp_bind, wp_memberAt hat.atMember, wp_bind]
  unfold isCancelled
  simp only [wp_bind, wp_get, wp_pure]
  rw [wp_ite]
  refine ⟨fun hcancelled => ?_, fun _ => ?_⟩
  · exact hend h hat (fun _ => h.ledger.cancelled _ hcancelled) fun s' hm => hm
  rw [wp_ite]
  refine ⟨fun _ => ⟨⟨_, rfl⟩, h, Aside.refl s⟩, fun _ => ?_⟩
  -- the token joins the history
  obtain ⟨member₁, hmember₁⟩ : ∃ member₁ : LiveMember, member₁ = { member with
      generated := member.generated + 1
      nextToken := produced.token
      history := member.history ++ [produced.token] } := ⟨_, rfl⟩
  have hsame₁ : SameMember member member₁ := by
    rw [hmember₁]
    exact ⟨rfl, rfl, rfl, rfl, rfl⟩
  have hshape₁ : MemberShape group member₁ := by
    rw [hmember₁]
    exact { hshape with
      history := by simp [hshape.history]
      next := fun _ => by simp
      generated_le := fun _ => hlimit }
  obtain ⟨h₁, hat₁⟩ := h.move hat hsame₁ (by rw [hmember₁]; exact hat.live) hshape₁
    (by rw [hmember₁]; exact prefix_append ..)
  obtain ⟨s₁, hs₁⟩ : ∃ s₁ : Scheduler, s₁ = { s with
      live := s.live.set g (group.moved m member member₁) } := ⟨_, rfl⟩
  have hm₁ : Moved g m group member member₁ s s₁ := hs₁ ▸ Moved.step hsame₁
  have hstart : s.setMember g m (fun member => { member with
      generated := member.generated + 1
      nextToken := produced.token
      history := member.history ++ [produced.token] }) = s₁ := by
    rw [hs₁]
    exact hat.setMember hmember₁.symm hat₁.live
  rw [wp_bind, wp_modify, hstart]
  rw [← hs₁] at h₁ hat₁
  rw [wp_bind]
  refine wp_mono (sampledPiece_spec member produced.token) ?_ fun stop s' hf =>
    ⟨hf.1, h₁.quiet hf.2.2, hm₁.aside.trans hf.2.2.aside⟩
  rintro piece s₂ hq₂
  have hf₂ : Frame s₁.liveSlots s₁ s₂ := (Upkeep.quiet hq₂).toFrame
  have h₂ := h₁.quiet hq₂
  have hat₂ := hat₁.framed hf₂
  have hm₂ := hm₁.framed hf₂
  -- the detokenizer takes its bytes
  obtain ⟨⟨text, stopHit⟩, detok⟩ := member.detok.pushBytes piece
  obtain ⟨member₃, hmember₃⟩ : ∃ member₃ : LiveMember, member₃ = { member₁ with detok } :=
    ⟨_, rfl⟩
  have hsame₃ : SameMember member₁ member₃ := by
    rw [hmember₃]
    exact ⟨rfl, rfl, rfl, rfl, rfl⟩
  have hshape₃ : MemberShape (group.moved m member member₁) member₃ := by
    rw [hmember₃]
    exact { hshape₁ with }
  obtain ⟨h₃, hat₃⟩ := h₂.move hat₂ hsame₃ (by rw [hmember₃]; exact hat₂.live) hshape₃
    (by rw [hmember₃])
  obtain ⟨s₃, hs₃⟩ : ∃ s₃ : Scheduler, s₃ = { s₂ with
      live := s₂.live.set g ((group.moved m member member₁).moved m member₁ member₃) } := ⟨_, rfl⟩
  have hm₃ : Moved g m group member member₃ s s₃ :=
    Moved.trans hat₂ hm₂ (hs₃ ▸ Moved.step hsame₃)
  have hdetok : s₂.setMember g m (fun member => { member with detok }) = s₃ := by
    rw [hs₃]
    exact hat₂.setMember hmember₃.symm hat₃.live
  dsimp only
  rw [wp_bind, wp_modify, hdetok]
  rw [← hs₃] at h₃ hat₃
  have hkey₃ : member₃.key = member.key := hm₃.same.key
  have hcancelled₃ : member₃.cancelled = member.cancelled := congrArg Prod.fst hkey₃
  have hdone : ∀ {s₄}, Inv w pending s₄ → Moved g m group member member₃ s s₄ →
      stopReason { member with generated := member.generated + 1 } = none →
      Inv w pending s₄ ∧ ∃ member', Moved g m group member member' s s₄ ∧
        Fed produced.token member member' := by
    intro s₄ h₄ hm₄ hstop
    refine ⟨h₄, member₃, hm₄, fun _ => ?_, fun _ => ?_, fun _ => ?_⟩
    · rw [hmember₃, hmember₁]
    · rw [hmember₃, hmember₁]
    · unfold stopReason at hstop
      rw [hmember₃, hmember₁]
      by_contra hle
      rw [if_pos (by dsimp only at hle ⊢; omega)] at hstop
      split at hstop <;> cases hstop
  rw [LiveGroup.moved_moved hat₂.live hsame₁] at hat₃
  have hfinish : ∀ {s₄} (reason : Option FinishReason), Inv w pending s₄ →
      LiveAt s₄ g m (group.moved m member member₃) member₃ →
      Moved g m group member member₃ s s₄ →
      (reason = some .cancelled → (s₄.streams member₃.cancelled).lost) →
      (reason = none → stopReason { member with generated := member.generated + 1 } = none) →
      wp (finishFor w g m reason) (fun _ s' => Inv w pending s' ∧
          ∃ member', Moved g m group member member' s s' ∧ Fed produced.token member member')
        (fun stop s' => (∃ error, stop = .error error) ∧ Inv w pending s' ∧ Aside s s') s₄ := by
    intro s₄ reason h₄ hat₄ hm₄ hreason hnone
    cases reason with
    | none => exact hdone h₄ hm₄ (hnone rfl)
    | some reason =>
      refine hend h₄ hat₄ (fun hr => hreason (by rw [hr])) fun s' hm' => ?_
      have := Moved.trans hat₄ hm₄ hm'
      rwa [hmember₃, hmember₁] at this ⊢
  have hsend : ∀ {s₄} (topLogprobs : List TopLogprob), Quiet s₃ s₄ → wp (do
      let sent ← sendBounded w member.cancelled (.token {
        index := member.index, token := produced.token, logprob := produced.logprob
        sampledLogprob := if member.wantLogprob then some produced.sampledLogprob else none
        forced := produced.forced, text, piece, topLogprobs })
      let grown := { member with generated := member.generated + 1 }
      let reason ← endReason w grown produced.token sent stopHit
      finishFor w g m reason) (fun _ s' => Inv w pending s' ∧
          ∃ member', Moved g m group member member' s s' ∧ Fed produced.token member member')
        (fun stop s' => (∃ error, stop = .error error) ∧ Inv w pending s' ∧ Aside s s') s₄ := by
    intro s₄ topLogprobs hq₄
    have hf₄ : Frame s₃.liveSlots s₃ s₄ := (Upkeep.quiet hq₄).toFrame
    have h₄ := h₃.quiet hq₄
    have hat₄ := hat₃.framed hf₄
    rw [wp_bind]
    refine wp_mono (sendBounded_spec _ _) ?_ fun _ _ hf => hf
    rintro taken s₅ ⟨st, reads, ho, hs₅⟩
    have hm₅ : Moved g m group member member₃ s s₅ := by
      rw [hs₅]
      exact (hm₃.framed hf₄).streamed fun hc => ho.cancelled.trans hc
    have h₅ : Inv w pending s₅ := by
      rw [hs₅]
      refine h₄.withStream ?_ h.valid
      have hkey : member.key ∈ s₄.keys := by
        rw [← hkey₃]
        exact mem_map_of_mem hat₄.mem_liveOf
      exact h₄.ledger.token hkey rfl rfl ho
    have hat₅ : LiveAt s₅ g m (group.moved m member member₃) member₃ := by
      rw [hs₅]
      exact { hat₄ with }
    have hlost : taken = false → (s₅.streams member₃.cancelled).lost := fun htaken => by
      rw [hs₅, hcancelled₃]
      show (Function.update s₄.streams member.cancelled st member.cancelled).lost
      rw [update_self]
      exact ho.taken_or_lost htaken
    rw [wp_bind]
    refine wp_mono (endReason_spec _ _ _ _) ?_ fun stop s₆ hf =>
      ⟨hf.1, h₅.quiet hf.2.2, hm₅.aside.trans hf.2.2.aside⟩
    rintro reason s₆ ⟨hq₆, hcancel, hnone⟩
    have hf₆ : Frame s₅.liveSlots s₅ s₆ := (Upkeep.quiet hq₆).toFrame
    refine hfinish reason (h₅.quiet hq₆) (hat₅.framed hf₆) (hm₅.framed hf₆) (fun hr => ?_) hnone
    rw [hf₆.streams]
    exact hlost (hcancel hr)
  rw [hat.events h.live]
  dsimp only
  rw [wp_ite]
  refine ⟨fun _ => ?_, fun _ => hsend [] (Quiet.refl s₃)⟩
  rw [wp_bind]
  exact wp_mono (topPieces_spec _ _) (fun top s₄ hq₄ => hsend top hq₄) fun _ _ hf => hf

end Retrograd.Infer
