import Retrograd.Infer.Evict
import Retrograd.Infer.Ledger

/-!
# The invariant of a scheduler

The live members are the owners of the held slots. `Live` says what holds of them at any time,
also in the middle of an iteration that fails: their slots and request ids are their own, and a
live member's slot holds a **prefix of its prompt and history**, decoded under its group's
adapter. `Inv` puts the slot pool, the live members and the ledger together.
-/

namespace Retrograd.Infer

open Logic List

/-! ### Members of a list of groups -/

/-- The members that are still live, of all groups. -/
def liveOf (live : List LiveGroup) : List LiveMember :=
  live.flatMap fun group => group.members.filter LiveMember.live

variable {α : Type}

theorem split_at {l : List α} {i : ℕ} {x : α} (h : l[i]? = some x) :
    ∃ A B, l = A ++ x :: B ∧ A.length = i := by
  obtain ⟨hi, rfl⟩ := List.getElem?_eq_some_iff.mp h
  exact ⟨l.take i, l.drop (i + 1), by simp, by rw [length_take]; omega⟩

theorem modify_split (A B : List α) (x : α) (f : α → α) :
    (A ++ x :: B).modify A.length f = A ++ f x :: B := by
  induction A with
  | nil => rfl
  | cons a A ih => exact congrArg (a :: ·) ih

theorem liveOf_split (A B : List LiveGroup) (group : LiveGroup) :
    liveOf (A ++ group :: B)
      = liveOf A ++ (group.members.filter LiveMember.live ++ liveOf B) := by
  simp [liveOf]

variable {live : List LiveGroup} {g m : ℕ} {group : LiveGroup} {member : LiveMember}
  {f : LiveGroup → LiveGroup} {k : LiveMember → LiveMember}

/-- Ending one live member leaves the others. -/
theorem liveOf_kill (hg : live[g]? = some group) (hm : group.members[m]? = some member)
    (hlive : member.live = true) (hf : (f group).members = group.members.modify m k)
    (hk : (k member).live = false) :
    (member :: liveOf (live.modify g f)).Perm (liveOf live) := by
  obtain ⟨A, B, rfl, rfl⟩ := split_at hg
  obtain ⟨C, D, hmembers, rfl⟩ := split_at hm
  rw [modify_split, liveOf_split, liveOf_split, hf, hmembers, modify_split]
  simp only [filter_append, filter_cons, hlive, hk, if_true, Bool.false_eq_true,
    if_false]
  calc (member :: (liveOf A ++ (C.filter LiveMember.live ++ D.filter LiveMember.live ++
        liveOf B))).Perm (liveOf A ++ member :: (C.filter LiveMember.live ++
        D.filter LiveMember.live ++ liveOf B)) := perm_middle.symm
    _ |>.Perm (liveOf A ++ (C.filter LiveMember.live ++ member :: D.filter LiveMember.live ++
        liveOf B)) := by
      refine Perm.append_left _ ?_
      rw [append_assoc, append_assoc, cons_append]
      exact perm_middle.symm

/-- Changing a member, but not whether it lives, changes no projection the change keeps. -/
theorem liveOf_touch {proj : LiveMember → α} (hg : live[g]? = some group)
    (hm : group.members[m]? = some member) (hf : (f group).members = group.members.modify m k)
    (hk : (k member).live = member.live) (hproj : proj (k member) = proj member) :
    (liveOf (live.modify g f)).map proj = (liveOf live).map proj := by
  obtain ⟨A, B, rfl, rfl⟩ := split_at hg
  obtain ⟨C, D, hmembers, rfl⟩ := split_at hm
  rw [modify_split, liveOf_split, liveOf_split, hf, hmembers, modify_split]
  cases hlive : member.live <;>
    simp [hk, hlive, hproj]

/-- Changing a group beside its members changes no member. -/
theorem liveOf_regroup (hg : live[g]? = some group) (hf : (f group).members = group.members) :
    liveOf (live.modify g f) = liveOf live := by
  obtain ⟨A, B, rfl, rfl⟩ := split_at hg
  rw [modify_split, liveOf_split, liveOf_split, hf]

/-- Groups without live members can be dropped. -/
theorem liveOf_filter (live : List LiveGroup) :
    liveOf (live.filter fun group => group.members.any LiveMember.live) = liveOf live := by
  induction live with
  | nil => rfl
  | cons group live ih =>
    rw [filter_cons]
    split
    · exact congrArg (group.members.filter LiveMember.live ++ ·) ih
    · next hany =>
      have hnil : group.members.filter LiveMember.live = [] := by
        simpa [filter_eq_nil_iff] using hany
      rw [ih, liveOf, liveOf, flatMap_cons, hnil, nil_append]

theorem mem_liveOf : member ∈ liveOf live ↔
    ∃ group ∈ live, member ∈ group.members ∧ member.live = true := by
  simp [liveOf]

/-- A property of every group holds after one of them changed. -/
theorem forall_modify {Q : α → Prop} {l : List α} {i : ℕ} {f : α → α} (h : ∀ x ∈ l, Q x)
    (hf : ∀ x, l[i]? = some x → Q (f x)) : ∀ x ∈ l.modify i f, Q x := by
  intro x hx
  obtain ⟨j, hj⟩ := mem_iff_getElem?.mp hx
  rw [getElem?_modify] at hj
  obtain ⟨y, hy, rfl⟩ := Option.map_eq_some_iff.mp hj
  split
  · next heq => exact hf y (heq ▸ hy)
  · exact h y (mem_of_getElem? hy)

/-! ### Groups -/

/-- What holds of a member at any time. -/
structure MemberShape (group : LiveGroup) (member : LiveMember) : Prop where
  events : member.events = if member.live then some member.cancelled else none
  history : member.history.length = member.generated
  next : member.generated ≠ 0 → member.history.getLast? = some member.nextToken
  share : member.reservedShare = group.prompt.length - group.cacheHit + member.limit
  limit_pos : 0 < member.limit
  generated_le : member.live = true → member.generated ≤ member.limit

/-- What holds of a group at any time. -/
structure Shape (group : LiveGroup) : Prop where
  prompt_ne : group.prompt ≠ []
  prefixEnd : group.prefixEnd =
    if 1 < group.members.length then group.prompt.length - 1 else group.prompt.length
  leader_lt : group.leader < group.members.length
  hit_lt : group.cacheHit < group.prompt.length
  member : ∀ member ∈ group.members, MemberShape group member

/-- What a live member's key is in the ledger. -/
def LiveMember.key (member : LiveMember) : ℕ × ℕ := (member.cancelled, member.index)

namespace Scheduler

/-- The slots live members hold. -/
def liveSlots (s : Scheduler) : List ℕ := (liveOf s.live).map LiveMember.slot

/-- The keys live members hold. -/
def keys (s : Scheduler) : List (ℕ × ℕ) := (liveOf s.live).map LiveMember.key

end Scheduler

/-- A slot holds a prefix of a member's prompt and history. -/
def Holds (s : Scheduler) (group : LiveGroup) (member : LiveMember) : Prop :=
  ∃ n, contents (s.backend.slots member.slot)
    = tagged (group.adapter.tag s.backend.activeAdapter) ((group.prompt ++ member.history).take n)

/-- What holds of the live members at any time. -/
structure Live (w : World) (s : Scheduler) : Prop where
  slots_nodup : s.liveSlots.Nodup
  slots_lt : ∀ σ ∈ s.liveSlots, σ < w.nSlots
  ids_nodup : ((liveOf s.live).map LiveMember.requestId).Nodup
  ids_range : ∀ id ∈ (liveOf s.live).map LiveMember.requestId, 0 < id ∧ id ≤ i32Max
  next_range : 0 < s.nextRequestId ∧ s.nextRequestId ≤ i32Max
  next_free : s.nextRequestId ∉ (liveOf s.live).map LiveMember.requestId
  shape : ∀ group ∈ s.live, Shape group
  content : w.Reliable → ∀ group ∈ s.live, ∀ member ∈ group.members, member.live = true →
    Holds s group member

/-- The invariant, while the requests `pending` are not placed. -/
structure Inv (w : World) (pending : List Queued) (s : Scheduler) : Prop where
  pool : ∃ P, Pool w s.liveSlots P s
  live : Live w s
  ledger : Ledger pending s.keys s.streams s.nextStream
  valid : ∀ q ∈ pending, q.request.validate = .ok ()

variable {w : World} {s s' : Scheduler} {pending pending' : List Queued}

/-- Emptying slots keeps the live members' prefixes. -/
theorem Live.emptied (h : Live w s) (hb : Beside s s')
    (hactive : s'.backend.activeAdapter = s.backend.activeAdapter)
    (hslots : ∀ σ ∈ s.liveSlots, s'.backend.slots σ = s.backend.slots σ ∨ s'.backend.slots σ = []) :
    Live w s' := by
  have hslots' : s'.liveSlots = s.liveSlots := by rw [Scheduler.liveSlots, hb.live]; rfl
  constructor
  case slots_nodup => rw [hslots']; exact h.slots_nodup
  case slots_lt => rw [hslots']; exact h.slots_lt
  case ids_nodup => rw [hb.live]; exact h.ids_nodup
  case ids_range => rw [hb.live]; exact h.ids_range
  case next_range => rw [hb.nextRequestId]; exact h.next_range
  case next_free => rw [hb.live, hb.nextRequestId]; exact h.next_free
  case shape => rw [hb.live]; exact h.shape
  case content =>
    intro hw group hg member hmem hlive
    rw [hb.live] at hg
    have hσ : member.slot ∈ s.liveSlots :=
      mem_map_of_mem (mem_liveOf.mpr ⟨group, hg, hmem, hlive⟩)
    rcases hslots member.slot hσ with hslot | hslot
    · obtain ⟨n, hn⟩ := h.content hw group hg member hmem hlive
      exact ⟨n, by rw [hslot, hactive, hn]⟩
    · exact ⟨0, by rw [hslot, take_zero]; rfl⟩

/-- Whoever leaves the live members and their slots alone keeps what holds of them. -/
theorem Live.beside (h : Live w s) (hb : Beside s s')
    (hactive : s'.backend.activeAdapter = s.backend.activeAdapter)
    (hkept : ∀ σ ∈ s.liveSlots, s'.backend.slots σ = s.backend.slots σ) : Live w s' :=
  h.emptied hb hactive fun σ hσ => .inl (hkept σ hσ)

theorem Live.frame (h : Live w s) (hf : Frame s.liveSlots s s') : Live w s' :=
  h.beside hf.toBeside hf.active hf.kept

/-- The invariant of a state that a frame has reached. -/
theorem Inv.of_frame {P' : Labels} (hlive : Live w s)
    (hledger : Ledger pending s.keys s.streams s.nextStream)
    (hvalid : ∀ q ∈ pending, q.request.validate = .ok ()) (hf : Frame s.liveSlots s s')
    (hp : Pool w s.liveSlots P' s') : Inv w pending s' where
  pool := ⟨P', by rw [Scheduler.liveSlots, hf.live]; exact hp⟩
  live := hlive.frame hf
  ledger := by
    rw [Scheduler.keys, hf.live, hf.streams, hf.nextStream]
    exact hledger
  valid := hvalid

/-- A program around the tree keeps the invariant. -/
theorem Inv.frame {P' : Labels} (h : Inv w pending s) (hf : Frame s.liveSlots s s')
    (hp : Pool w s.liveSlots P' s') : Inv w pending s' :=
  Inv.of_frame h.live h.ledger h.valid hf hp

theorem Inv.kept {P : Labels} (h : Inv w pending s) (hk : Kept w s.liveSlots P s s') :
    Inv w pending s' := by
  obtain ⟨P', hp, hu, -⟩ := hk
  exact h.frame hu.toFrame hp

theorem Inv.quiet (h : Inv w pending s) (hq : Quiet s s') : Inv w pending s' := by
  obtain ⟨P, hp⟩ := h.pool
  exact h.kept (Kept.quiet hp hq)

/-- Only who is pending matters, not the order. -/
theorem Inv.perm (h : Inv w pending s) (hperm : pending'.Perm pending) : Inv w pending' s :=
  { h with
    ledger := h.ledger.perm hperm (Perm.refl _)
    valid := fun q hq => h.valid q (hperm.mem_iff.mp hq) }

/-- The namespace of a row adapter is decoded under the adapter's tag. -/
theorem nsTag_adapterNamespace {adapter : RowAdapter} (hbase : adapter ≠ .base)
    (hpos : ∀ id, adapter = .loaded id → 0 < id) (active : Option String) :
    nsTag active (adapterNamespace adapter) = adapter.tag active := by
  cases adapter with
  | context => rfl
  | base => exact absurd rfl hbase
  | loaded id => exact if_neg (hpos id rfl).ne'

/-- A group's namespace is decoded under the group's tag. -/
theorem Rows.tag (h : Rows s) (hg : group ∈ s.live) (active : Option String) :
    nsTag active (adapterNamespace group.adapter) = group.adapter.tag active := by
  refine nsTag_adapterNamespace (h.live_ne_base group hg) (fun id hid => ?_) active
  rcases h.live group hg id hid with hret | ⟨name, hname⟩
  · exact (h.retiring id hret).1
  · exact (h.names name id hname).1

/-! ### Changing one group -/

/-- The parts of a group that say what its members' slots hold. -/
structure Alike (group group' : LiveGroup) : Prop where
  prompt : group'.prompt = group.prompt
  adapter : group'.adapter = group.adapter
  prefixEnd : group'.prefixEnd = group.prefixEnd
  cacheHit : group'.cacheHit = group.cacheHit

variable {live' : List LiveGroup}

/-- Rows only know the adapters of live groups. -/
theorem Rows.setLive (h : Rows s)
    (hlive : ∀ group ∈ live', ∃ group₀ ∈ s.live, group.adapter = group₀.adapter) :
    Rows { s with live := live' } :=
  { h with
    live := fun group hg id hid => by
      obtain ⟨group₀, hg₀, heq⟩ := hlive group hg
      exact h.live group₀ hg₀ id (heq ▸ hid)
    live_ne_base := fun group hg => by
      obtain ⟨group₀, hg₀, heq⟩ := hlive group hg
      rw [heq]
      exact h.live_ne_base group₀ hg₀ }

theorem Pool.setLive {H : List ℕ} {P : Labels} (h : Pool w H P s)
    (hlive : ∀ group ∈ live', ∃ group₀ ∈ s.live, group.adapter = group₀.adapter) :
    Pool w H P { s with live := live' } :=
  h.congr rfl rfl rfl rfl rfl rfl (h.rows.setLive hlive)

theorem exists_modify {α β : Type} {l : List α} {i : ℕ} {f : α → α} {proj : α → β}
    (hf : ∀ x, l[i]? = some x → proj (f x) = proj x) :
    ∀ x ∈ l.modify i f, ∃ y ∈ l, proj x = proj y :=
  forall_modify (fun x hx => ⟨x, hx, rfl⟩) fun x hx =>
    ⟨x, mem_of_getElem? hx, hf x hx⟩

theorem nodup_of_subperm {l l' : List α} (h : l'.Subperm l) (hl : l.Nodup) : l'.Nodup := by
  obtain ⟨l'', hperm, hsub⟩ := h
  exact hperm.nodup_iff.mp (hl.sublist hsub)

/-- Live members may leave, and change beside their slots and ids. -/
theorem Live.setLive (h : Live w s)
    (hslots : ((liveOf live').map LiveMember.slot).Subperm ((liveOf s.live).map LiveMember.slot))
    (hids : ((liveOf live').map LiveMember.requestId).Subperm ((liveOf s.live).map LiveMember.requestId))
    (hshape : ∀ group ∈ live', Shape group)
    (hcontent : w.Reliable → ∀ group ∈ live', ∀ member ∈ group.members, member.live = true → Holds s group member) :
    Live w { s with live := live' } where
  slots_nodup := nodup_of_subperm hslots h.slots_nodup
  slots_lt σ hσ := h.slots_lt σ (hslots.subset hσ)
  ids_nodup := nodup_of_subperm hids h.ids_nodup
  ids_range id hid := h.ids_range id (hids.subset hid)
  next_range := h.next_range
  next_free hmem := h.next_free (hids.subset hmem)
  shape := hshape
  content hw group hg member hmem hlive := hcontent hw group hg member hmem hlive

/-- A live member of a live group, by its indices. -/
structure LiveAt (s : Scheduler) (g m : ℕ) (group : LiveGroup) (member : LiveMember) : Prop where
  atGroup : s.live[g]? = some group
  atMember : group.members[m]? = some member
  live : member.live = true

theorem LiveAt.mem_liveOf (h : LiveAt s g m group member) : member ∈ liveOf s.live :=
  Retrograd.Infer.mem_liveOf.mpr
    ⟨group, mem_of_getElem? h.atGroup, mem_of_getElem? h.atMember, h.live⟩

theorem LiveAt.mem_slots (h : LiveAt s g m group member) : member.slot ∈ s.liveSlots :=
  mem_map_of_mem h.mem_liveOf

theorem LiveAt.shape (hat : LiveAt s g m group member) (h : Live w s) : MemberShape group member :=
  (h.shape group (mem_of_getElem? hat.atGroup)).member member
    (mem_of_getElem? hat.atMember)

theorem LiveAt.events (hat : LiveAt s g m group member) (h : Live w s) :
    member.events = some member.cancelled := by
  rw [(hat.shape h).events, if_pos hat.live]

/-- A group after one of its members changed. -/
theorem Shape.modify (h : Shape group) (hm : group.members[m]? = some member)
    (ha : Alike group (f group)) (hleader : (f group).leader = group.leader)
    (hf : (f group).members = group.members.modify m k)
    (hk : MemberShape group (k member)) : Shape (f group) where
  prompt_ne := ha.prompt ▸ h.prompt_ne
  prefixEnd := by
    rw [ha.prefixEnd, ha.prompt, hf, length_modify]
    exact h.prefixEnd
  leader_lt := by
    rw [hleader, hf, length_modify]
    exact h.leader_lt
  hit_lt := by
    rw [ha.cacheHit, ha.prompt]
    exact h.hit_lt
  member := by
    rw [hf]
    refine forall_modify (fun member' hmem => ?_) fun member' hmem => ?_
    · have := h.member member' hmem
      exact { this with share := by rw [ha.prompt, ha.cacheHit]; exact this.share }
    · rw [hm] at hmem
      cases hmem
      exact { hk with share := by rw [ha.prompt, ha.cacheHit]; exact hk.share }

/-- What the slots hold after one member of a group changed. -/
theorem content_modify (hg : s.live[g]? = some group) (hm : group.members[m]? = some member)
    (ha : Alike group (f group)) (hf : (f group).members = group.members.modify m k)
    (hk : (k member).live = true → Holds s group (k member))
    (h : ∀ group ∈ s.live, ∀ member ∈ group.members, member.live = true → Holds s group member) :
    ∀ group ∈ s.live.modify g f, ∀ member ∈ group.members, member.live = true →
      Holds s group member := by
  refine forall_modify h fun group' hg' => ?_
  rw [hg] at hg'
  cases hg'
  have halike : ∀ member, Holds s group member → Holds s (f group) member := by
    rintro member ⟨n, hn⟩
    exact ⟨n, by rw [ha.prompt, ha.adapter, hn]⟩
  rw [hf]
  refine forall_modify (fun member' hmem hlive => ?_) fun member' hmem hlive => ?_
  · exact halike _ (h group (mem_of_getElem? hg) member' hmem hlive)
  · rw [hm] at hmem
    cases hmem
    exact halike _ (hk hlive)

/-- A live member ends. -/
theorem Live.kill (h : Live w s) (hat : LiveAt s g m group member) (ha : Alike group (f group))
    (hleader : (f group).leader = group.leader)
    (hf : (f group).members = group.members.modify m k) (hk : MemberShape group (k member))
    (hdead : (k member).live = false) : Live w { s with live := s.live.modify g f } := by
  have hperm := liveOf_kill hat.atGroup hat.atMember hat.live hf hdead
  have hsub : ∀ {α : Type} (proj : LiveMember → α),
      ((liveOf (s.live.modify g f)).map proj).Subperm ((liveOf s.live).map proj) := fun proj =>
    (sublist_cons_self (proj member) _).subperm.trans (hperm.map proj).subperm
  refine h.setLive (hsub _) (hsub _) (forall_modify h.shape fun group' hg' => ?_) fun hw => ?_
  · rw [hat.atGroup] at hg'
    cases hg'
    exact (h.shape group (mem_of_getElem? hat.atGroup)).modify hat.atMember ha hleader hf hk
  · refine content_modify hat.atGroup hat.atMember ha hf (fun hlive => ?_) (h.content hw)
    rw [hdead] at hlive
    cases hlive

/-- A live member changes, but keeps its slot, its id and a prefix of its history. -/
theorem Live.touch (h : Live w s) (hat : LiveAt s g m group member) (ha : Alike group (f group))
    (hleader : (f group).leader = group.leader)
    (hf : (f group).members = group.members.modify m k) (hk : MemberShape group (k member))
    (hlive : (k member).live = true) (hslot : (k member).slot = member.slot)
    (hid : (k member).requestId = member.requestId)
    (hhistory : member.history <+: (k member).history) :
    Live w { s with live := s.live.modify g f } := by
  have hkeep : (k member).live = member.live := by rw [hlive, hat.live]
  refine h.setLive ?_ ?_ (forall_modify h.shape fun group' hg' => ?_) fun hw => ?_
  · rw [liveOf_touch hat.atGroup hat.atMember hf hkeep hslot]
  · rw [liveOf_touch hat.atGroup hat.atMember hf hkeep hid]
  · rw [hat.atGroup] at hg'
    cases hg'
    exact (h.shape group (mem_of_getElem? hat.atGroup)).modify hat.atMember ha hleader hf hk
  · refine content_modify hat.atGroup hat.atMember ha hf (fun _ => ?_) (h.content hw)
    obtain ⟨n, hn⟩ := h.content hw group (mem_of_getElem? hat.atGroup) member
      (mem_of_getElem? hat.atMember) hat.live
    obtain ⟨more, hmore⟩ := hhistory
    refine ⟨min n (group.prompt ++ member.history).length, ?_⟩
    rw [hslot, hn, ← hmore, ← append_assoc, take_append_of_le_length (min_le_right ..)]
    congr 1
    rcases le_total n (group.prompt ++ member.history).length with hle | hle
    · rw [min_eq_left hle]
    · rw [min_eq_right hle, take_length, take_of_length_le hle]

/-- A group changes beside its members. -/
theorem Live.regroup (h : Live w s) (hg : s.live[g]? = some group) (ha : Alike group (f group))
    (hleader : (f group).leader < group.members.length)
    (hf : (f group).members = group.members) :
    Live w { s with live := s.live.modify g f } := by
  refine h.setLive ?_ ?_ (forall_modify h.shape fun group' hg' => ?_) fun hw =>
    forall_modify (h.content hw) fun group' hg' => ?_
  · rw [liveOf_regroup hg hf]
  · rw [liveOf_regroup hg hf]
  · rw [hg] at hg'
    cases hg'
    have := h.shape group (mem_of_getElem? hg)
    exact {
      prompt_ne := ha.prompt ▸ this.prompt_ne
      prefixEnd := by rw [ha.prefixEnd, ha.prompt, hf]; exact this.prefixEnd
      leader_lt := by rw [hf]; exact hleader
      hit_lt := by rw [ha.cacheHit, ha.prompt]; exact this.hit_lt
      member := fun member hmem => by
        rw [hf] at hmem
        have := this.member member hmem
        exact { this with share := by rw [ha.prompt, ha.cacheHit]; exact this.share } }
  · rw [hg] at hg'
    cases hg'
    intro member hmem hlive
    rw [hf] at hmem
    obtain ⟨n, hn⟩ := h.content hw group (mem_of_getElem? hg) member hmem hlive
    exact ⟨n, by rw [ha.prompt, ha.adapter, hn]⟩

end Retrograd.Infer
