import Retrograd.Infer.Place

/-!
# Admitting from the queue

Both admission modes take requests from the front of the queue **in hand** and place them. What
is in hand is pending like what is queued, so the invariant of an admission pass speaks about
both; the requests `extra` are pending beside them. When a backend call fails, whatever is in
hand stays there: that is how much the pass may lose.
-/

namespace Retrograd.Infer

open Logic List

variable {w : World} {s s' s'' : Scheduler} {extra : List Queued}

/-- The invariant of an admission pass. -/
structure Admitting (w : World) (extra : List Queued) (s : Scheduler) : Prop where
  inv : Inv w (s.queue ++ s.inHand ++ extra) s
  settled : Settled w s
  peopled : Peopled s

/-- What an admission pass leaves alone, and that it takes requests from the front. -/
structure Popped (s s' : Scheduler) : Prop where
  options : s'.options = s.options
  queue : ∃ popped, s.queue = popped ++ s'.queue
  nSlots : s'.nSlots = s.nSlots
  rowAdapters : s'.rowAdapters = s.rowAdapters
  unloadedAdapters : s'.unloadedAdapters = s.unloadedAdapters

theorem Popped.refl (s : Scheduler) : Popped s s := ⟨rfl, ⟨[], rfl⟩, rfl, rfl, rfl⟩

theorem Popped.trans (h : Popped s s') (h' : Popped s' s'') : Popped s s'' where
  options := h'.options.trans h.options
  queue := by
    obtain ⟨a, ha⟩ := h.queue
    obtain ⟨b, hb⟩ := h'.queue
    exact ⟨a ++ b, by rw [ha, hb, append_assoc]⟩
  nSlots := h'.nSlots.trans h.nSlots
  rowAdapters := h'.rowAdapters.trans h.rowAdapters
  unloadedAdapters := h'.unloadedAdapters.trans h.unloadedAdapters

/-- How an admission pass fails: with an error, or every request id is in use. -/
def Unadmitted (w : World) (extra : List Queued) (s : Scheduler) (stop : Stop) (s' : Scheduler) :
    Prop :=
  (stop = .noFreeId ∧ i32Max ≤ w.nSlots) ∨ ((∃ error, stop = .error error) ∧
    Inv w (s'.queue ++ s'.inHand ++ extra) s' ∧ ∃ popped, s.queue = popped ++ s'.queue)

theorem Unadmitted.trans {stop : Stop} (h : Popped s s')
    (h' : Unadmitted w extra s' stop s'') : Unadmitted w extra s stop s'' := by
  rcases h' with h' | ⟨herror, hinv, b, hb⟩
  · exact .inl h'
  · obtain ⟨a, ha⟩ := h.queue
    exact .inr ⟨herror, hinv, a ++ b, by rw [ha, hb, append_assoc]⟩

/-- Upkeep keeps an admission pass going. -/
theorem Admitting.frame {P' : Labels} (h : Admitting w extra s) (hf : Frame s.liveSlots s s')
    (hp : Pool w s.liveSlots P' s') : Admitting w extra s' where
  inv := by
    rw [hf.queue, hf.inHand]
    exact h.inv.frame hf hp
  settled := h.settled.frame hf
  peopled := h.peopled.congr hf.live

theorem Frame.popped {H H' : List ℕ} {P' : Labels} (hf : Frame H s s') (hp : Pool w H' P' s')
    (hn : s.nSlots = w.nSlots) : Popped s s' :=
  ⟨hf.options, ⟨[], by rw [hf.queue, nil_append]⟩, hp.nSlots.trans hn.symm, hf.rowAdapters,
    hf.unloadedAdapters⟩

theorem Admitting.nSlots (h : Admitting w extra s) : s.nSlots = w.nSlots := by
  obtain ⟨P, hp⟩ := h.inv.pool
  exact hp.nSlots

theorem Fails.unadmitted {P : Labels} {stop : Stop} (h : Admitting w extra s)
    (hf : Fails w s.liveSlots P s stop s') : Unadmitted w extra s stop s' := by
  obtain ⟨herror, -, P', hp', hu, -⟩ := hf
  exact .inr ⟨herror, (h.frame hu.toFrame hp').inv, [], by rw [hu.queue, nil_append]⟩

/-! ### Room -/

/-- The completions a list of requests asks for. -/
def membersOf (requests : List Queued) : ℕ := (requests.map fun q => q.request.n).sum

theorem membersOf_append (a b : List Queued) :
    membersOf (a ++ b) = membersOf a + membersOf b := by
  rw [membersOf, map_append, sum_append]
  rfl

theorem membersOf_perm {a b : List Queued} (h : a.Perm b) : membersOf a = membersOf b :=
  (h.map _).sum_eq

/-- The slots in use, and those the requests in hand are going to take, are no more than there
are. -/
def Room (s : Scheduler) : Prop :=
  s.liveLen + s.kv.residentSlotCount + membersOf s.inHand ≤ s.nSlots

/-- The requests an admission pass may place fit the per-sequence context. -/
def InContext (nCtxSeq : ℕ) (s : Scheduler) : Prop :=
  ∀ q ∈ s.queue ++ s.inHand, q.request.prompt.length < nCtxSeq

theorem liveLen_eq (s : Scheduler) : s.liveLen = (liveOf s.live).length := rfl

/-- Upkeep takes no room. -/
theorem Room.upkeep {P P' : Labels} (h : Room s) (hp : Pool w s.liveSlots P s)
    (hp' : Pool w s.liveSlots P' s') (hu : Upkeep s.liveSlots s s') : Room s' := by
  have hle := residentSlotCount_le hp.toOwners hp'.toOwners fun i τ hi => (hu.resident i τ hi).1
  have hn : s'.nSlots = s.nSlots := hp'.nSlots.trans hp.nSlots.symm
  unfold Room at h ⊢
  rw [liveLen_eq, hu.live, ← liveLen_eq, hu.inHand, hn]
  omega

/-! ### Taking the front in hand -/

variable {E : Stop → Scheduler → Prop}

theorem popFront_spec {queued : Queued} {queue : List Queued} (hqueue : s.queue = queued :: queue) :
    wp popFront (fun q s' => q = queued ∧
      s' = { s with queue, inHand := s.inHand ++ [queued] }) E s := by
  unfold popFront
  rw [wp_bind, wp_get, hqueue]
  exact ⟨rfl, rfl⟩

/-- Taking the front in hand changes nobody's claim. -/
theorem Admitting.pop {queued : Queued} {queue : List Queued} (h : Admitting w extra s)
    (hqueue : s.queue = queued :: queue) :
    Admitting w extra { s with queue, inHand := s.inHand ++ [queued] } where
  inv := by
    have hperm : (queue ++ (s.inHand ++ [queued]) ++ extra).Perm
        (s.queue ++ s.inHand ++ extra) := by
      refine Perm.append_right extra ?_
      rw [hqueue, cons_append, ← append_assoc]
      exact perm_append_singleton queued (queue ++ s.inHand)
    have hinv := h.inv.perm hperm
    obtain ⟨P, hp⟩ := hinv.pool
    exact {
      pool := ⟨P, hp.congr rfl rfl rfl rfl rfl rfl (hp.rows.congr rfl rfl rfl rfl rfl)⟩
      live := { hinv.live with }
      ledger := hinv.ledger
      valid := hinv.valid }
  settled := h.settled.kept rfl fun _ _ => rfl
  peopled := h.peopled

/-- What looking at the front of the queue leaves: room for it beside the held slots, if it is
taken. -/
structure Front (w : World) (extra : List Queued) (heldSlots : ℕ) (s : Scheduler)
    (front : Option (ℕ × ℕ × Option ℕ)) (s' : Scheduler) : Prop where
  admitting : Admitting w extra s'
  popped : Popped s s'
  queue : s'.queue = s.queue
  inHand : s'.inHand = s.inHand
  live : s'.live = s.live
  room : Room s → Room s'
  fits : ∀ members need node, front = some (members, need, node) → ∃ queued queue,
    s'.queue = queued :: queue ∧ members = queued.request.n ∧
    s'.liveLen + s'.kv.residentSlotCount + heldSlots + members ≤ s'.nSlots ∧
    ∀ i, node = some i → ∃ P ns p, Pool w s'.liveSlots P s' ∧ P i = some (ns, p) ∧ p ≠ []

/-- The front of the queue is looked at with enough rounds to make room for it. -/
theorem frontFits_front {nCtxSeq heldSlots heldCells evictionsLeft : ℕ}
    (h : Admitting w extra s) :
    wp (frontFits w nCtxSeq heldSlots heldCells (frontFuel s evictionsLeft) evictionsLeft)
      (fun r s' => Front w extra heldSlots s r.1 s') (Unadmitted w extra s) s := by
  obtain ⟨P, hp⟩ := h.inv.pool
  refine wp_mono (frontFits_spec _ hp le_rfl) ?_ fun _ _ hf => hf.unadmitted h
  rintro r s' ⟨P', hp', hu, -, -, hfits⟩
  have hslots : s'.liveSlots = s.liveSlots := by
    rw [Scheduler.liveSlots, hu.live]
    rfl
  refine ⟨h.frame hu.toFrame hp', hu.toFrame.popped hp' h.nSlots, hu.queue, hu.inHand, hu.live,
    fun hroom => hroom.upkeep hp hp' hu, fun members need node hr => ?_⟩
  obtain ⟨queued, queue, hqueue, hfit⟩ := hfits members need node hr
  refine ⟨queued, queue, hqueue, hfit.members_eq, ?_, fun i hi => ?_⟩
  · have hroom := hfit.slots
    have hpos : 0 < members := by
      rw [hfit.members_eq]
      refine Request.n_pos_of_validate (h.inv.valid queued ?_)
      rw [← hu.queue, hqueue]
      simp
    omega
  · obtain ⟨hit, rfl, -, -, hcache⟩ := hfit.cells
    obtain ⟨⟨j, hit'⟩, hsome, rfl⟩ := Option.map_eq_some_iff.mp hi
    have hcached := hcache j hit' hsome
    obtain ⟨q, hq, -, -⟩ := hcached.path
    exact ⟨P', _, q, hslots ▸ hp', hq, hcached.ne_nil hq⟩

/-! ### Continuous admission -/

/-- What an admission pass leaves when it succeeds. -/
structure Passed (w : World) (extra : List Queued) (s s' : Scheduler) : Prop where
  admitting : Admitting w extra s'
  popped : Popped s s'
  empty : s'.inHand = []

/-- The invariant of a pass after a group of the requests in hand was placed. -/
theorem Admitted.admitting {group rest : List Queued} (h : Inv w (rest ++ s.queue ++ extra) s')
    (hs : Settled w s') (hpeopled : Peopled s) (hpos : 0 < membersOf group)
    (hadmitted : Admitted group s s') (hhand : s'.inHand.Perm rest) :
    Admitting w extra s' where
  inv := by
    refine h.perm ?_
    rw [hadmitted.queue]
    refine Perm.append_right extra ?_
    exact (hhand.append_left _).trans perm_append_comm
  settled := hs
  peopled := by
    obtain ⟨new, hlive, hlength, hall⟩ := hadmitted.live
    intro group' hg'
    rw [hlive] at hg'
    rcases mem_append.mp hg' with hg' | hg'
    · exact hpeopled group' hg'
    · rw [mem_singleton.mp hg']
      have hne : new.members ≠ [] := ne_nil_of_length_pos (hlength ▸ hpos)
      exact ⟨_, head_mem hne, hall _ (head_mem hne)⟩

theorem Admitted.popped {group : List Queued} (h : Admitted group s s') : Popped s s' :=
  ⟨h.options, ⟨[], by rw [h.queue, nil_append]⟩, h.nSlots, h.rowAdapters,
    h.unloadedAdapters⟩

/-- Requests in hand are pairwise distinct. -/
theorem Admitting.inHand_nodup (h : Admitting w extra s) : s.inHand.Nodup := by
  have hnodup := Nodup.of_map _ h.inv.ledger.pending_nodup
  exact (nodup_append.mp (nodup_append.mp hnodup).1).2.1

/-- What placing some of the requests in hand leaves. -/
structure GroupPlaced (w : World) (extra rest : List Queued) (s s' : Scheduler) : Prop where
  admitting : Admitting w extra s'
  popped : Popped s s'
  queue : s'.queue = s.queue
  inHand : s'.inHand.Perm rest
  room : Room s'

variable {nCtxSeq : ℕ}

/-- Placing a group of the requests in hand. -/
theorem placeGroup_spec {group rest : List Queued} {first : Queued} (h : Admitting w extra s)
    (hhand : s.inHand.Perm (group ++ rest)) (hroom : Room s) (hctx : InContext nCtxSeq s)
    (hhead : group.head? = some first) :
    wp (admitGroup w group nCtxSeq) (fun _ s' => GroupPlaced w extra rest s s')
      (Unadmitted w extra s) s := by
  have hperm : (group ++ (rest ++ s.queue ++ extra)).Perm (s.queue ++ s.inHand ++ extra) := by
    rw [← append_assoc, ← append_assoc]
    refine Perm.append_right extra ?_
    exact (hhand.symm.append_right s.queue).trans perm_append_comm
  have hmembers : membersOf s.inHand = membersOf group + membersOf rest := by
    rw [membersOf_perm hhand, membersOf_append]
  have hpos : 0 < membersOf group := by
    have hfirst : first ∈ group := mem_of_mem_head? hhead
    have hn := Request.n_pos_of_validate (h.inv.valid first (hperm.mem_iff.mp
      (mem_append_left _ hfirst)))
    exact hn.trans_le (single_le_sum (fun _ _ => Nat.zero_le _) _
      (mem_map_of_mem (f := fun q : Queued => q.request.n) hfirst))
  unfold Room at hroom
  refine wp_mono (admitGroup_spec (h.inv.perm hperm) h.settled hhead (fun q hq => hctx q ?_) ?_)
    ?_ ?_
  · rw [mem_append, hhand.mem_iff]
    exact .inr (mem_append_left _ hq)
  · show s.liveLen + s.kv.residentSlotCount + membersOf group ≤ s.nSlots
    omega
  · rintro _ s₁ ⟨hinv, hsettled, ha⟩
    have hrest : s₁.inHand.Perm rest := by
      rw [ha.inHand]
      have hnodup := hhand.nodup_iff.mp h.inHand_nodup
      refine (hhand.filter _).trans (Perm.of_eq ?_)
      rw [filter_append, filter_eq_nil_iff.mpr fun q hq => by simpa using hq,
        nil_append, filter_eq_self]
      intro q hq
      have hdisjoint := (nodup_append.mp hnodup).2.2
      simpa using fun hmem : q ∈ group => hdisjoint q hmem q hq rfl
    obtain ⟨P, hp⟩ := h.inv.pool
    obtain ⟨P₁, hp₁⟩ := hinv.pool
    have hcount := residentSlotCount_le hp.toOwners hp₁.toOwners fun i τ hi => by
      rw [← ha.resident i, hi]
    obtain ⟨new, hlive, hlength, hall⟩ := ha.live
    refine ⟨ha.admitting hinv hsettled h.peopled hpos hrest, ha.popped, ha.queue, hrest, ?_⟩
    unfold Room
    rw [liveLen_eq, hlive, liveOf_join _ hall, length_append, hlength, ha.nSlots,
      membersOf_perm hrest, ← liveLen_eq]
    show s.liveLen + membersOf group + s₁.kv.residentSlotCount + membersOf rest ≤ s.nSlots
    omega
  · rintro stop s₁ hstop
    rcases hstop with hstop | ⟨herror, hinv, haside⟩
    · exact .inl hstop
    · refine .inr ⟨herror, ?_, [], by rw [haside.queue, nil_append]⟩
      rw [haside.queue, haside.inHand]
      exact hinv.perm hperm.symm

/-- Taking the front, which fits beside what is in hand, in hand. -/
theorem Front.pop {heldSlots : ℕ} {fit : ℕ × ℕ × Option ℕ}
    (hfront : Front w extra heldSlots s (some fit) s') (hheld : heldSlots = membersOf s.inHand)
    (hctx : InContext nCtxSeq s) :
    wp popFront (fun queued s'' => ∃ queue, s.queue = queued :: queue ∧ s''.queue = queue ∧
      s''.inHand = s.inHand ++ [queued] ∧ s''.live = s.live ∧ Admitting w extra s'' ∧
      Popped s s'' ∧ Room s'' ∧ InContext nCtxSeq s'' ∧ fit.1 = queued.request.n) E s' := by
  obtain ⟨members, need, node⟩ := fit
  obtain ⟨front, queue, hqueue, hmembers, hroom, -⟩ := hfront.fits members need node rfl
  refine wp_mono (popFront_spec (E := E) hqueue) ?_ fun _ _ hf => hf
  rintro queued s'' ⟨rfl, hs''⟩
  have hq'' : s''.queue = queue ∧ s''.inHand = s.inHand ++ [queued] ∧ s''.live = s'.live := by
    rw [hs'', ← hfront.inHand]
    exact ⟨rfl, rfl, rfl⟩
  have hqueue' : s.queue = queued :: queue := by rw [← hfront.queue, hqueue]
  refine ⟨queue, hqueue', hq''.1, hq''.2.1, hq''.2.2.trans hfront.live, ?_, hfront.popped.trans ?_,
    ?_, fun q hq => hctx q ?_, hmembers⟩
  · rw [hs'']
    exact hfront.admitting.pop hqueue
  · rw [hs'']
    exact ⟨rfl, ⟨[queued], by rw [hqueue]; rfl⟩, rfl, rfl, rfl⟩
  · unfold Room
    rw [hq''.2.1, membersOf_append, ← hheld, hs'']
    show s'.liveLen + s'.kv.residentSlotCount + (heldSlots + queued.request.n) ≤ s'.nSlots
    omega
  · rw [hq''.1, hq''.2.1] at hq
    rw [hqueue']
    simp only [mem_append, mem_cons, not_mem_nil, or_false] at hq ⊢
    tauto

/-- Continuous admission ends: each round places the front of the queue. -/
theorem admitContinuous_spec (fuel : ℕ) : ∀ {evictionsLeft : ℕ} {s : Scheduler},
    Admitting w extra s → InContext nCtxSeq s → s.inHand = [] → s.queue.length < fuel →
    wp (admitContinuous w nCtxSeq fuel evictionsLeft) (fun _ s' => Passed w extra s s')
      (Unadmitted w extra s) s := by
  induction fuel with
  | zero =>
    intro _ s _ _ _ hfuel
    omega
  | succ fuel ih =>
    intro evictionsLeft s h hctx hhand hfuel
    unfold admitContinuous
    rw [wp_bind, wp_get, wp_bind]
    refine wp_mono (frontFits_front h) ?_ fun _ _ hf => hf
    rintro ⟨front, left⟩ s₁ hfront
    cases front with
    | none => exact ⟨hfront.admitting, hfront.popped, hfront.inHand.trans hhand⟩
    | some fit =>
      have hheld : 0 = membersOf s.inHand := by
        rw [hhand]
        rfl
      dsimp only
      rw [wp_bind]
      refine wp_mono (hfront.pop hheld hctx) ?_ fun _ _ hf => hf
      rintro queued s₂ ⟨queue, hqueue, hqueue₂, hhand₂, -, h₂, hpopped₂, hroom₂, hctx₂, -⟩
      rw [hhand, nil_append] at hhand₂
      rw [wp_bind]
      have hone₂ : s₂.inHand.Perm ([queued] ++ []) := Perm.of_eq hhand₂
      refine wp_mono (placeGroup_spec h₂ hone₂ hroom₂ hctx₂ rfl) ?_
        fun _ _ hf => hf.trans hpopped₂
      rintro _ s₃ h₃
      have hpopped₃ := hpopped₂.trans h₃.popped
      have hhand₃ : s₃.inHand = [] := perm_nil.mp h₃.inHand
      refine wp_mono (ih h₃.admitting (fun q hq => hctx₂ q ?_) hhand₃ ?_) ?_
        fun _ _ hf => hf.trans hpopped₃
      · rw [hhand₃, append_nil, h₃.queue] at hq
        exact mem_append_left _ hq
      · rw [h₃.queue, hqueue₂]
        rw [hqueue, length_cons] at hfuel
        omega
      · exact fun _ s₄ h₄ => ⟨h₄.admitting, hpopped₃.trans h₄.popped, h₄.empty⟩

/-! ### Lockstep admission -/

/-- A selected wave: the requests in hand, and room for all of them. -/
structure Wave (w : World) (extra : List Queued) (nCtxSeq : ℕ) (s : Scheduler)
    (pending : List Queued) (s' : Scheduler) : Prop where
  admitting : Admitting w extra s'
  popped : Popped s s'
  inHand : s'.inHand = pending
  room : pending ≠ [] → Room s'
  context : InContext nCtxSeq s'

/-- Pinning the node a request hits keeps an admission pass going. -/
theorem Front.pin {heldSlots members need i : ℕ}
    (hfront : Front w extra heldSlots s (some (members, need, some i)) s') :
    Front w extra heldSlots s (some (members, need, none))
      { s' with kv := (s'.kv.pinNode i).1 } := by
  obtain ⟨queued, queue, hqueue, hmembers, hroom, hnode⟩ := hfront.fits members need _ rfl
  obtain ⟨P, ns, p, hp, hi, hne⟩ := hnode i rfl
  obtain ⟨hp', hu⟩ := pinNode_keeps hp hi hne
  have hle : (s'.kv.pinNode i).1.residentSlotCount ≤ s'.kv.residentSlotCount :=
    residentSlotCount_le hp.toOwners hp'.toOwners fun i τ hi => (hu.resident i τ hi).1
  refine ⟨hfront.admitting.frame hu.toFrame hp', hfront.popped.trans
    (hu.toFrame.popped hp' hfront.admitting.nSlots), hfront.queue, hfront.inHand, hfront.live,
    fun h => (hfront.room h).upkeep hp hp' hu, fun members' need' node' heq => ?_⟩
  cases heq
  refine ⟨queued, queue, hqueue, hmembers, ?_, nofun⟩
  show s'.liveLen + (s'.kv.pinNode i).1.residentSlotCount + heldSlots + members ≤ s'.nSlots
  omega

/-- Selecting a wave ends: each round takes the front of the queue in hand. -/
theorem selectWave_spec (fuel : ℕ) :
    ∀ {heldSlots heldCells evictionsLeft : ℕ} {pending : List Queued} {pins : List PinId}
      {s : Scheduler}, Wave w extra nCtxSeq s pending s → heldSlots = membersOf pending →
      s.queue.length < fuel →
      wp (selectWave w nCtxSeq fuel heldSlots heldCells evictionsLeft pending pins)
        (fun r s' => Wave w extra nCtxSeq s r.1 s') (Unadmitted w extra s) s := by
  induction fuel with
  | zero =>
    intro _ _ _ _ _ s _ _ hfuel
    omega
  | succ fuel ih =>
    intro heldSlots heldCells evictionsLeft pending pins s h hheld hfuel
    have hheld' : heldSlots = membersOf s.inHand := by rw [h.inHand, hheld]
    have hnext : ∀ {members need pins left s₁},
        Front w extra heldSlots s (some (members, need, none)) s₁ → wp (do
          let queued ← popFront
          selectWave w nCtxSeq fuel (heldSlots + members) (heldCells + need) left
            (pending ++ [queued]) pins)
          (fun r s' => Wave w extra nCtxSeq s r.1 s') (Unadmitted w extra s) s₁ := by
      intro members need pins left s₁ hfront
      rw [wp_bind]
      refine wp_mono (hfront.pop hheld' h.context) ?_ fun _ _ hf => hf
      rintro queued s₂ ⟨queue, hqueue, hqueue₂, hhand₂, -, h₂, hpopped₂, hroom₂, hctx₂, hn⟩
      rw [h.inHand] at hhand₂
      have hmembers : heldSlots + members = membersOf (pending ++ [queued]) := by
        rw [membersOf_append, ← hheld]
        exact congrArg (heldSlots + ·) hn
      refine wp_mono (ih ⟨h₂, Popped.refl s₂, hhand₂, fun _ => hroom₂, hctx₂⟩ hmembers ?_) ?_
        fun _ _ hf => hf.trans hpopped₂
      · rw [hqueue₂]
        rw [hqueue, length_cons] at hfuel
        omega
      · exact fun r s₃ h₃ => { h₃ with popped := hpopped₂.trans h₃.popped }
    unfold selectWave
    rw [wp_bind, wp_get, wp_bind]
    refine wp_mono (frontFits_front h.admitting) ?_ fun _ _ hf => hf
    rintro ⟨front, left⟩ s₁ hfront
    cases front with
    | none =>
      refine ⟨hfront.admitting, hfront.popped, hfront.inHand.trans h.inHand,
        fun hne => hfront.room (h.room hne), fun q hq => h.context q ?_⟩
      rwa [hfront.queue, hfront.inHand] at hq
    | some fit =>
      obtain ⟨members, need, node⟩ := fit
      cases node with
      | none => exact hnext hfront
      | some i =>
        dsimp only
        rw [wp_bind, wp_modifyGet, wp_bind, wp_pure]
        exact hnext hfront.pin

/-- Placing a wave ends: each round places one run of identical prompts. -/
theorem admitRuns_spec (fuel : ℕ) : ∀ {pending : List Queued} {s : Scheduler},
    Admitting w extra s → s.inHand.Perm pending → (pending ≠ [] → Room s) →
    InContext nCtxSeq s → pending.length ≤ fuel →
    wp (admitRuns w nCtxSeq fuel pending) (fun _ s' => Passed w extra s s')
      (Unadmitted w extra s) s := by
  induction fuel with
  | zero =>
    intro pending s h hhand _ _ hfuel
    obtain rfl : pending = [] := length_eq_zero_iff.mp (Nat.le_zero.mp hfuel)
    exact ⟨h, Popped.refl s, perm_nil.mp hhand⟩
  | succ fuel ih =>
    intro pending s h hhand hroom hctx hfuel
    cases pending with
    | nil => exact ⟨h, Popped.refl s, perm_nil.mp hhand⟩
    | cons first pending =>
      unfold admitRuns
      rw [wp_bind]
      have hsplit : s.inHand.Perm ((first :: pending.takeWhile (sameRun first))
          ++ pending.dropWhile (sameRun first)) := by
        rw [cons_append, takeWhile_append_dropWhile]
        exact hhand
      refine wp_mono (placeGroup_spec h hsplit (hroom (cons_ne_nil _ _)) hctx rfl) ?_
        fun _ _ hf => hf
      rintro _ s₁ h₁
      refine wp_mono (ih h₁.admitting h₁.inHand (fun _ => h₁.room) (fun q hq => hctx q ?_) ?_) ?_
        fun _ _ hf => hf.trans h₁.popped
      · rw [mem_append, h₁.queue, h₁.inHand.mem_iff] at hq
        rw [mem_append, hsplit.mem_iff]
        exact hq.imp_right (mem_append_right _)
      · have hle := (dropWhile_sublist (l := pending) (sameRun first)).length_le
        rw [length_cons] at hfuel
        omega
      · exact fun _ s₂ h₂ => ⟨h₂.admitting, h₁.popped.trans h₂.popped, h₂.empty⟩

/-- Releasing a pin never fails and keeps the invariant. -/
theorem unpin_inv {pending : List Queued} (h : Inv w pending s) (id : PinId) :
    wp (unpin id) (fun _ s' => Inv w pending s' ∧ Frame s.liveSlots s s') E s := by
  obtain ⟨P, hp⟩ := h.pool
  refine wp_mono (wp_and (unpin_spec hp id) (?_ : wp (unpin id) (fun _ _ => True)
    (fun _ _ => False) s)) ?_ fun _ _ hf => hf.2.elim
  · unfold unpin
    rw [wp_modifyGet]
    trivial
  · rintro _ s₁ ⟨⟨hp₁, hu, -⟩, -⟩
    exact ⟨h.frame hu.toFrame hp₁, hu.toFrame⟩

theorem unpins_inv {pending : List Queued} (pins : List PinId) (h : Inv w pending s) :
    wp (pins.forM fun pin => do
      let _ ← unpin pin) (fun _ s' => Inv w pending s' ∧ Frame s.liveSlots s s') E s := by
  refine wp_forM (I := fun s' => Inv w pending s' ∧ Frame s.liveSlots s s') ?_
    ⟨h, Frame.refl _ s⟩
  rintro pin - s₁ ⟨h₁, hf₁⟩
  rw [wp_bind]
  refine wp_mono (unpin_inv h₁ pin) ?_ fun _ _ hf => hf
  rintro _ s₂ ⟨h₂, hf₂⟩
  have hslots : s₁.liveSlots = s.liveSlots := by
    rw [Scheduler.liveSlots, hf₁.live]
    rfl
  exact ⟨h₂, hf₁.trans (hslots ▸ hf₂)⟩

theorem unpins_total (pins : List PinId) : wp (pins.forM fun pin => do
      let _ ← unpin pin) (fun _ _ => True) E s := by
  refine wp_forM (I := fun _ => True) (fun pin _ s₁ _ => ?_) trivial
  unfold unpin
  rw [wp_bind, wp_modifyGet]
  trivial

/-- A wave is admitted whole, or what was not placed stays in hand. -/
theorem admitWave_spec (h : Admitting w extra s) (hctx : InContext nCtxSeq s)
    (hhand : s.inHand = []) :
    wp (admitWave w nCtxSeq) (fun _ s' => Passed w extra s s') (Unadmitted w extra s) s := by
  unfold admitWave
  rw [wp_bind, wp_get, wp_ite]
  refine ⟨fun _ => ⟨h, Popped.refl s, hhand⟩, fun _ => ?_⟩
  rw [wp_bind]
  refine wp_mono (selectWave_spec (s.queue.length + 1) ⟨h, Popped.refl s, hhand, nofun, hctx⟩ rfl
    (Nat.lt_succ_self _)) ?_ fun _ _ hf => hf
  rintro ⟨pending, pins⟩ s₁ hwave
  have hsorted := sortBy_perm (fun a b : Queued => canonicalCmp a.request b.request) pending
  dsimp only at hwave ⊢
  have hroom : sortBy (fun a b : Queued => canonicalCmp a.request b.request) pending ≠ [] →
      Room s₁ := fun hne => hwave.room fun hnil => hne (by rw [hnil]; rfl)
  rw [wp_bind, wp_settle]
  refine wp_mono (admitRuns_spec _ hwave.admitting (hwave.inHand ▸ hsorted.symm) hroom
    hwave.context le_rfl) ?_ ?_
  · rintro _ s₂ h₂
    rw [wp_bind]
    refine wp_mono (unpins_inv pins h₂.admitting.inv) ?_ fun _ _ hf => hf
    rintro _ s₃ ⟨h₃, hf₃⟩
    obtain ⟨P₃, hp₃⟩ := h₃.pool
    have hpopped₃ : Popped s₂ s₃ := hf₃.popped hp₃ h₂.admitting.nSlots
    refine ⟨⟨?_, h₂.admitting.settled.frame hf₃, h₂.admitting.peopled.congr hf₃.live⟩, (hwave.popped.trans h₂.popped).trans hpopped₃,
      hf₃.inHand.trans h₂.empty⟩
    rw [hf₃.queue, hf₃.inHand]
    exact h₃
  · rintro stop s₂ hstop
    rw [wp_bind]
    rcases hstop with hstop | ⟨herror, hinv, hqueue⟩
    · exact wp_mono (unpins_total pins) (fun _ _ _ => .inl hstop) fun _ _ hf => hf
    · refine wp_mono (unpins_inv pins hinv) ?_ fun _ _ hf => hf
      rintro _ s₃ ⟨h₃, hf₃⟩
      refine Unadmitted.trans hwave.popped (.inr ⟨herror, ?_, ?_⟩)
      · rw [hf₃.queue, hf₃.inHand]
        exact h₃
      · rw [hf₃.queue]
        exact hqueue

/-- An admission pass places requests from the front of the queue. -/
theorem admitCandidates_spec (h : Admitting w extra s) (hctx : InContext nCtxSeq s)
    (hhand : s.inHand = []) :
    wp (admitCandidates w nCtxSeq) (fun _ s' => Passed w extra s s') (Unadmitted w extra s) s := by
  unfold admitCandidates
  rw [wp_bind, wp_get]
  cases s.options.mode with
  | lockstep => exact admitWave_spec h hctx hhand
  | continuous => exact admitContinuous_spec _ h hctx hhand (Nat.lt_succ_self _)

end Retrograd.Infer
