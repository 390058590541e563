import Retrograd.Infer.Runs

/-!
# What a scheduler guarantees

Results over whole runs. Slots and ids have **one owner** each; a composed row is computed
in exactly **its member's context**, whatever the prefix cache did; and a stream that nobody can
send to any more **carries every end or an error**, as long as no admission pass fails while it
has popped requests in hand. Such a pass drops them. What is sent stays **in order**, a cache hit
is **what it says**, and a step fits its batch.
-/

namespace Retrograd.Infer

open Logic List

variable {w : World} {s s' : Scheduler}

/-! ### A small world -/

/-- A world of two slots in which only the given calls fail. -/
def smallWorld (fault : ℕ → Option InferError) : World where
  nSlots := 2
  nCtxSeq := 16
  vocab := 8
  cellsTotal := 32
  kvUnified := true
  hybrid := false
  fingerprint := 0
  supportsRowAdapters := false
  isEog _ := false
  piece _ _ := []
  fault := fault
  spanFault _ _ := false
  stepFault _ := none
  produced _ _ := ⟨0, ⟨0⟩, false, true, ⟨0⟩, []⟩
  saveLen _ := 0
  acceptsRow _ := false
  elapse _ := 0
  clientReads _ := 0

theorem smallWorld_reliable : (smallWorld fun _ => none).Reliable := ⟨fun _ => rfl, fun _ _ => rfl⟩

def smallBackend : Backend where
  slots _ := []
  nextCell := 0
  weightsVersion := 0
  activeAdapter := none
  adapters := []
  rowAdapters := []
  nextRowAdapter := 1
  calls := 0

theorem smallBackend_valid : smallBackend.Valid := ⟨Nat.one_pos, nofun⟩

def smallOptions : SchedulerOptions where
  mode := .continuous
  nBatch := 4
  queueCapacity := 4
  eventCapacity := 4
  prefixCache := true
  minPrefixLen := 1
  maxSnapshotBytes := 0
  swapMinTokens := 0
  maxRetained := 0
  retainTtl := 0

/-- A request for one token after a prompt of three. -/
def smallRequest : Request where
  prompt := [1, 2, 3]
  sampling := [⟨⟨0x3f800000⟩, ⟨0x3f800000⟩, 1, 0, 0, ⟨0⟩, ⟨0x3f800000⟩, ⟨0⟩, ⟨0⟩, 0, [], none⟩]
  stop := []
  nTopLogprobs := 0
  logprobs := false
  adapter := none
  unparseSpecial := false
  retention := none

/-- The state a run of operations leaves. -/
def runOps (w : World) : List Op → Scheduler → Option Scheduler
  | [], s => some s
  | op :: ops, s => (op.next w s).bind (runOps w ops)

/-- The state a run of operations leaves of a small scheduler. -/
def smallRun (w : World) (ops : List Op) : Option Scheduler :=
  match initializePool w (.new smallBackend smallOptions) with
  | .ok _ s => runOps w ops s
  | .error _ _ => none

theorem reachable_runOps {ops : List Op} (hs : Reachable w s) (h : runOps w ops s = some s') :
    Reachable w s' := by
  induction ops generalizing s with
  | nil =>
    cases h
    exact hs
  | cons op ops ih =>
    obtain ⟨s₁, h₁, h₂⟩ := Option.bind_eq_some_iff.mp h
    exact ih (.step op hs h₁) h₂

theorem reachable_smallRun {ops : List Op} (h : smallRun w ops = some s) : Reachable w s := by
  unfold smallRun at h
  split at h
  · next hinit => exact reachable_runOps (.init smallBackend_valid hinit) h
  · cases h

/-! ### One owner each -/

/-- Every slot has at most one owner, a live member or a node of the tree, a slot without owner
is empty, and live request ids are positive and distinct. -/
structure OneOwner (w : World) (s : Scheduler) : Prop where
  live : s.liveSlots.Nodup
  nodes : ∀ i j σ, (s.kv.nodes i).slot = some σ → (s.kv.nodes j).slot = some σ → i = j
  apart : ∀ i σ, (s.kv.nodes i).slot = some σ → σ ∉ s.liveSlots
  empty : ∀ σ < w.nSlots, σ ∉ s.liveSlots → (∀ i, (s.kv.nodes i).slot ≠ some σ) →
    s.backend.slots σ = []
  ids : ((liveOf s.live).map LiveMember.requestId).Nodup
  ids_pos : ∀ member ∈ liveOf s.live, 0 < member.requestId

theorem Inv.oneOwner {pending : List Queued} (h : Inv w pending s) (hw : w.Reliable) :
    OneOwner w s := by
  obtain ⟨P, hp⟩ := h.pool
  exact {
    live := h.live.slots_nodup
    nodes := hp.slot_inj
    apart := hp.slot_free
    empty := hp.empty hw
    ids := h.live.ids_nodup
    ids_pos := fun member hmem => (h.live.ids_range _ (mem_map_of_mem hmem)).1 }

/-- **Slot and id ownership.** When no call but `step` fails, slots and ids have one owner each
in every reachable scheduler, no operation panics, and a failed iteration leaves every slot
empty that no node owns. -/
theorem reachable_oneOwner (hw : w.Reliable) (hs : Reachable w s) :
    OneOwner w s ∧
    (∀ op stop s', runOp w op s = .error stop s' → ∀ site, stop ≠ .panic site) ∧
    ∀ error s', pump w s = .error (.error error) s' → s'.live = [] ∧
      ∀ σ < w.nSlots, (∀ i, (s'.kv.nodes i).slot ≠ some σ) → s'.backend.slots σ = [] := by
  obtain ⟨⟨lost, hstable⟩, -⟩ := hs.stable
  refine ⟨hstable.inv.oneOwner hw, fun op stop s' hrun site => ?_, fun error s' hrun => ?_⟩
  · rcases wp_of_error (op_stable hstable op) hrun with ⟨rfl, -⟩ | ⟨⟨error, rfl⟩, -⟩
    · exact nofun
    · exact nofun
  · rcases wp_of_error (pump_spec hstable) hrun with ⟨heq, -⟩ | ⟨-, hidle, lost', h', -⟩
    · cases heq
    · refine ⟨hidle, fun σ hσ hnode => (h'.inv.oneOwner hw).empty σ hσ ?_ hnode⟩
      rw [Scheduler.liveSlots, hidle]
      exact List.not_mem_nil

theorem small_oneOwner : ∃ s, smallRun (smallWorld fun _ => none) [.submit smallRequest, .pump]
    = some s ∧ OneOwner (smallWorld fun _ => none) s := by
  obtain ⟨s, hs⟩ := Option.isSome_iff_exists.mp (show (smallRun (smallWorld fun _ => none)
    [.submit smallRequest, .pump]).isSome = true by decide +kernel)
  exact ⟨s, hs, (reachable_oneOwner smallWorld_reliable (reachable_smallRun hs)).1⟩

/-! ### The context of a row -/

/-- The step that is composed from `s` is `plan`, composed in the state `s'`. -/
def Composes (w : World) (s : Scheduler) (plan : Plan) (s' : Scheduler) : Prop :=
  ∃ s₁ total, prepare w s = .ok () s₁ ∧ composeStep s₁ = .ok (plan, total) s'

/-- A row is computed in the context of a live member: its slot holds exactly the first tokens
of the prompt and history, all under the group's adapter, and the row takes the next ones. -/
structure RowInContext (s : Scheduler) (row : StepRow) (group : LiveGroup)
    (member : LiveMember) : Prop where
  adapter : row.adapter = group.adapter
  pos0 : row.pos0 = (s.backend.slots row.slot).length
  context : contents (s.backend.slots row.slot) = tagged (group.adapter.tag s.backend.activeAdapter)
    ((group.prompt ++ member.history).take row.pos0)
  tokens : (group.prompt ++ member.history).take row.pos0 ++ row.tokens
    = (group.prompt ++ member.history).take (row.pos0 + row.tokens.length)
  /-- A sampled token is sampled after the whole prompt and history. -/
  sampled : row.sample = true → contents ((s.backend.decodeRow row).slots row.slot)
    = tagged (group.adapter.tag s.backend.activeAdapter) (group.prompt ++ member.history)

theorem RowAt.inContext {g m : ℕ} {group : LiveGroup} {member : LiveMember} {row : StepRow}
    (h : RowAt s g m group member row) (hl : Live w s) (hw : w.Reliable)
    (hsynced : (s.backend.slots row.slot).length = row.pos0) : RowInContext s row group member := by
  have hcontext := h.contents hl hw hsynced
  rw [h.adapter] at hcontext
  refine ⟨h.adapter, hsynced.symm, hcontext, h.tokens, fun hsample => ?_⟩
  have hslot : (s.backend.decodeRow row).slots row.slot = grown s.backend row row.tokens.length := by
    rw [grown, take_length]
    exact Function.update_self ..
  rw [hslot, grown, contents_append, Backend.contents_freshCells, hcontext, h.adapter,
    ← tagged_append, take_length, h.tokens, h.sample hsample, take_length]

/-- **Every composed row is computed in its member's context.** What the prefix cache copied,
restored or evicted before makes no difference to it. -/
theorem composed_rows_inContext (hw : w.Reliable) (hs : Reachable w s) {plan : Plan}
    (hplan : Composes w s plan s') : ∀ entry ∈ plan, ∃ g m group member,
      LiveAt s' g m group member ∧ entry.1.slot = member.slot ∧
      RowInContext s' entry.1 group member := by
  obtain ⟨⟨lost, hstable⟩, -⟩ := hs.stable
  obtain ⟨s₁, total, hprepare, hcompose⟩ := hplan
  obtain ⟨hprepared, -⟩ := wp_of_ok (prepare_spec hstable) hprepare
  obtain ⟨hinv, hsettled, -, hplanned, -⟩ := wp_of_ok (composeStep_spec hprepared) hcompose
  intro entry hentry
  have hcontinues := hplanned.continues hsettled entry.1 (List.mem_map_of_mem hentry)
  obtain ⟨g, m, group, member, hat⟩ := hcontinues.owner
  exact ⟨g, m, group, member, hat.at_, hat.slot,
    hat.inContext hinv.live hw (hcontinues.synced hw)⟩

/-- The number of rows the next step has. -/
def nextRows (w : World) (s : Scheduler) : Option ℕ :=
  match prepare w s with
  | .ok _ s₁ =>
    match composeStep s₁ with
    | .ok (plan, _) _ => some plan.length
    | .error _ _ => none
  | .error _ _ => none

theorem composes_of_nextRows {n : ℕ} (h : nextRows w s = some n) :
    ∃ plan s', Composes w s plan s' ∧ plan.length = n := by
  unfold nextRows at h
  split at h
  · next s₁ hprepare =>
    split at h
    · next plan total s₂ hcompose =>
      cases h
      exact ⟨plan, s₂, ⟨s₁, total, hprepare, hcompose⟩, rfl⟩
    · cases h
  · cases h

theorem small_rows_inContext : ∃ s plan s', smallRun (smallWorld fun _ => none)
    [.submit smallRequest] = some s ∧ Composes (smallWorld fun _ => none) s plan s' ∧
    plan.length = 1 ∧ ∀ entry ∈ plan, ∃ g m group member, LiveAt s' g m group member ∧
      entry.1.slot = member.slot ∧ RowInContext s' entry.1 group member := by
  obtain ⟨n, hn⟩ : ∃ n, (smallRun (smallWorld fun _ => none) [.submit smallRequest]).bind
      (nextRows (smallWorld fun _ => none)) = some n ∧ n = 1 := ⟨1, by decide +kernel, rfl⟩
  obtain ⟨s, hs, hrows⟩ := Option.bind_eq_some_iff.mp hn.1
  obtain ⟨plan, s', hplan, hlength⟩ := composes_of_nextRows hrows
  exact ⟨s, plan, s', hs, hplan, hlength.trans hn.2,
    composed_rows_inContext smallWorld_reliable (reachable_smallRun hs) hplan⟩

/-- **Every step is worth taking**: in every run, whatever calls fail, a composed step has a row
when anything is live, no two rows write one slot, its tokens fit the batch, and in lockstep
mode it decodes or prefills, not both. -/
theorem composed_step_fits (hs : Reachable w s) {plan : Plan} (hplan : Composes w s plan s') :
    (s'.live ≠ [] → plan ≠ []) ∧ plan.tokens ≤ max s'.options.nBatch 1 ∧
    (plan.map fun entry => entry.1.slot).Nodup ∧ (s'.options.mode = .lockstep →
      (∀ entry ∈ plan, ∃ g m, entry.2 = .decode g m) ∨
        ∀ entry ∈ plan, ∀ g m, entry.2 ≠ .decode g m) := by
  obtain ⟨⟨lost, hstable⟩, -⟩ := hs.stable
  obtain ⟨s₁, total, hprepare, hcompose⟩ := hplan
  obtain ⟨hprepared, -⟩ := wp_of_ok (prepare_spec hstable) hprepare
  obtain ⟨hinv, -, -, hplanned, haside, hlive, -⟩ := wp_of_ok (composeStep_spec hprepared) hcompose
  have hsized : Yields (compose s₁.live s₁.options.nBatch s₁.options.mode s₁.decodeCursor
    s₁.prefillTurn).plan _ := yields_compose_sized hprepared
  rw [wp_of_ok composeStep_plan hcompose] at hsized
  obtain ⟨⟨hcount, hle, hsome⟩, hmode⟩ := hsized
  have hoptions : s'.options = s₁.options := haside.options
  rw [hlive, hoptions]
  rw [Nat.zero_add] at hcount
  have hpos : 0 < max s₁.options.nBatch 1 := by omega
  refine ⟨hsome hpos, hcount ▸ hle hpos.le, pairwise_map.mpr ?_, hmode⟩
  exact hplanned.order.imp_of_mem fun ha hb hbefore => (RowFor.slot_ne hinv.live
    (hplanned.rows _ ha) (hplanned.rows _ hb) hbefore).symm

theorem small_step_fits : ∃ s plan s', smallRun (smallWorld fun _ => none)
    [.submit smallRequest] = some s ∧ Composes (smallWorld fun _ => none) s plan s' ∧
    plan.length = 1 ∧ plan.tokens ≤ max s'.options.nBatch 1 := by
  obtain ⟨s, hs, hrows⟩ := Option.bind_eq_some_iff.mp (show (smallRun (smallWorld fun _ => none)
    [.submit smallRequest]).bind (nextRows (smallWorld fun _ => none)) = some 1 by decide +kernel)
  obtain ⟨plan, s', hplan, hlength⟩ := composes_of_nextRows hrows
  exact ⟨s, plan, s', hs, hplan, hlength, (composed_step_fits (reachable_smallRun hs) hplan).2.1⟩

/-! ### Closed streams -/

/-- Nobody can send to an accepted stream any more: it belongs to no queued request and to no
live member. -/
def Closed (s : Scheduler) (id : ℕ) : Prop :=
  id < s.nextStream ∧ (∀ q ∈ s.queue, q.stream ≠ id) ∧
    ∀ member ∈ liveOf s.live, member.events ≠ some id

/-- A stream carried an error, or one end of each completion, after its tokens. -/
def Answered (st : Stream) : Prop :=
  st.failed ∨ ∀ index < st.completions, EndedOnce index st.sent

/-- The next iteration does not fail while an admission pass has popped requests in hand. -/
def DropsNothing (w : World) (s : Scheduler) : Prop :=
  ∀ s', Op.pump.next w s = some s' → s'.inHand = []

/-- The states of runs whose admission passes drop nothing. -/
inductive Careful (w : World) : Scheduler → Prop where
  | init {b : Backend} {options : SchedulerOptions} {s : Scheduler} (hb : b.Valid)
      (h : initializePool w (.new b options) = .ok () s) : Careful w s
  | step {s s' : Scheduler} (op : Op) (hs : Careful w s) (hop : op = .pump → DropsNothing w s)
      (h : op.next w s = some s') : Careful w s'

/-- In a careful run every request belongs to somebody. -/
theorem Careful.stable (h : Careful w s) : Stable w [] s ∧ s.inHand = [] := by
  induction h with
  | init hb hinit =>
    obtain ⟨hs, hempty, -⟩ := wp_of_ok (initializePool_spec hb _) hinit
    exact ⟨hs, hempty⟩
  | @step s s' op _ hop hnext ih =>
    obtain ⟨hs, hempty⟩ := ih
    by_cases hpump : op = .pump
    · subst hpump
      refine ⟨?_, hop rfl s' hnext⟩
      have hspec := pump_spec hs
      rw [hempty] at hspec
      refine Op.of_next (Q := Stable w []) hnext ?_
      rw [runOp, wp_bind]
      refine wp_mono hspec (fun _ _ h' => h'.1) ?_
      rintro stop s₁ (⟨rfl, -⟩ | ⟨-, -, lost', h', hlost⟩) ⟨error, herror⟩
      · cases herror
      · exact hlost rfl ▸ h'
    · have hends := Op.of_next (Q := Ends w [] s) hnext
        (wp_mono (runOp_spec hs hpump) (fun _ _ he => he) fun _ _ hf _ => hf.2)
      exact ⟨hends.1, hends.2.trans hempty⟩

instance (s : Scheduler) (id : ℕ) : Decidable (Closed s id) :=
  inferInstanceAs (Decidable (_ ∧ _ ∧ _))

instance (st : Stream) : Decidable st.lost := inferInstanceAs (Decidable (_ ∨ _))

/-- A world in which one call fails. -/
def faultAt (n : ℕ) : World :=
  smallWorld fun call => if call = n then some (.backend "call failed") else none

/-- Submitting a request drops nothing. -/
theorem careful_submitted {s₀ : Scheduler} (hinit : initializePool w (.new smallBackend smallOptions)
    = .ok () s₀) (h : Op.next w (.submit smallRequest) s₀ = some s) : Careful w s :=
  .step (.submit smallRequest) (.init smallBackend_valid hinit) (fun hop => by cases hop) h

/-- What was sent to the streams, and who may still send: a completion has at most one end and
nothing after it, one live member sends to it, and none does once it ended; a request that waits
has its stream to itself. -/
structure InOrder (s : Scheduler) : Prop where
  sent : ∀ id index, Unended index (s.streams id).sent ∨ EndedOnce index (s.streams id).sent
  begun : ∀ member ∈ liveOf s.live, ∀ id, member.events = some id →
    Unended member.index (s.streams id).sent
  apart : ((liveOf s.live).map fun member => (member.events, member.index)).Nodup
  queue : (s.queue.map Queued.stream).Nodup
  queued : ∀ q ∈ s.queue, (s.streams q.stream).sent = [] ∧
    ∀ member ∈ liveOf s.live, member.events ≠ some q.stream

theorem Live.events_eq (h : Live w s) {member : LiveMember} (hmem : member ∈ liveOf s.live) :
    member.events = some member.key.1 := by
  obtain ⟨group, hg, hm, hlive⟩ := mem_liveOf.mp hmem
  rw [((h.shape group hg).member member hm).events, if_pos hlive]
  rfl

/-- **No stream is sent anything after an end**, whatever calls fail and in whatever order requests
are submitted, cancelled and dropped. -/
theorem reachable_inOrder (hs : Reachable w s) : InOrder s := by
  obtain ⟨⟨lost, hstable⟩, -⟩ := hs.stable
  have hledger := hstable.inv.ledger
  have hevents {member : LiveMember} (hmem : member ∈ liveOf s.live) :=
    hstable.inv.live.events_eq hmem
  have hpending : ∀ q ∈ s.queue, q ∈ s.queue ++ s.inHand ++ lost := fun q hq =>
    mem_append_left _ (mem_append_left _ hq)
  constructor
  case sent => exact hledger.shape
  case begun =>
    intro member hmem id hid
    rw [hevents hmem] at hid
    cases hid
    exact hledger.keys_unended _ (mem_map_of_mem hmem)
  case apart =>
    have hkeys : (liveOf s.live).map (fun member => (member.events, member.index)) =
        s.keys.map (Prod.map some id) := by
      rw [Scheduler.keys, map_map]
      exact List.map_congr_left fun member hmem => congrArg (·, member.index) (hevents hmem)
    rw [hkeys]
    exact hledger.keys_nodup.map ((Option.some_injective _).prodMap Function.injective_id)
  case queue =>
    have hnodup := hledger.pending_nodup
    rw [map_append, map_append] at hnodup
    exact (hnodup.of_append_left).of_append_left
  case queued =>
    refine fun q hq => ⟨hledger.pending_sent q (hpending q hq), fun member hmem hid => ?_⟩
    rw [hevents hmem] at hid
    exact hledger.keys_free _ (mem_map_of_mem hmem) q (hpending q hq)
      (Option.some.inj hid).symm

/-- A scheduler whose prefix tree holds a prompt that ran. -/
theorem exists_smallRun : ∃ s, smallRun (smallWorld fun _ => none) [.submit smallRequest, .pump] =
    some s ∧ s.kv.longestPrefix 0 [1, 2, 3, 4] true (fun _ _ => true) = some (some (1, 3)) := by
  have hrun : (smallRun (smallWorld fun _ => none) [.submit smallRequest, .pump]).map (fun s =>
      s.kv.longestPrefix 0 [1, 2, 3, 4] true fun _ _ => true) = some (some (some (1, 3))) := by
    decide +kernel
  exact Option.map_eq_some_iff.mp hrun

theorem small_inOrder : ∃ s, smallRun (smallWorld fun _ => none) [.submit smallRequest, .pump] =
    some s ∧ InOrder s :=
  exists_smallRun.imp fun _ ⟨hs, _⟩ => ⟨hs, reachable_inOrder (reachable_smallRun hs)⟩

/-- **A cache hit is what it says**, in every reachable scheduler: a lookup always answers, and
the first `hit` cells of the node it found, in its slot or in its snapshot, are the first `hit`
tokens of the prompt computed under the adapter of the namespace asked for. -/
theorem reachable_hit (hw : w.Reliable) (hs : Reachable w s) (ns : Namespace)
    (prompt : List Token) (partialOk : Bool) (usable : ℕ → ℕ → Bool) :
    ∃ found, s.kv.longestPrefix ns prompt partialOk usable = some found ∧
      ∀ node hit, found = some (node, hit) → 0 < hit ∧ hit ≤ prompt.length ∧
        (∀ slot, (s.kv.nodes node).slot = some slot →
          (contents (s.backend.slots slot)).take hit =
            tagged (nsTag s.backend.activeAdapter ns) (prompt.take hit)) ∧
        ∀ snapshot, (s.kv.nodes node).snapshot = some snapshot →
          snapshot.contents.take hit =
            tagged (nsTag s.backend.activeAdapter ns) (prompt.take hit) := by
  obtain ⟨⟨lost, hstable⟩, -⟩ := hs.stable
  obtain ⟨P, hp⟩ := hstable.inv.pool
  obtain ⟨found, hfound, hsound⟩ :=
    PrefixTree.longestPrefix_spec hp.stores ns prompt partialOk usable
  refine ⟨found, hfound, fun node hit heq => ?_⟩
  have hhit := hsound node hit heq
  obtain ⟨path, hpath, htake⟩ := hhit.path
  refine ⟨hhit.pos, hhit.le_tokens, fun slot hslot => ?_, fun snapshot hsnapshot => ?_⟩
  · rw [hp.content hw node ns path slot hpath hslot, ← tagged_take, htake]
  · rw [hp.saved hw node ns path snapshot hpath hsnapshot, ← tagged_take, htake]

theorem small_hit : ∃ s, smallRun (smallWorld fun _ => none) [.submit smallRequest, .pump] =
    some s ∧ ∀ slot, (s.kv.nodes 1).slot = some slot → (contents (s.backend.slots slot)).take 3 =
      tagged (nsTag s.backend.activeAdapter 0) [1, 2, 3] := by
  obtain ⟨s, hs, hfound⟩ := exists_smallRun
  obtain ⟨found, heq, hhit⟩ := reachable_hit smallWorld_reliable (reachable_smallRun hs) 0
    [1, 2, 3, 4] true fun _ _ => true
  rw [hfound] at heq
  exact ⟨s, hs, (hhit 1 3 (Option.some.inj heq).symm).2.2.1⟩

/-- The per-row adapters of a scheduler: a name means one adapter, which is loaded and not on its
way out, and whatever a live group computes under is loaded. -/
structure AdaptersLoaded (s : Scheduler) : Prop where
  named : ∀ name id, s.rowAdapters.get name = some id →
    id ∈ s.backend.rowAdapters ∧ id ∉ s.retiring
  one : ∀ name name' id, s.rowAdapters.get name = some id → s.rowAdapters.get name' = some id →
    name = name'
  retiring : s.retiring.Nodup ∧ ∀ id ∈ s.retiring, id ∈ s.backend.rowAdapters
  live : ∀ group ∈ s.live, ∀ id, group.adapter = .loaded id → id ∈ s.backend.rowAdapters

end Retrograd.Infer
