import Retrograd.Infer.State
import Mathlib.Data.List.Perm.Basic

/-!
# The ledger of accepted requests

Who still owes a stream its events. A request is **pending** until it is placed, and from then
on one live member holds each of its completions: the **keys** are the pairs of stream and
completion index that live members hold. A completion is open while its key is held and ends
with exactly one final event; a stream nobody owes anything has carried all its ends or an
error, or it was lost: dropped by its client, or left full.

The ledger says nothing of slots and phases. Each way a request changes hands is one lemma.
-/

namespace Retrograd.Infer

open List Function

/-- The completion an event is about. -/
def Event.about : Event → Option ℕ
  | .token event => some event.index
  | .done index _ _ _ => some index
  | .error _ => none

def Event.isDone : Event → Bool
  | .done .. => true
  | _ => false

def Event.isError : Event → Bool
  | .error _ => true
  | _ => false

/-- The events of a stream about one completion, in order. -/
def eventsOf (index : ℕ) (sent : List Event) : List Event :=
  sent.filter fun event => event.about = some index

/-- No final event yet. -/
def Unended (index : ℕ) (sent : List Event) : Prop :=
  ∀ event ∈ eventsOf index sent, event.isDone = false

/-- Tokens, then exactly one final event, and nothing after it. -/
def EndedOnce (index : ℕ) (sent : List Event) : Prop :=
  ∃ tokens last, eventsOf index sent = tokens ++ [last] ∧ last.isDone = true ∧
    ∀ event ∈ tokens, event.isDone = false

/-- The client dropped the stream, or left it full. -/
def Stream.lost (s : Stream) : Prop := s.dropped = true ∨ s.overflowed = true

/-- The stream carried an error. -/
def Stream.failed (s : Stream) : Prop := ∃ event ∈ s.sent, event.isError = true

/-- Who owes what to which stream. -/
structure Ledger (pending : List Queued) (keys : List (ℕ × ℕ)) (streams : ℕ → Stream)
    (next : ℕ) : Prop where
  pending_lt : ∀ q ∈ pending, q.stream < next
  pending_nodup : (pending.map Queued.stream).Nodup
  pending_sent : ∀ q ∈ pending, (streams q.stream).sent = []
  pending_completions : ∀ q ∈ pending, (streams q.stream).completions = q.request.n
  pending_capacity : ∀ q ∈ pending, 0 < (streams q.stream).capacity
  keys_nodup : keys.Nodup
  keys_lt : ∀ k ∈ keys, k.1 < next
  keys_free : ∀ k ∈ keys, ∀ q ∈ pending, q.stream ≠ k.1
  keys_unended : ∀ k ∈ keys, Unended k.2 (streams k.1).sent
  cancelled : ∀ id, (streams id).cancelled = true → (streams id).lost
  shape : ∀ id index, Unended index (streams id).sent ∨ EndedOnce index (streams id).sent
  accounted : ∀ id < next, (streams id).lost ∨ (streams id).failed ∨
    (∃ q ∈ pending, q.stream = id) ∨
    ∀ index < (streams id).completions,
      (id, index) ∈ keys ∨ EndedOnce index (streams id).sent

variable {pending pending' : List Queued} {keys keys' : List (ℕ × ℕ)} {streams : ℕ → Stream}
  {next id index : ℕ} {st : Stream} {event : Event} {sent : List Event}

/-! ### Events -/

theorem eventsOf_append_of_ne (h : event.about ≠ some index) :
    eventsOf index (sent ++ [event]) = eventsOf index sent := by
  simp [eventsOf, h]

theorem eventsOf_append_self (h : event.about = some index) :
    eventsOf index (sent ++ [event]) = eventsOf index sent ++ [event] := by
  simp [eventsOf, h]

theorem unended_congr {sent' : List Event} (h : eventsOf index sent' = eventsOf index sent) :
    Unended index sent' ↔ Unended index sent := by
  rw [Unended, Unended, h]

theorem endedOnce_congr {sent' : List Event} (h : eventsOf index sent' = eventsOf index sent) :
    EndedOnce index sent' ↔ EndedOnce index sent := by
  rw [EndedOnce, EndedOnce, h]

theorem unended_nil (index : ℕ) : Unended index [] := by
  simp [Unended, eventsOf]

theorem Unended.token (h : Unended index sent) (habout : event.about = some index)
    (hdone : event.isDone = false) : Unended index (sent ++ [event]) := by
  intro e he
  rw [eventsOf_append_self habout] at he
  rcases mem_append.mp he with he | he
  · exact h e he
  · rw [mem_singleton.mp he, hdone]

theorem Unended.done (h : Unended index sent) (habout : event.about = some index)
    (hdone : event.isDone = true) : EndedOnce index (sent ++ [event]) :=
  ⟨eventsOf index sent, event, eventsOf_append_self habout, hdone, h⟩

/-! ### Offering an event -/

/-- What offering an event leaves of a stream: the event was taken, or the stream is lost. -/
structure Offered (event : Event) (st : Stream) (taken : Bool) (st' : Stream) : Prop where
  capacity : st'.capacity = st.capacity
  completions : st'.completions = st.completions
  cancelled : st'.cancelled = st.cancelled
  sent : st'.sent = if taken then st.sent ++ [event] else st.sent
  lost : st.lost → st'.lost
  taken_or_lost : taken = false → st'.lost

namespace Ledger

/-- Only who owns what matters, not the order. -/
theorem perm (h : Ledger pending keys streams next) (hp : pending'.Perm pending)
    (hk : keys'.Perm keys) : Ledger pending' keys' streams next where
  pending_lt q hq := h.pending_lt q (hp.mem_iff.mp hq)
  pending_nodup := (hp.map _).nodup_iff.mpr h.pending_nodup
  pending_sent q hq := h.pending_sent q (hp.mem_iff.mp hq)
  pending_completions q hq := h.pending_completions q (hp.mem_iff.mp hq)
  pending_capacity q hq := h.pending_capacity q (hp.mem_iff.mp hq)
  keys_nodup := hk.nodup_iff.mpr h.keys_nodup
  keys_lt k hmem := h.keys_lt k (hk.mem_iff.mp hmem)
  keys_free k hmem q hq := h.keys_free k (hk.mem_iff.mp hmem) q (hp.mem_iff.mp hq)
  keys_unended k hmem := h.keys_unended k (hk.mem_iff.mp hmem)
  cancelled := h.cancelled
  shape := h.shape
  accounted id hid := by
    simpa only [hp.mem_iff, hk.mem_iff] using h.accounted id hid

/-- The rule behind all the others: one stream moves, and only its owners change. -/
theorem update (h : Ledger pending keys streams next) (hpending : pending'.Sublist pending)
    (hkeys : keys'.Sublist keys)
    (hpother : ∀ q ∈ pending, q ∈ pending' ∨ q.stream = id)
    (hkother : ∀ k ∈ keys, k ∈ keys' ∨ k.1 = id)
    (hsent : ∀ q ∈ pending', q.stream = id → st.sent = [])
    (hcompletions : st.completions = (streams id).completions)
    (hcapacity : st.capacity = (streams id).capacity)
    (hcancelled : st.cancelled = true → st.lost)
    (hunended : ∀ index, (id, index) ∈ keys' → Unended index st.sent)
    (hshape : ∀ index, Unended index st.sent ∨ EndedOnce index st.sent)
    (haccounted : id < next → st.lost ∨ st.failed ∨ (∃ q ∈ pending', q.stream = id) ∨
      ∀ index < st.completions, (id, index) ∈ keys' ∨ EndedOnce index st.sent) :
    Ledger pending' keys' (Function.update streams id st) next := by
  have hself : Function.update streams id st id = st := update_self ..
  have hother : ∀ id', id' ≠ id → Function.update streams id st id' = streams id' :=
    fun id' hne => update_of_ne hne ..
  constructor
  case pending_lt => exact fun q hq => h.pending_lt q (hpending.subset hq)
  case pending_nodup => exact h.pending_nodup.sublist (hpending.map _)
  case keys_nodup => exact h.keys_nodup.sublist hkeys
  case keys_lt => exact fun k hk => h.keys_lt k (hkeys.subset hk)
  case keys_free =>
    exact fun k hk q hq => h.keys_free k (hkeys.subset hk) q (hpending.subset hq)
  case pending_sent =>
    intro q hq
    by_cases hid : q.stream = id
    · rw [hid, hself, hsent q hq hid]
    · rw [hother _ hid]
      exact h.pending_sent q (hpending.subset hq)
  case pending_completions =>
    intro q hq
    have hold := h.pending_completions q (hpending.subset hq)
    by_cases hid : q.stream = id
    · rw [hid, hself, hcompletions, ← hold, hid]
    · rw [hother _ hid, hold]
  case pending_capacity =>
    intro q hq
    have hold := h.pending_capacity q (hpending.subset hq)
    by_cases hid : q.stream = id
    · rw [hid, hself, hcapacity, ← hid]
      exact hold
    · rw [hother _ hid]
      exact hold
  case keys_unended =>
    rintro ⟨id', index⟩ hk
    by_cases hid : id' = id
    · subst hid
      rw [hself]
      exact hunended index hk
    · rw [hother _ hid]
      exact h.keys_unended _ (hkeys.subset hk)
  case cancelled =>
    intro id'
    by_cases hid : id' = id
    · rw [hid, hself]
      exact hcancelled
    · rw [hother _ hid]
      exact h.cancelled id'
  case shape =>
    intro id'
    by_cases hid : id' = id
    · rw [hid, hself]
      exact hshape
    · rw [hother _ hid]
      exact h.shape id'
  case accounted =>
    intro id' hlt
    by_cases hid : id' = id
    · subst hid
      rw [hself]
      exact haccounted hlt
    · rw [hother _ hid]
      rcases h.accounted id' hlt with hlost | hfailed | ⟨q, hq, hstream⟩ | hall
      · exact .inl hlost
      · exact .inr (.inl hfailed)
      · refine .inr (.inr (.inl ⟨q, (hpother q hq).resolve_right fun heq => ?_, hstream⟩))
        exact hid (hstream.symm.trans heq)
      · refine .inr (.inr (.inr fun index hindex => (hall index hindex).imp_left fun hk => ?_))
        exact (hkother _ hk).resolve_right hid

/-- A stream that keeps its events keeps its owners. -/
theorem flags (h : Ledger pending keys streams next) (hsent : st.sent = (streams id).sent)
    (hcompletions : st.completions = (streams id).completions)
    (hcapacity : st.capacity = (streams id).capacity)
    (hlost : (streams id).lost → st.lost) (hcancelled : st.cancelled = true → st.lost) :
    Ledger pending keys (Function.update streams id st) next := by
  refine h.update (Sublist.refl _) (Sublist.refl _) (fun q hq => .inl hq)
    (fun k hk => .inl hk) (fun q hq hstream => ?_) hcompletions hcapacity hcancelled
    (fun index hk => ?_) (fun index => ?_) fun hid => ?_
  · rw [hsent, ← hstream]
    exact h.pending_sent q hq
  · rw [hsent]
    exact h.keys_unended _ hk
  · rw [hsent]
    exact h.shape id index
  · rw [Stream.failed, hsent, hcompletions]
    exact (h.accounted id hid).imp_left hlost

variable {taken : Bool}

/-- A token is offered to a stream that a live member still owes. -/
theorem token (h : Ledger pending keys streams next) (hkey : (id, index) ∈ keys)
    (habout : event.about = some index) (hdone : event.isDone = false)
    (ho : Offered event (streams id) taken st) :
    Ledger pending keys (Function.update streams id st) next := by
  have heventsOf : ∀ index', index' ≠ index → eventsOf index' st.sent
      = eventsOf index' (streams id).sent := by
    intro index' hne
    rw [ho.sent]
    split
    · exact eventsOf_append_of_ne (by rw [habout]; simpa using hne.symm)
    · rfl
  have hunended : Unended index st.sent := by
    rw [ho.sent]
    split
    · exact (h.keys_unended _ hkey).token habout hdone
    · exact h.keys_unended _ hkey
  refine h.update (Sublist.refl _) (Sublist.refl _) (fun q hq => .inl hq)
    (fun k hk => .inl hk) (fun q hq hstream => absurd hstream (h.keys_free _ hkey q hq))
    ho.completions ho.capacity (fun hc => ho.lost (h.cancelled id (ho.cancelled ▸ hc)))
    (fun index' hk => ?_) (fun index' => ?_) fun hid => ?_
  · by_cases hne : index' = index
    · rw [hne]
      exact hunended
    · exact (unended_congr (heventsOf index' hne)).mpr (h.keys_unended _ hk)
  · by_cases hne : index' = index
    · rw [hne]
      exact .inl hunended
    · rw [unended_congr (heventsOf index' hne), endedOnce_congr (heventsOf index' hne)]
      exact h.shape id index'
  · rcases h.accounted id hid with hlost | ⟨e, he, herror⟩ | ⟨q, hq, hstream⟩ | hall
    · exact .inl (ho.lost hlost)
    · refine .inr (.inl ⟨e, ?_, herror⟩)
      rw [ho.sent]
      split
      · exact mem_append_left _ he
      · exact he
    · exact absurd hstream (h.keys_free _ hkey q hq)
    · refine .inr (.inr (.inr fun index' hindex => ?_))
      rw [ho.completions] at hindex
      by_cases hne : index' = index
      · rw [hne]
        exact .inl hkey
      · rw [endedOnce_congr (heventsOf index' hne)]
        exact hall index' hindex

/-- A completion ends: its final event is offered, and nobody owes it any more. A stream that
did not take the event is lost. -/
theorem finish {st' : Stream} (h : Ledger pending ((id, index) :: keys) streams next)
    (habout : event.about = some index) (hdone : event.isDone = true)
    (ho : Offered event (streams id) taken st) (hsent : st'.sent = st.sent)
    (hcompletions : st'.completions = st.completions) (hcapacity : st'.capacity = st.capacity)
    (hlost : st.lost → st'.lost) (hcancelled : st'.cancelled = true → st'.lost) :
    Ledger pending keys (Function.update streams id st') next := by
  have hkey : (id, index) ∈ (id, index) :: keys := mem_cons_self
  have hnot : (id, index) ∉ keys := (nodup_cons.mp h.keys_nodup).1
  have heventsOf : ∀ index', index' ≠ index → eventsOf index' st'.sent
      = eventsOf index' (streams id).sent := by
    intro index' hne
    rw [hsent, ho.sent]
    split
    · exact eventsOf_append_of_ne (by rw [habout]; simpa using hne.symm)
    · rfl
  have hself : taken = true → EndedOnce index st'.sent := fun htaken => by
    rw [hsent, ho.sent, if_pos htaken]
    exact (h.keys_unended _ hkey).done habout hdone
  refine h.update (Sublist.refl _) (sublist_cons_self _ _) (fun q hq => .inl hq)
    (fun k hk => ?_) (fun q hq hstream => absurd hstream (h.keys_free _ hkey q hq))
    (hcompletions.trans ho.completions) (hcapacity.trans ho.capacity) hcancelled
    (fun index' hk => ?_) (fun index' => ?_) fun hid => ?_
  · rcases mem_cons.mp hk with rfl | hk
    · exact .inr rfl
    · exact .inl hk
  · have hne : index' ≠ index := fun heq => hnot (heq ▸ hk)
    exact (unended_congr (heventsOf index' hne)).mpr (h.keys_unended _ (mem_cons_of_mem _ hk))
  · by_cases hne : index' = index
    · subst hne
      cases htaken : taken with
      | true => exact .inr (hself htaken)
      | false =>
        refine .inl ?_
        rw [hsent, ho.sent, htaken]
        exact h.keys_unended _ hkey
    · rw [unended_congr (heventsOf index' hne), endedOnce_congr (heventsOf index' hne)]
      exact h.shape id index'
  · cases htaken : taken with
    | false => exact .inl (hlost (ho.taken_or_lost htaken))
    | true =>
      rcases h.accounted id hid with hold | ⟨e, he, herror⟩ | ⟨q, hq, hstream⟩ | hall
      · exact .inl (hlost (ho.lost hold))
      · refine .inr (.inl ⟨e, ?_, herror⟩)
        rw [hsent, ho.sent, if_pos htaken]
        exact mem_append_left _ he
      · exact absurd hstream (h.keys_free _ hkey q hq)
      · refine .inr (.inr (.inr fun index' hindex => ?_))
        rw [hcompletions, ho.completions] at hindex
        by_cases hne : index' = index
        · rw [hne]
          exact .inr (hself htaken)
        · rw [endedOnce_congr (heventsOf index' hne)]
          refine (hall index' hindex).imp_left fun hk => ?_
          exact (mem_cons.mp hk).resolve_left fun heq => hne (Prod.ext_iff.mp heq).2

/-- The owner of a completion gives up a stream that is lost. -/
theorem abandon (h : Ledger pending ((id, index) :: keys) streams next) (hlost : st.lost)
    (hsent : st.sent = (streams id).sent) (hcompletions : st.completions = (streams id).completions)
    (hcapacity : st.capacity = (streams id).capacity) :
    Ledger pending keys (Function.update streams id st) next := by
  refine h.update (Sublist.refl _) (sublist_cons_self _ _) (fun q hq => .inl hq)
    (fun k hk => ?_) (fun q hq hstream => absurd hstream (h.keys_free _ mem_cons_self q hq))
    hcompletions hcapacity (fun _ => hlost) (fun index' hk => ?_) (fun index' => ?_)
    fun _ => .inl hlost
  · rcases mem_cons.mp hk with rfl | hk
    · exact .inr rfl
    · exact .inl hk
  · rw [hsent]
    exact h.keys_unended _ (mem_cons_of_mem _ hk)
  · rw [hsent]
    exact h.shape id index'

theorem eventsOf_error (error : InferError) (index : ℕ) (sent : List Event) :
    eventsOf index (sent ++ [.error error]) = eventsOf index sent :=
  eventsOf_append_of_ne (by simp [Event.about])

variable {error : InferError}

/-- An offered error leaves a stream that has failed or is lost. -/
theorem failed_or_lost (ho : Offered (.error error) (streams id) taken st) :
    st.lost ∨ st.failed := by
  cases htaken : taken with
  | false => exact .inl (ho.taken_or_lost htaken)
  | true =>
    refine .inr ⟨.error error, ?_, rfl⟩
    rw [ho.sent, if_pos htaken]
    exact mem_append_right _ mem_cons_self

theorem eventsOf_offered (ho : Offered (.error error) (streams id) taken st) (index : ℕ) :
    eventsOf index st.sent = eventsOf index (streams id).sent := by
  rw [ho.sent]
  split
  · exact eventsOf_error error index _
  · rfl

/-- A live member reports an error and gives its completion up. -/
theorem fail (h : Ledger pending ((id, index) :: keys) streams next)
    (ho : Offered (.error error) (streams id) taken st) :
    Ledger pending keys (Function.update streams id st) next := by
  refine h.update (Sublist.refl _) (sublist_cons_self _ _) (fun q hq => .inl hq)
    (fun k hk => ?_) (fun q hq hstream => absurd hstream (h.keys_free _ mem_cons_self q hq))
    ho.completions ho.capacity (fun hc => ho.lost (h.cancelled id (ho.cancelled ▸ hc)))
    (fun index' hk => ?_) (fun index' => ?_) fun _ => (failed_or_lost ho).imp_right .inl
  · rcases mem_cons.mp hk with rfl | hk
    · exact .inr rfl
    · exact .inl hk
  · exact (unended_congr (eventsOf_offered ho index')).mpr
      (h.keys_unended _ (mem_cons_of_mem _ hk))
  · rw [unended_congr (eventsOf_offered ho index'), endedOnce_congr (eventsOf_offered ho index')]
    exact h.shape id index'

variable {q : Queued}

/-- A pending request is refused. -/
theorem refuse (h : Ledger (q :: pending) keys streams next)
    (ho : Offered (.error error) (streams q.stream) taken st) :
    Ledger pending keys (Function.update streams q.stream st) next := by
  have hnot : ∀ q' ∈ pending, q'.stream ≠ q.stream := fun q' hq' heq => by
    have hnodup := h.pending_nodup
    rw [map_cons, nodup_cons] at hnodup
    exact hnodup.1 (heq ▸ mem_map_of_mem hq')
  refine h.update (sublist_cons_self _ _) (Sublist.refl _) (fun q' hq' => ?_)
    (fun k hk => .inl hk) (fun q' hq' hstream => absurd hstream (hnot q' hq'))
    ho.completions ho.capacity (fun hc => ho.lost (h.cancelled _ (ho.cancelled ▸ hc)))
    (fun index' hk => absurd rfl (h.keys_free _ hk q mem_cons_self)) (fun index' => ?_)
    fun _ => (failed_or_lost ho).imp_right .inl
  · rcases mem_cons.mp hq' with rfl | hq'
    · exact .inr rfl
    · exact .inl hq'
  · rw [unended_congr (eventsOf_offered ho index'), endedOnce_congr (eventsOf_offered ho index')]
    exact h.shape q.stream index'

/-- A pending request whose stream is lost is dropped. -/
theorem drop (h : Ledger (q :: pending) keys streams next) (hlost : (streams q.stream).lost) :
    Ledger pending keys streams next := by
  have hnot : ∀ q' ∈ pending, q'.stream ≠ q.stream := fun q' hq' heq => by
    have hnodup := h.pending_nodup
    rw [map_cons, nodup_cons] at hnodup
    exact hnodup.1 (heq ▸ mem_map_of_mem hq')
  rw [← update_eq_self q.stream streams]
  refine h.update (sublist_cons_self _ _) (Sublist.refl _) (fun q' hq' => ?_)
    (fun k hk => .inl hk) (fun q' hq' hstream => absurd hstream (hnot q' hq')) rfl rfl
    (fun _ => hlost) (fun index hk => h.keys_unended _ hk) (fun index => h.shape _ index)
    fun _ => .inl hlost
  rcases mem_cons.mp hq' with rfl | hq'
  · exact .inr rfl
  · exact .inl hq'

/-- A pending request is placed: one key for each of its completions. -/
theorem place (h : Ledger (q :: pending) keys streams next) :
    Ledger pending (keys ++ (List.range q.request.n).map (q.stream, ·)) streams next := by
  have hnodup := h.pending_nodup
  rw [map_cons, nodup_cons] at hnodup
  have hq : q ∈ q :: pending := mem_cons_self
  have hmem : ∀ k, k ∈ (List.range q.request.n).map (q.stream, ·) ↔
      k.1 = q.stream ∧ k.2 < q.request.n := by
    rintro ⟨id, index⟩
    simp only [mem_map, mem_range, Prod.mk.injEq]
    constructor
    · rintro ⟨i, hi, rfl, rfl⟩
      exact ⟨rfl, hi⟩
    · rintro ⟨rfl, hi⟩
      exact ⟨index, hi, rfl, rfl⟩
  constructor
  case pending_lt => exact fun q' hq' => h.pending_lt q' (mem_cons_of_mem _ hq')
  case pending_nodup => exact hnodup.2
  case pending_sent => exact fun q' hq' => h.pending_sent q' (mem_cons_of_mem _ hq')
  case pending_completions =>
    exact fun q' hq' => h.pending_completions q' (mem_cons_of_mem _ hq')
  case pending_capacity => exact fun q' hq' => h.pending_capacity q' (mem_cons_of_mem _ hq')
  case cancelled => exact h.cancelled
  case shape => exact h.shape
  case keys_nodup =>
    refine h.keys_nodup.append (nodup_range.map fun i j hij => (Prod.ext_iff.mp hij).2) ?_
    intro k hk hk'
    exact h.keys_free k hk q hq ((hmem k).mp hk').1.symm
  case keys_lt =>
    intro k hk
    rcases mem_append.mp hk with hk | hk
    · exact h.keys_lt k hk
    · rw [((hmem k).mp hk).1]
      exact h.pending_lt q hq
  case keys_free =>
    intro k hk q' hq'
    rcases mem_append.mp hk with hk | hk
    · exact h.keys_free k hk q' (mem_cons_of_mem _ hq')
    · rw [((hmem k).mp hk).1]
      exact fun heq => hnodup.1 (heq ▸ mem_map_of_mem hq')
  case keys_unended =>
    intro k hk
    rcases mem_append.mp hk with hk | hk
    · exact h.keys_unended k hk
    · rw [((hmem k).mp hk).1, h.pending_sent q hq]
      exact unended_nil _
  case accounted =>
    intro id hid
    rcases h.accounted id hid with hlost | hfailed | ⟨q', hq', hstream⟩ | hall
    · exact .inl hlost
    · exact .inr (.inl hfailed)
    · rcases mem_cons.mp hq' with rfl | hq'
      · refine .inr (.inr (.inr fun index hindex => .inl ?_))
        rw [← hstream, h.pending_completions _ hq] at hindex
        exact mem_append_right _ ((hmem _).mpr ⟨hstream.symm, hindex⟩)
      · exact .inr (.inr (.inl ⟨q', hq', hstream⟩))
    · exact .inr (.inr (.inr fun index hindex =>
        (hall index hindex).imp_left (mem_append_left _)))

/-- A new request is accepted. -/
theorem submit {request : Request} {capacity : ℕ} (h : Ledger pending keys streams next)
    (hcapacity : 0 < capacity) :
    Ledger (pending ++ [⟨request, next⟩]) keys
      (Function.update streams next (.new capacity request.n)) (next + 1) := by
  have hself : Function.update streams next (.new capacity request.n) next
      = .new capacity request.n := update_self ..
  have hother : ∀ id, id ≠ next →
      Function.update streams next (.new capacity request.n) id = streams id :=
    fun id hne => update_of_ne hne ..
  have hold : ∀ q ∈ pending, q.stream ≠ next := fun q hq => (h.pending_lt q hq).ne
  have hkold : ∀ k ∈ keys, k.1 ≠ next := fun k hk => (h.keys_lt k hk).ne
  have hcases : ∀ q, q ∈ pending ++ [(⟨request, next⟩ : Queued)] →
      q ∈ pending ∨ q = ⟨request, next⟩ := fun q hq => by simpa using hq
  constructor
  case pending_lt =>
    intro q hq
    rcases hcases q hq with hq | rfl
    · exact (h.pending_lt q hq).trans (Nat.lt_succ_self _)
    · exact Nat.lt_succ_self _
  case pending_nodup =>
    rw [map_append]
    refine h.pending_nodup.append (nodup_singleton _) ?_
    intro id hid hid'
    obtain ⟨q, hq, rfl⟩ := mem_map.mp hid
    exact hold q hq (by simpa using hid')
  case pending_sent =>
    intro q hq
    rcases hcases q hq with hq | rfl
    · rw [hother _ (hold q hq)]
      exact h.pending_sent q hq
    · rw [hself]
      rfl
  case pending_completions =>
    intro q hq
    rcases hcases q hq with hq | rfl
    · rw [hother _ (hold q hq)]
      exact h.pending_completions q hq
    · rw [hself]
      rfl
  case pending_capacity =>
    intro q hq
    rcases hcases q hq with hq | rfl
    · rw [hother _ (hold q hq)]
      exact h.pending_capacity q hq
    · rw [hself]
      exact hcapacity
  case keys_nodup => exact h.keys_nodup
  case keys_lt => exact fun k hk => (h.keys_lt k hk).trans (Nat.lt_succ_self _)
  case keys_free =>
    intro k hk q hq
    rcases hcases q hq with hq | rfl
    · exact h.keys_free k hk q hq
    · exact (hkold k hk).symm
  case keys_unended =>
    intro k hk
    rw [hother _ (hkold k hk)]
    exact h.keys_unended k hk
  case cancelled =>
    intro id
    by_cases hid : id = next
    · rw [hid, hself]
      intro hc
      cases hc
    · rw [hother _ hid]
      exact h.cancelled id
  case shape =>
    intro id index
    by_cases hid : id = next
    · rw [hid, hself]
      exact .inl (unended_nil index)
    · rw [hother _ hid]
      exact h.shape id index
  case accounted =>
    intro id hlt
    by_cases hid : id = next
    · exact .inr (.inr (.inl ⟨⟨request, next⟩, by simp, hid.symm⟩))
    · rw [hother _ hid]
      rcases h.accounted id (by omega) with hlost | hfailed | ⟨q, hq, hstream⟩ | hall
      · exact .inl hlost
      · exact .inr (.inl hfailed)
      · exact .inr (.inr (.inl ⟨q, mem_append_left _ hq, hstream⟩))
      · exact .inr (.inr (.inr hall))

/-- A stream nobody owes anything has carried every end or an error, or it was lost. -/
theorem closed (h : Ledger pending keys streams next) (hid : id < next)
    (hp : ∀ q ∈ pending, q.stream ≠ id) (hk : ∀ k ∈ keys, k.1 ≠ id) :
    (streams id).lost ∨ (streams id).failed ∨
      ∀ index < (streams id).completions, EndedOnce index (streams id).sent := by
  rcases h.accounted id hid with hlost | hfailed | ⟨q, hq, hstream⟩ | hall
  · exact .inl hlost
  · exact .inr (.inl hfailed)
  · exact absurd hstream (hp q hq)
  · exact .inr (.inr fun index hindex =>
      (hall index hindex).resolve_left fun hmem => hk _ hmem rfl)

end Ledger

/-- Nothing is owed to anybody at the start. -/
theorem ledger_nil : Ledger [] [] (fun _ => .unborn) 0 := by
  constructor <;> simp [Stream.unborn, unended_nil]

end Retrograd.Infer
