import Retrograd.Logic.Numbered
import Retrograd.Server.Status

/-!
# The events of a run

An event is numbered, appended to the journal, pushed to the ring and broadcast under **one lock**,
the ring's, so the three hold the same events in the same order. A replay is served from the ring
when it reaches back far enough and from the journal otherwise, line by line and without the lock;
it returns exactly the events of the journal at the moment it ends (`Replay.exact`).
-/

namespace Retrograd.Server

open Logic

/-- How many recent events a run keeps in memory for replay. -/
def eventRing : ℕ := 512

structure RunEvent where
  seq : ℕ
  /-- Unix milliseconds. -/
  time : ℕ
  payload : RunEventPayload

def RunEvent.isTerminal (event : RunEvent) : Bool := event.payload.isTerminal

/-- How far the emission that holds the ring's write lock is. -/
inductive Emission
  /-- Nobody holds the lock. -/
  | idle
  | numbered (event : RunEvent)
  | appended (event : RunEvent)
  | pushed (event : RunEvent)
  | sent (event : RunEvent)
  /-- The run was read back from disk: there is no thread that could emit. -/
  | closed

/-- The ring can be locked for reading. -/
def Emission.unlocked : Emission → Bool
  | .idle | .closed => true
  | .numbered _ | .appended _ | .pushed _ | .sent _ => false

/-- What a run's handle keeps of its events. -/
structure RunLog where
  nextSeq : ℕ
  /-- The lines of `events.jsonl`. -/
  journal : List RunEvent
  ring : List RunEvent
  /-- What was sent on the broadcast, oldest first; a receiver is a position in it. -/
  live : List RunEvent
  /-- `events_finished`. -/
  finished : Bool
  emission : Emission

def RunLog.created : RunLog := ⟨1, [], [], [], false, .idle⟩

/-- A run of an earlier process: its history is all there is. -/
def RunLog.restored (journal : List RunEvent) : RunLog := ⟨1, journal, [], [], true, .closed⟩

/-- `emit` takes the lock and numbers its event. -/
def RunLog.begin (log : RunLog) (payload : RunEventPayload) (time : ℕ) : Option RunLog :=
  match log.emission with
  | .idle => some { log with
      nextSeq := log.nextSeq + 1, emission := .numbered ⟨log.nextSeq, time, payload⟩ }
  | _ => none

/-- The next step of the emission that holds the lock. -/
def RunLog.proceed (log : RunLog) : Option RunLog :=
  match log.emission with
  -- disk first: the ring and the broadcast are caches of the journal
  | .numbered event => some { log with
      journal := log.journal ++ [event], emission := .appended event }
  | .appended event => some { log with
      ring := (if log.ring.length = eventRing then log.ring.tail else log.ring) ++ [event]
      emission := .pushed event }
  | .pushed event => some { log with live := log.live ++ [event], emission := .sent event }
  | .sent event => some { log with
      finished := log.finished || event.isTerminal, emission := .idle }
  | .idle | .closed => none

def RunLog.lastSeq (log : RunLog) : ℕ := log.nextSeq - 1

/-! ### Replaying -/

/-- The ring reaches back to the event after `since`. -/
def RunLog.covers (log : RunLog) (since : ℕ) : Bool :=
  log.ring.head?.any fun oldest => oldest.seq ≤ since + 1

/-- Where a replay is. -/
inductive Replay
  /-- Waiting for the ring's read lock. -/
  | ring
  /-- Reading the journal, without the lock. -/
  | file (lines : ℕ) (found : List RunEvent)

/-- A replay goes on, or returns its events. -/
def Replay.step (since : ℕ) (log : RunLog) : Replay → Option (Replay ⊕ List RunEvent)
  | .ring =>
    if log.emission.unlocked then
      if log.covers since then some (.inr (log.ring.filter fun event => since < event.seq))
      else some (.inl (.file 0 []))
    else none
  | .file lines found => match log.journal[lines]? with
    | some event =>
      some (.inl (.file (lines + 1) (if since < event.seq then found ++ [event] else found)))
    | none => some (.inr found)

/-! ### One log in three places -/

/-- The ring and the broadcast beside the journal, at each step of an emission. -/
def RunLog.Aligned (log : RunLog) : Prop :=
  match log.emission with
  | .idle => log.ring = lastOf eventRing log.journal ∧ log.live = log.journal ∧
      log.nextSeq = log.journal.length + 1
  | .numbered event => log.ring = lastOf eventRing log.journal ∧ log.live = log.journal ∧
      log.nextSeq = log.journal.length + 2 ∧ event.seq = log.journal.length + 1
  | .appended event => ∃ past, log.journal = past ++ [event] ∧
      log.ring = lastOf eventRing past ∧ log.live = past ∧ log.nextSeq = log.journal.length + 1
  | .pushed event => ∃ past, log.journal = past ++ [event] ∧
      log.ring = lastOf eventRing log.journal ∧ log.live = past ∧
      log.nextSeq = log.journal.length + 1
  | .sent event => log.ring = lastOf eventRing log.journal ∧ log.live = log.journal ∧
      log.nextSeq = log.journal.length + 1 ∧ event ∈ log.journal
  | .closed => log.ring = [] ∧ log.live = [] ∧ log.finished

structure RunLog.Sound (log : RunLog) : Prop where
  numbered : Numbered RunEvent.seq log.journal
  aligned : log.Aligned
  /-- A history is complete only with an outcome in it, or when nobody is left to go on with it. -/
  finished : log.finished → log.emission = .closed ∨ ∃ event ∈ log.journal, event.isTerminal

/-- What the steps of a run do to its log: it only grows. -/
structure RunLog.Grows (log log' : RunLog) : Prop where
  journal : log.journal <+: log'.journal
  live : log.live <+: log'.live
  closed : log.emission = .closed ↔ log'.emission = .closed
  history : log.emission = .closed → log'.journal = log.journal

variable {log log' : RunLog} {since : ℕ}

theorem RunLog.Grows.refl (log : RunLog) : log.Grows log :=
  ⟨List.prefix_refl _, List.prefix_refl _, Iff.rfl, fun _ => rfl⟩

theorem RunLog.created_sound : RunLog.created.Sound :=
  ⟨.nil, ⟨rfl, rfl, rfl⟩, fun h => nomatch h⟩

theorem RunLog.restored_sound {journal : List RunEvent} (h : Numbered RunEvent.seq journal) :
    (RunLog.restored journal).Sound :=
  ⟨h, ⟨rfl, rfl, rfl⟩, fun _ => .inl rfl⟩

theorem RunLog.begin_cases {payload : RunEventPayload} {time : ℕ}
    (h : log.begin payload time = some log') :
    log.emission = .idle ∧ log' = { log with
      nextSeq := log.nextSeq + 1, emission := .numbered ⟨log.nextSeq, time, payload⟩ } := by
  unfold RunLog.begin at h
  split at h
  · next hidle => exact ⟨hidle, (Option.some.inj h).symm⟩
  · cases h

theorem RunLog.Sound.begin {payload : RunEventPayload} {time : ℕ} (hsound : log.Sound)
    (h : log.begin payload time = some log') : log'.Sound ∧ log.Grows log' := by
  obtain ⟨hidle, rfl⟩ := RunLog.begin_cases h
  have haligned := hsound.aligned
  rw [RunLog.Aligned, hidle] at haligned
  obtain ⟨hring, hlive, hnext⟩ := haligned
  refine ⟨⟨hsound.numbered, ⟨hring, hlive, by simp [hnext], hnext⟩, fun hfinished => ?_⟩,
    ⟨List.prefix_refl _, List.prefix_refl _, by simp [hidle], fun _ => rfl⟩⟩
  -- the lock was free, so the run was not closed
  exact .inr ((hsound.finished hfinished).resolve_left (by simp [hidle]))

theorem RunLog.Sound.proceed (hsound : log.Sound) (h : log.proceed = some log') :
    log'.Sound ∧ log.Grows log' := by
  obtain ⟨hnumbered, haligned, hfinished⟩ := hsound
  unfold RunLog.proceed at h
  unfold RunLog.Aligned at haligned
  split at h
  · next event hstage =>
    obtain rfl := Option.some.inj h
    simp only [hstage] at haligned hfinished
    obtain ⟨hring, hlive, hnext, hseq⟩ := haligned
    refine ⟨⟨hnumbered.push hseq, ⟨log.journal, rfl, hring, hlive, by simp [hnext]⟩, fun h => ?_⟩,
      ⟨List.prefix_append _ _, List.prefix_refl _, by simp [hstage], by simp [hstage]⟩⟩
    obtain ⟨terminal, hmem, hterminal⟩ := (hfinished h).resolve_left (by simp)
    exact .inr ⟨terminal, List.mem_append_left _ hmem, hterminal⟩
  · next event hstage =>
    obtain rfl := Option.some.inj h
    simp only [hstage] at haligned hfinished
    obtain ⟨past, hjournal, hring, hlive, hnext⟩ := haligned
    refine ⟨⟨hnumbered, ⟨past, hjournal, ?_, hlive, hnext⟩,
        fun h => .inr ((hfinished h).resolve_left (by simp))⟩,
      ⟨List.prefix_refl _, List.prefix_refl _, by simp [hstage], fun _ => rfl⟩⟩
    rw [hjournal, hring]
    exact lastOf_push (by decide) past event
  · next event hstage =>
    obtain rfl := Option.some.inj h
    simp only [hstage] at haligned hfinished
    obtain ⟨past, hjournal, hring, hlive, hnext⟩ := haligned
    exact ⟨⟨hnumbered, ⟨hring, by rw [hlive, hjournal], hnext, by simp [hjournal]⟩,
        fun h => .inr ((hfinished h).resolve_left (by simp))⟩,
      ⟨List.prefix_refl _, List.prefix_append _ _, by simp [hstage], fun _ => rfl⟩⟩
  · next event hstage =>
    obtain rfl := Option.some.inj h
    simp only [hstage] at haligned hfinished
    obtain ⟨hring, hlive, hnext, hmem⟩ := haligned
    refine ⟨⟨hnumbered, ⟨hring, hlive, hnext⟩, fun h => .inr ?_⟩,
      ⟨List.prefix_refl _, List.prefix_refl _, by simp [hstage], fun _ => rfl⟩⟩
    rcases Bool.or_eq_true_iff.mp h with h | h
    · exact (hfinished h).resolve_left (by simp)
    · exact ⟨event, hmem, h⟩
  · cases h
  · cases h

theorem RunLog.Sound.live_isPrefix (hsound : log.Sound) : log.live <+: log.journal := by
  have haligned := hsound.aligned
  unfold RunLog.Aligned at haligned
  split at haligned
  · exact haligned.2.1 ▸ List.prefix_refl _
  · exact haligned.2.1 ▸ List.prefix_refl _
  · obtain ⟨past, hjournal, -, hlive, -⟩ := haligned
    exact hlive ▸ hjournal ▸ List.prefix_append _ _
  · obtain ⟨past, hjournal, -, hlive, -⟩ := haligned
    exact hlive ▸ hjournal ▸ List.prefix_append _ _
  · exact haligned.2.1 ▸ List.prefix_refl _
  · rw [haligned.2.1]
    exact List.nil_prefix

/-- Between two emissions the three hold the same events, and nothing else was numbered. -/
theorem RunLog.Sound.idle (hsound : log.Sound) (hidle : log.emission = .idle) :
    log.ring = lastOf eventRing log.journal ∧ log.live = log.journal ∧
      log.nextSeq = log.journal.length + 1 := by
  have haligned := hsound.aligned
  rwa [RunLog.Aligned, hidle] at haligned

theorem RunLog.Sound.closed (hsound : log.Sound) (hclosed : log.emission = .closed) :
    log.ring = [] ∧ log.live = [] ∧ log.finished := by
  have haligned := hsound.aligned
  rwa [RunLog.Aligned, hclosed] at haligned

theorem Emission.unlocked_iff {emission : Emission} :
    emission.unlocked ↔ emission = .idle ∨ emission = .closed := by
  cases emission <;> simp [Emission.unlocked]

/-- The order in which events are published, and the places that keep them. -/
structure RunLog.InOrder (log : RunLog) : Prop where
  /-- The numbers are consecutive from one, in the order of the journal. -/
  numbered : Numbered RunEvent.seq log.journal
  /-- The ring and the broadcast have the journal's order, without a hole. -/
  ring : log.ring <:+: log.journal
  live : log.live <+: log.journal
  /-- Between two emissions nothing is missing from either. -/
  settled : log.emission = .idle → log.live = log.journal ∧
    log.ring = lastOf eventRing log.journal ∧ log.lastSeq = log.journal.length

theorem RunLog.Sound.inOrder (hsound : log.Sound) : log.InOrder where
  numbered := hsound.numbered
  ring := by
    have hlast (events : List RunEvent) : lastOf eventRing events <:+ events :=
      List.drop_suffix _ _
    have haligned := hsound.aligned
    unfold RunLog.Aligned at haligned
    split at haligned
    · exact haligned.1 ▸ (hlast _).isInfix
    · exact haligned.1 ▸ (hlast _).isInfix
    · obtain ⟨past, hjournal, hring, -⟩ := haligned
      rw [hjournal, hring]
      exact (hlast past).isInfix.trans (List.prefix_append _ _).isInfix
    · obtain ⟨past, -, hring, -⟩ := haligned
      exact hring ▸ (hlast _).isInfix
    · exact haligned.1 ▸ (hlast _).isInfix
    · rw [haligned.1]
      exact List.nil_infix
  live := hsound.live_isPrefix
  settled hidle := by
    obtain ⟨hring, hlive, hnext⟩ := hsound.idle hidle
    exact ⟨hlive, hring, by simp [RunLog.lastSeq, hnext]⟩

/-! ### What a replay returns -/

/-- What a replay has read so far, whatever was published meanwhile. -/
def Replay.Sound (since : ℕ) (log : RunLog) : Replay → Prop
  | .ring => True
  | .file lines found => lines ≤ log.journal.length ∧
      found = after RunEvent.seq since (log.journal.take lines)

theorem Replay.Sound.grows {replay : Replay} (h : replay.Sound since log)
    (hgrows : log.journal <+: log'.journal) : replay.Sound since log' := by
  have hlength := hgrows.length_le
  cases replay with
  | ring => trivial
  | file lines found =>
    obtain ⟨hlines, hfound⟩ := h
    exact ⟨hlines.trans hlength, by rw [hfound, take_eq_of_isPrefix hgrows hlines]⟩

/-- Where the ring reaches back to `since`, nothing older is needed. -/
theorem RunLog.Sound.replay_ring (hsound : log.Sound) (hunlocked : log.emission.unlocked)
    (hcovers : log.covers since) :
    (log.ring.filter fun event => since < event.seq) = after RunEvent.seq since log.journal := by
  rcases Emission.unlocked_iff.mp hunlocked with hidle | hclosed
  · obtain ⟨hring, -, -⟩ := hsound.idle hidle
    generalize hfirst : log.journal.length - eventRing = first at hring
    have hring' : log.ring = log.journal.drop first := by rw [hring, lastOf, hfirst]
    -- the oldest entry of the ring carries its place in the journal
    have hreaches : first ≤ since := by
      rw [RunLog.covers, hring', List.head?_drop] at hcovers
      obtain ⟨oldest, holdest, hle⟩ := (Option.any_eq_true _ _).mp hcovers
      obtain ⟨hindex, rfl⟩ := List.getElem?_eq_some_iff.mp holdest
      have hseq := hsound.numbered.key_getElem hindex
      have hle' := of_decide_eq_true hle
      omega
    have hsplit : after RunEvent.seq since (log.journal.take first ++ log.journal.drop first) = _ :=
      after_append since _ _
    rw [List.take_append_drop, (hsound.numbered.take first).after_eq_drop,
      List.drop_eq_nil_of_le (by simp; omega), List.nil_append] at hsplit
    rw [hsplit, hring', after]
  · rw [RunLog.covers, (hsound.closed hclosed).1] at hcovers
    cases hcovers

/-- **A replay is exact**: the step that ends it returns the events of the journal, as it is at
that moment, that come after `since`. -/
theorem Replay.exact {replay : Replay} {events : List RunEvent} (hsound : log.Sound)
    (hreplay : replay.Sound since log) (h : replay.step since log = some (.inr events)) :
    events = after RunEvent.seq since log.journal := by
  cases replay with
  | ring =>
    rw [Replay.step] at h
    split at h
    · next hunlocked =>
      split at h
      · next hcovers =>
        cases h
        exact hsound.replay_ring hunlocked hcovers
      · cases h
    · cases h
  | file lines found =>
    rw [Replay.step] at h
    obtain ⟨-, rfl⟩ := hreplay
    split at h
    · cases h
    · next hend =>
      cases h
      rw [List.take_of_length_le (List.getElem?_eq_none_iff.mp hend)]

theorem Replay.Sound.step {replay replay' : Replay} (hreplay : replay.Sound since log)
    (h : replay.step since log = some (.inl replay')) : replay'.Sound since log := by
  cases replay with
  | ring =>
    rw [Replay.step] at h
    split at h
    · split at h
      · cases h
      · cases h
        exact ⟨Nat.zero_le _, rfl⟩
    · cases h
  | file lines found =>
    obtain ⟨-, rfl⟩ := hreplay
    rw [Replay.step] at h
    split at h
    · next event hline =>
      cases h
      obtain ⟨hindex, rfl⟩ := List.getElem?_eq_some_iff.mp hline
      refine ⟨hindex, ?_⟩
      rw [List.take_add_one, hline, after_append]
      split <;> simp_all [after]
    · cases h

/-- A replay waits for the ring's lock and for nothing else. -/
theorem Replay.step_isSome (replay : Replay) (hunlocked : log.emission.unlocked) (since : ℕ) :
    (replay.step since log).isSome := by
  cases replay with
  | ring =>
    rw [Replay.step, if_pos hunlocked]
    split <;> rfl
  | file lines found =>
    rw [Replay.step]
    split <;> rfl

end Retrograd.Server
