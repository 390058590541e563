import Retrograd.Server.Streams

/-!
# What a watcher of a run gets

As long as it is not told it lagged, a stream yields every event after the one it was asked to
resume from, once and in order, up to the first terminal event, and ends there, **unless it waits
beyond the outcome** (`watched`): a stream asked to resume from a number that no outcome of the run
passes, before the history is marked complete, drops the terminal event unread and never ends
(`beyond_not_watched`). What the invariant says of a stream is that it has yielded the journal up
to `last`, and that its receiver is not past `last`.
-/

namespace Retrograd.Server

open Logic List Option
open Relation (ReflTransGen)

variable {log log' : RunLog} {subscriber subscriber' : Subscriber}

/-! ### What a stream has yielded -/

/-- A sampled flag tells of the history as it was at least. -/
def Subscriber.Informed (subscriber : Subscriber) (log : RunLog) (count : ℕ) : Prop :=
  (log.emission = .closed → subscriber.terminalAlready) ∧
    (subscriber.terminalAlready → log.emission = .closed ∧ count = log.journal.length ∨
      ∃ event ∈ log.journal.take count, event.isTerminal)

/-- How a stream ends: at a terminal event, or because there was nothing to wait for. -/
def Subscriber.Over (subscriber : Subscriber) (log : RunLog) : Prop :=
  (∃ past event, subscriber.events = past ++ [event] ∧ event.isTerminal ∧
      ∀ earlier ∈ past, ¬ earlier.isTerminal) ∨
    subscriber.terminalAlready ∧ (∀ event ∈ subscriber.events, ¬ event.isTerminal) ∧
      (log.emission = .closed ∧ subscriber.events = after RunEvent.seq subscriber.since log.journal ∨
        ∃ event ∈ log.journal, event.isTerminal ∧ event.seq ≤ subscriber.since)

/-- Each stage of a stream. -/
def Subscriber.Stands (subscriber : Subscriber) (log : RunLog) : Prop :=
  match subscriber.stage with
  | .subscribe => subscriber.last = subscriber.since
  | .sample => subscriber.last = subscriber.since ∧ subscriber.position ≤ log.live.length
  | .replay replay => subscriber.last = subscriber.since ∧
      subscriber.position ≤ log.live.length ∧ replay.Sound subscriber.since log ∧
      subscriber.Informed log log.journal.length
  | .serve rest => (∀ event ∈ subscriber.events, ¬ event.isTerminal) ∧
      ∃ count ≤ log.journal.length, subscriber.position ≤ count ∧
        rest = after RunEvent.seq subscriber.last (log.journal.take count) ∧
        subscriber.Informed log count
  | .recv => (∀ event ∈ subscriber.events, ¬ event.isTerminal) ∧
      subscriber.position ≤ subscriber.last ∧ ¬ subscriber.terminalAlready ∧
      log.emission ≠ .closed
  | .ended => subscriber.Over log

/-- What an unlagged stream has done: it has yielded the journal up to `last`. -/
structure Subscriber.Sound (subscriber : Subscriber) (log : RunLog) : Prop where
  since_le : subscriber.since ≤ subscriber.last
  last_le : subscriber.last = subscriber.since ∨ subscriber.last ≤ log.journal.length
  events : subscriber.events =
    after RunEvent.seq subscriber.since (log.journal.take subscriber.last)
  stands : subscriber.Stands log

theorem Subscriber.streamFrom_sound (since : ℕ) (hlog : log.Sound) :
    (Subscriber.streamFrom since).Sound log :=
  ⟨le_rfl, .inl rfl, (hlog.numbered.after_take_of_le le_rfl).symm, rfl⟩

/-! ### What the others do -/

theorem Subscriber.Informed.grows {count : ℕ} (h : subscriber.Informed log count)
    (hgrows : log.Grows log') (hcount : count ≤ log.journal.length) :
    subscriber.Informed log' count := by
  refine ⟨fun hclosed => h.1 (hgrows.closed.mpr hclosed), fun hflag => ?_⟩
  rw [take_eq_of_isPrefix hgrows.journal hcount]
  refine (h.2 hflag).imp_left fun ⟨hclosed, hlength⟩ => ?_
  exact ⟨hgrows.closed.mp hclosed, by rw [hlength, hgrows.history hclosed]⟩

theorem Subscriber.Over.grows (h : subscriber.Over log) (hgrows : log.Grows log') :
    subscriber.Over log' := by
  refine h.imp_right fun ⟨hflag, hnone, hwhy⟩ => ⟨hflag, hnone, ?_⟩
  rcases hwhy with ⟨hclosed, hevents⟩ | ⟨event, hmem, hevent⟩
  · exact .inl ⟨hgrows.closed.mp hclosed, by rw [hevents, hgrows.history hclosed]⟩
  · exact .inr ⟨event, hgrows.journal.subset hmem, hevent⟩

theorem Subscriber.Sound.grows (h : subscriber.Sound log) (hlog : log.Sound) (hlog' : log'.Sound)
    (hgrows : log.Grows log') : subscriber.Sound log' := by
  obtain ⟨hsince, hlast, hevents, hstands⟩ := h
  have hlength := hgrows.journal.length_le
  refine ⟨hsince, hlast.imp_right fun h => h.trans hlength, ?_, ?_⟩
  · rcases hlast with hlast | hlast
    · rw [hevents, hlast, hlog.numbered.after_take_of_le le_rfl,
        hlog'.numbered.after_take_of_le le_rfl]
    · rw [hevents, take_eq_of_isPrefix hgrows.journal hlast]
  · unfold Subscriber.Stands at hstands ⊢
    split at hstands
    · exact hstands
    · exact ⟨hstands.1, hstands.2.trans hgrows.live.length_le⟩
    · obtain ⟨hlast, hposition, hreplay, hclosed, hflag⟩ := hstands
      refine ⟨hlast, hposition.trans hgrows.live.length_le, hreplay.grows hgrows.journal,
        fun h => hclosed (hgrows.closed.mpr h), fun h => ?_⟩
      rw [take_length] at hflag ⊢
      exact (hflag h).imp (fun ⟨hclosed, _⟩ => ⟨hgrows.closed.mp hclosed, rfl⟩)
        fun ⟨event, hmem, hevent⟩ => ⟨event, hgrows.journal.subset hmem, hevent⟩
    · obtain ⟨hnone, count, hcount, hposition, hrest, hinformed⟩ := hstands
      exact ⟨hnone, count, hcount.trans hlength, hposition,
        by rw [take_eq_of_isPrefix hgrows.journal hcount, hrest], hinformed.grows hgrows hcount⟩
    · obtain ⟨hnone, hposition, hflag, hclosed⟩ := hstands
      exact ⟨hnone, hposition, hflag, fun h => hclosed (hgrows.closed.mpr h)⟩
    · exact Subscriber.Over.grows hstands hgrows

/-! ### What a stream does -/

/-- The event after `last` is the next one to yield. -/
theorem Subscriber.take_next (hlog : log.Sound) (hsince : subscriber.since ≤ subscriber.last)
    (hevents : subscriber.events =
      after RunEvent.seq subscriber.since (log.journal.take subscriber.last))
    (hnone : ∀ event ∈ subscriber.events, ¬ event.isTerminal)
    (hindex : subscriber.last < log.journal.length) (next : StreamStage) :
    let served := subscriber.take log.journal[subscriber.last] next
    served.since ≤ served.last ∧ served.last = subscriber.last + 1 ∧
      served.events = after RunEvent.seq served.since (log.journal.take served.last) ∧
      (served.stage = .ended ∧ served.Over log ∨
        served.stage = next ∧ ∀ event ∈ served.events, ¬ event.isTerminal) := by
  have hseq := hlog.numbered.key_getElem hindex
  have htaken : subscriber.take log.journal[subscriber.last] next = { subscriber with
      last := subscriber.last + 1
      frames := subscriber.frames ++ [.event log.journal[subscriber.last]]
      stage := if log.journal[subscriber.last].isTerminal then .ended else next } := by
    rw [Subscriber.take, if_neg (by omega), hseq]
  have hmore : (subscriber.take log.journal[subscriber.last] next).events =
      subscriber.events ++ [log.journal[subscriber.last]] := by
    rw [htaken]
    simp [Subscriber.events, Frame.event?]
  refine ⟨?_, by rw [htaken], ?_, ?_⟩
  · rw [htaken]
    exact hsince.trans (Nat.le_succ _)
  · rw [hmore, htaken]
    show _ = after RunEvent.seq subscriber.since (log.journal.take (subscriber.last + 1))
    rw [hlog.numbered.after_take_append hsince (Nat.le_succ _),
      hlog.numbered.after_take_succ hindex, hevents]
  · by_cases hterminal : log.journal[subscriber.last].isTerminal
    · exact .inl ⟨by rw [htaken]; exact if_pos hterminal, .inl ⟨_, _, hmore, hterminal, hnone⟩⟩
    · refine .inr ⟨by rw [htaken]; exact if_neg hterminal, ?_⟩
      rw [hmore]
      intro event hmem
      rcases mem_append.mp hmem with hmem | hmem
      · exact hnone event hmem
      · rwa [mem_singleton.mp hmem]

/-- The replay has been served: what it held beyond `since` was yielded. -/
theorem Subscriber.Sound.served (h : subscriber.Sound log) (hlog : log.Sound)
    (hstage : subscriber.stage = .serve []) :
    ({ subscriber with stage := if subscriber.terminalAlready then .ended else .recv } :
      Subscriber).Sound log := by
  obtain ⟨hsince, hlast, hevents, hstands⟩ := h
  rw [Subscriber.Stands, hstage] at hstands
  obtain ⟨hnone, count, hcount, hposition, hrest, hclosed, hflag⟩ := hstands
  have hpast : count ≤ subscriber.last := by
    rw [(hlog.numbered.take _).after_eq_drop] at hrest
    have hlength := congrArg List.length hrest
    simp only [length_nil, length_drop, length_take_of_le hcount] at hlength
    omega
  refine ⟨hsince, hlast, hevents, ?_⟩
  by_cases hover : subscriber.terminalAlready
  · simp only [Subscriber.Stands, if_pos hover]
    refine .inr ⟨hover, hnone, (hflag hover).imp ?_ ?_⟩
    · rintro ⟨hclosed, rfl⟩
      exact ⟨hclosed, by rw [← take_of_length_le hpast]; exact hevents⟩
    · rintro ⟨event, hmem, hterminal⟩
      obtain ⟨index, hindex, rfl⟩ := mem_take_iff_getElem.mp hmem
      have hseq := hlog.numbered.key_getElem (show index < log.journal.length by omega)
      refine ⟨_, getElem_mem _, hterminal, Nat.le_of_not_lt fun hlater => hnone _ ?_ hterminal⟩
      -- it would have been yielded
      show _ ∈ subscriber.events
      rw [hevents]
      exact mem_after.mpr ⟨mem_take_iff_getElem.mpr ⟨index, by omega, rfl⟩, hlater⟩
  · simp only [Subscriber.Stands, if_neg hover]
    exact ⟨hnone, hposition.trans hpast, hover, fun h => hover (hclosed h)⟩

/-- An event that the replay has served already is passed over. -/
theorem Subscriber.take_served {event : RunEvent} (h : event.seq ≤ subscriber.last)
    (next : StreamStage) : subscriber.take event next = { subscriber with stage := next } := by
  rw [Subscriber.take, if_pos h]

theorem Subscriber.Sound.step (h : subscriber.Sound log) (hlog : log.Sound)
    (hstep : subscriber.step log = some subscriber') (hunlagged : subscriber'.unlagged) :
    subscriber'.Sound log := by
  have hstands := h.stands
  unfold Subscriber.step at hstep
  unfold Subscriber.Stands at hstands
  split at hstep
  · next hstage =>
    obtain rfl := some.inj hstep
    rw [hstage] at hstands
    exact ⟨h.since_le, h.last_le, h.events, hstands, le_rfl⟩
  · next hstage =>
    obtain rfl := some.inj hstep
    rw [hstage] at hstands
    refine ⟨h.since_le, h.last_le, h.events, hstands.1, hstands.2, trivial,
      fun hclosed => (hlog.closed hclosed).2.2, fun hflag => ?_⟩
    rw [take_length]
    exact (hlog.finished hflag).imp_left fun hclosed => ⟨hclosed, rfl⟩
  · next replay hstage =>
    rw [hstage] at hstands
    obtain ⟨hlast, hposition, hreplay, hinformed⟩ := hstands
    split at hstep
    · cases hstep
    · next replay' hnext =>
      obtain rfl := some.inj hstep
      exact ⟨h.since_le, h.last_le, h.events, hlast, hposition, hreplay.step hnext, hinformed⟩
    · next events hdone =>
      obtain rfl := some.inj hstep
      have hnone : ∀ event ∈ subscriber.events, ¬ event.isTerminal := by
        rw [h.events, hlast, hlog.numbered.after_take_of_le le_rfl]
        simp
      refine ⟨h.since_le, h.last_le, h.events, hnone, log.journal.length, le_rfl,
        hposition.trans hlog.live_isPrefix.length_le, ?_, hinformed⟩
      rw [take_length, hlast]
      exact Replay.exact hlog hreplay hdone
  · next hstage =>
    obtain rfl := some.inj hstep
    exact h.served hlog hstage
  · next event rest hstage =>
    obtain rfl := some.inj hstep
    rw [hstage] at hstands
    obtain ⟨hnone, count, hcount, hposition, hrest, hinformed⟩ := hstands
    rw [(hlog.numbered.take _).after_eq_drop] at hrest
    -- the replay goes on where the stream is
    have hindex : subscriber.last < count := by
      have hlength := congrArg List.length hrest
      simp only [length_cons, length_drop, length_take_of_le hcount] at hlength
      omega
    have hsplit : event = log.journal[subscriber.last] ∧
        rest = (log.journal.take count).drop (subscriber.last + 1) := by
      rw [drop_eq_getElem_cons (by simp; omega)] at hrest
      simpa using hrest
    obtain ⟨rfl, hrest'⟩ := hsplit
    obtain ⟨hsince, hlast, hevents, hstage'⟩ :=
      Subscriber.take_next hlog h.since_le h.events hnone (hindex.trans_le hcount) (.serve rest)
    have hkept : (subscriber.take log.journal[subscriber.last] (.serve rest)).position =
        subscriber.position ∧ (subscriber.take log.journal[subscriber.last]
          (.serve rest)).terminalAlready = subscriber.terminalAlready := by
      unfold Subscriber.take
      split <;> exact ⟨rfl, rfl⟩
    refine ⟨hsince, .inr (by omega), hevents, ?_⟩
    rcases hstage' with ⟨hended, hover⟩ | ⟨hserve, hnone'⟩
    · rwa [Subscriber.Stands, hended]
    · rw [Subscriber.Stands, hserve]
      refine ⟨hnone', count, hcount, hkept.1 ▸ hposition, ?_, ?_⟩
      · rw [hlast, (hlog.numbered.take _).after_eq_drop, hrest']
      · rw [Subscriber.Informed, hkept.2]
        exact hinformed
  · next hstage =>
    rw [hstage] at hstands
    obtain ⟨hnone, hposition, hflag, hopen⟩ := hstands
    split at hstep
    · -- it lagged
      obtain rfl := some.inj hstep
      simp [Subscriber.unlagged, Frame.event?] at hunlagged
    · split at hstep
      · cases hstep
      · next event hevent =>
        obtain rfl := some.inj hstep
        obtain ⟨hreach, rfl⟩ := List.getElem?_eq_some_iff.mp hevent
        have hlength := hlog.live_isPrefix.length_le
        have hlive : log.live[subscriber.position] = log.journal[subscriber.position] :=
          hlog.live_isPrefix.getElem hreach
        rw [hlive]
        have hseq := hlog.numbered.key_getElem (hreach.trans_le hlength)
        -- what the receiver gets is either served already or the next one
        rcases hposition.lt_or_eq with hbehind | hnext
        · rw [Subscriber.take_served (by rw [hseq]; exact hbehind)]
          exact ⟨h.since_le, h.last_le, h.events, hnone, hbehind, hflag, hopen⟩
        · simp only [hnext] at hreach ⊢
          obtain ⟨hsince, hlast, hevents, hstage'⟩ := @Subscriber.take_next log
            { subscriber with position := subscriber.last + 1 } hlog h.since_le
            h.events hnone (hreach.trans_le hlength) .recv
          refine ⟨hsince, .inr (hlast.le.trans (hreach.trans_le hlength)), hevents, ?_⟩
          rcases hstage' with ⟨hended, hover⟩ | ⟨hrecv, hnone'⟩
          · rwa [Subscriber.Stands, hended]
          · rw [Subscriber.Stands, hrecv]
            refine ⟨hnone', ?_, ?_, hopen⟩
            · rw [hlast]
              unfold Subscriber.take
              split <;> exact le_rfl
            · unfold Subscriber.take
              split <;> exact hflag
  · cases hstep

/-! ### What a stream promises -/

/-- Nothing is left to do for a stream while nobody emits. -/
def Subscriber.Idle (subscriber : Subscriber) (log : RunLog) : Prop :=
  log.emission.unlocked ∧ subscriber.step log = none

/-- What a stream yields: the events after `since`, once and in order, up to a terminal one. -/
structure Subscriber.Delivers (subscriber : Subscriber) (log : RunLog) : Prop where
  /-- Nothing else, nothing twice, nothing out of order and nothing after a terminal event. -/
  inOrder : subscriber.events <+:
    through RunEvent.isTerminal (after RunEvent.seq subscriber.since log.journal)
  /-- With nothing left to do, it has yielded every event up to the run's first terminal one. -/
  complete : subscriber.Idle log →
    after RunEvent.seq subscriber.since (through RunEvent.isTerminal log.journal) <+:
      subscriber.events
  /-- And it has ended, when the run's outcome is published. -/
  ends : subscriber.Idle log → (∃ event ∈ log.journal, event.isTerminal) →
    subscriber.stage = .ended

/-- The stream does not wait beyond the outcome: the history was complete when it sampled, or an
outcome of the run, when there is one, comes after the event it resumes from. -/
def Subscriber.Timely (subscriber : Subscriber) (log : RunLog) : Prop :=
  subscriber.terminalAlready ∨ ((∃ event ∈ log.journal, event.isTerminal) →
    ∃ event ∈ log.journal, event.isTerminal ∧ subscriber.since < event.seq)

theorem Subscriber.Sound.events_isPrefix (h : subscriber.Sound log) :
    subscriber.events <+: after RunEvent.seq subscriber.since log.journal := by
  rw [h.events]
  exact after_mono ( take_prefix _ _) _

/-- A stream that has not ended has met no terminal event. -/
theorem Subscriber.Sound.none_terminal (h : subscriber.Sound log) (hlog : log.Sound)
    (hstage : subscriber.stage ≠ .ended) : ∀ event ∈ subscriber.events, ¬ event.isTerminal := by
  have hnothing (hlast : subscriber.last = subscriber.since) :
      ∀ event ∈ subscriber.events, ¬ event.isTerminal := by
    rw [h.events, hlast, hlog.numbered.after_take_of_le le_rfl]
    simp
  have hstands := h.stands
  unfold Subscriber.Stands at hstands
  split at hstands
  · exact hnothing hstands
  · exact hnothing hstands.1
  · exact hnothing hstands.1
  · exact hstands.1
  · exact hstands.1
  · next hended => exact absurd hended hstage

theorem Subscriber.Sound.over (h : subscriber.Sound log) (hstage : subscriber.stage = .ended) :
    subscriber.Over log := by
  have hstands := h.stands
  rwa [Subscriber.Stands, hstage] at hstands

/-- A stream that ended at a terminal event has yielded exactly what it owed. -/
theorem through_of_ended {past : List RunEvent} {event : RunEvent} {events : List RunEvent}
    (hfront : past ++ [event] <+: events) (hterminal : event.isTerminal)
    (hnone : ∀ earlier ∈ past, ¬ earlier.isTerminal) :
    through RunEvent.isTerminal events = past ++ [event] := by
  obtain ⟨rest, rfl⟩ := hfront
  rw [append_assoc, through_append_of_none hnone, singleton_append, through,
    if_pos hterminal]

theorem Subscriber.Sound.inOrder (h : subscriber.Sound log) (hlog : log.Sound) :
    subscriber.events <+:
      through RunEvent.isTerminal (after RunEvent.seq subscriber.since log.journal) := by
  have hfront := h.events_isPrefix
  have hquiet (hnone : ∀ event ∈ subscriber.events, ¬ event.isTerminal) : subscriber.events <+:
      through RunEvent.isTerminal (after RunEvent.seq subscriber.since log.journal) := by
    rw [← through_of_none hnone]
    exact through_mono hfront
  by_cases hstage : subscriber.stage = .ended
  · rcases h.over hstage with ⟨past, event, hevents, hterminal, hnone⟩ | ⟨-, hnone, -⟩
    · rw [hevents] at hfront ⊢
      rw [through_of_ended hfront hterminal hnone]
    · exact hquiet hnone
  · exact hquiet (h.none_terminal hlog hstage)

/-- A stream with nothing left to do has ended, or waits with nothing unread. -/
theorem Subscriber.Sound.idle (h : subscriber.Sound log) (hlog : log.Sound)
    (hidle : subscriber.Idle log) : subscriber.stage = .ended ∨
      ¬ subscriber.terminalAlready ∧
        subscriber.events = after RunEvent.seq subscriber.since log.journal := by
  obtain ⟨hunlocked, hstep⟩ := hidle
  have hstands := h.stands
  unfold Subscriber.step at hstep
  unfold Subscriber.Stands at hstands
  split at hstep
  · cases hstep
  · cases hstep
  · next replay hstage =>
    rw [hstage] at hstands
    split at hstep
    · next hblocked =>
      have hsome := replay.step_isSome hunlocked subscriber.since
      rw [hblocked] at hsome
      cases hsome
    · cases hstep
    · cases hstep
  · cases hstep
  · cases hstep
  · next hstage =>
    rw [hstage] at hstands
    obtain ⟨-, hposition, hflag, hopen⟩ := hstands
    have hlive := (hlog.idle ((Emission.unlocked_iff.mp hunlocked).resolve_right hopen)).2.1
    split at hstep
    · cases hstep
    · split at hstep
      · next hend =>
        rw [List.getElem?_eq_none_iff, hlive] at hend
        exact .inr ⟨hflag, by rw [h.events, take_of_length_le (hend.trans hposition)]⟩
      · cases hstep
  · next hstage => exact .inl hstage

theorem Subscriber.Sound.complete (h : subscriber.Sound log) (hlog : log.Sound)
    (hidle : subscriber.Idle log) :
    after RunEvent.seq subscriber.since (through RunEvent.isTerminal log.journal) <+:
      subscriber.events := by
  have hall : after RunEvent.seq subscriber.since (through RunEvent.isTerminal log.journal) <+:
      after RunEvent.seq subscriber.since log.journal := after_mono (through_isPrefix _) _
  by_cases hearly : ∃ event ∈ log.journal, event.isTerminal ∧ event.seq ≤ subscriber.since
  · rw [hlog.numbered.after_through_of_early hearly]
    exact nil_prefix
  · rcases h.idle hlog hidle with hended | ⟨-, hevents⟩
    · rcases h.over hended with ⟨past, event, hevents, hterminal, hnone⟩ |
        ⟨-, -, ⟨-, hevents⟩ | hpassed⟩
      · have hlate : ∀ event ∈ log.journal, event.isTerminal → subscriber.since < event.seq := by
          push Not at hearly
          exact hearly
        rw [hlog.numbered.after_through_of_late hlate, hevents,
          through_of_ended (hevents ▸ h.events_isPrefix) hterminal hnone]
      · rwa [hevents]
      · exact absurd hpassed hearly
    · rwa [hevents]

theorem Subscriber.Sound.delivers (h : subscriber.Sound log) (hlog : log.Sound)
    (htimely : subscriber.Timely log) : subscriber.Delivers log where
  inOrder := h.inOrder hlog
  complete := h.complete hlog
  ends hidle houtcome := by
    rcases h.idle hlog hidle with hended | ⟨hflag, hevents⟩
    · exact hended
    · obtain ⟨event, hmem, hterminal, hlater⟩ := (htimely.resolve_left hflag) houtcome
      -- an outcome it was asked for would have been yielded
      have hyielded : event ∈ subscriber.events := hevents ▸ mem_after.mpr ⟨hmem, hlater⟩
      by_contra hwaits
      exact h.none_terminal hlog hwaits event hyielded hterminal

theorem Subscriber.Sound.timely (h : subscriber.Sound log) (hidle : subscriber.Idle log)
    (hdelivers : subscriber.Delivers log) : subscriber.Timely log := by
  by_cases houtcome : ∃ event ∈ log.journal, event.isTerminal
  · rcases h.over (hdelivers.ends hidle houtcome) with ⟨past, event, hevents, hterminal, -⟩ |
      ⟨hflag, -, -⟩
    · have hmem : event ∈ after RunEvent.seq subscriber.since log.journal :=
        h.events_isPrefix.subset (by simp [hevents])
      exact .inr fun _ => ⟨event, (mem_after.mp hmem).1, hterminal, (mem_after.mp hmem).2⟩
    · exact .inl hflag
  · exact .inr fun h => absurd h houtcome

/-! ### What the pages hold -/

/-- A metrics event. -/
def RunEvent.isMetrics (event : RunEvent) : Bool := (event.sample none).isSome

/-- A sample is what a metrics event says, whatever names were asked for. -/
def RunEvent.Sampled (event : RunEvent) (sample : MetricsSample) : Prop :=
  ∃ wanted, event.sample wanted = some sample

theorem RunEvent.sample_isSome (wanted : Option (List String)) (event : RunEvent) :
    (event.sample wanted).isSome = event.isMetrics := by
  unfold RunEvent.isMetrics RunEvent.sample
  split <;> rfl

/-- A page takes the replay from its start, one sample for each metrics event, and stops early
only when it is full. -/
theorem collect_spec (wanted : Option (List String)) (limit : ℕ) (samples : List MetricsSample)
    (since : ℕ) (events : List RunEvent) :
    ∃ taken rest more, events = taken ++ rest ∧
      Forall₂ RunEvent.Sampled (taken.filter RunEvent.isMetrics) more ∧
      (collect wanted limit samples since events).metrics = samples ++ more ∧
      (collect wanted limit samples since events).nextSince =
        (taken.getLast?.map RunEvent.seq).getD since ∧
      (rest ≠ [] → (samples ++ more).length = limit) := by
  induction events generalizing samples since with
  | nil => exact ⟨[], [], [], rfl, .nil, by simp [collect], rfl, fun h => absurd rfl h⟩
  | cons event events ih =>
    rw [collect]
    split
    · next hfull => exact ⟨[], event :: events, [], rfl, .nil, by simp, rfl, fun _ => by simpa⟩
    · have hsome := event.sample_isSome wanted
      -- the place after this event is that of the last event taken
      have hlast (taken : List RunEvent) : ((event :: taken).getLast?.map RunEvent.seq).getD since =
          (taken.getLast?.map RunEvent.seq).getD event.seq := by
        cases hlast : taken.getLast? <;> simp [getLast?_cons, hlast]
      split
      · next hskip =>
        obtain ⟨taken, rest, more, rfl, hsampled, hmetrics, hnext, hrest⟩ := ih samples event.seq
        rw [hskip] at hsome
        exact ⟨event :: taken, rest, more, rfl, by rwa [filter_cons_of_neg (by simp [← hsome])],
          hmetrics, by rw [hnext, hlast], hrest⟩
      · next sample hsample =>
        obtain ⟨taken, rest, more, rfl, hsampled, hmetrics, hnext, hrest⟩ :=
          ih (samples ++ [sample]) event.seq
        rw [hsample] at hsome
        refine ⟨event :: taken, rest, sample :: more, rfl, ?_, by simp [hmetrics],
          by rw [hnext, hlast], fun h => by simpa using hrest h⟩
        rw [filter_cons_of_pos (by simp [← hsome])]
        exact .cons ⟨wanted, hsample⟩ hsampled

variable {puller puller' : Puller}

/-- What a client that pulls page after page has got. -/
structure Puller.Sound (puller : Puller) (log : RunLog) : Prop where
  start_le : puller.start ≤ puller.nextSince
  nextSince_le : puller.nextSince = puller.start ∨ puller.nextSince ≤ log.journal.length
  samples : List.Forall₂ RunEvent.Sampled
    ((after RunEvent.seq puller.start (log.journal.take puller.nextSince)).filter
      RunEvent.isMetrics) puller.samples
  asking : ∀ replay, puller.asking = some replay → replay.Sound puller.nextSince log

theorem Puller.pull_sound (since : ℕ) (queries : List MetricsQuery) (hlog : log.Sound) :
    (Puller.pull since queries).Sound log :=
  ⟨le_rfl, .inl rfl, by
    show Forall₂ _ ((after RunEvent.seq since (log.journal.take since)).filter _) []
    rw [hlog.numbered.after_take_of_le le_rfl]
    exact .nil, fun replay h => nomatch h⟩

theorem Puller.Sound.grows (h : puller.Sound log) (hlog : log.Sound) (hlog' : log'.Sound)
    (hgrows : log.Grows log') : puller.Sound log' := by
  refine ⟨h.start_le, h.nextSince_le.imp_right fun hle => hle.trans hgrows.journal.length_le, ?_,
    fun replay hasking => (h.asking replay hasking).grows hgrows.journal⟩
  have hsamples := h.samples
  rcases h.nextSince_le with hnext | hnext
  · rw [hnext, hlog.numbered.after_take_of_le le_rfl] at hsamples
    rwa [hnext, hlog'.numbered.after_take_of_le le_rfl]
  · rwa [take_eq_of_isPrefix hgrows.journal hnext]

/-- The place of the last event a page took. -/
theorem last_taken (hlog : log.Sound) {since : ℕ} {taken rest : List RunEvent}
    (hevents : after RunEvent.seq since log.journal = taken ++ rest) :
    (taken.getLast?.map RunEvent.seq).getD since = since + taken.length := by
  rw [hlog.numbered.after_eq_drop] at hevents
  induction taken using List.reverseRecOn with
  | nil => rfl
  | append_singleton taken event _ =>
    have hfound : log.journal[since + taken.length]? = some event := by
      rw [← getElem?_drop, hevents]
      simp
    obtain ⟨hindex, rfl⟩ := List.getElem?_eq_some_iff.mp hfound
    simp [hlog.numbered.key_getElem hindex, Nat.add_assoc]

/-- An answered page: it goes on exactly where the one before it stopped, and leaves nothing
behind unless it is full. -/
theorem MetricsQuery.page_answers (query : MetricsQuery) (hlog : log.Sound) (since : ℕ) :
    let page := query.page since (after RunEvent.seq since log.journal)
    since ≤ page.nextSince ∧ (page.nextSince = since ∨ page.nextSince ≤ log.journal.length) ∧
      Forall₂ RunEvent.Sampled ((after RunEvent.seq since
        (log.journal.take page.nextSince)).filter RunEvent.isMetrics) page.metrics ∧
      (page.metrics.length = query.pageLimit ∧ since < page.nextSince ∨
        after RunEvent.seq page.nextSince log.journal = []) := by
  intro page
  obtain ⟨taken, rest, more, hevents, hsampled, hmetrics, hnext, hrest⟩ :=
    collect_spec query.wanted query.pageLimit [] since (after RunEvent.seq since log.journal)
  rw [nil_append] at hmetrics hrest
  replace hnext : page.nextSince = since + taken.length :=
    hnext.trans (last_taken hlog hevents)
  replace hmetrics : page.metrics = more := hmetrics
  rw [hlog.numbered.after_eq_drop] at hevents
  have htaken : after RunEvent.seq since (log.journal.take page.nextSince) = taken := by
    rw [(hlog.numbered.take _).after_eq_drop, hnext, drop_take, hevents,
      take_left' (by omega)]
  have hlength := congrArg List.length hevents
  rw [length_drop, length_append] at hlength
  refine ⟨by omega, ?_, by rw [htaken, hmetrics]; exact hsampled, ?_⟩
  · rcases Nat.eq_zero_or_pos taken.length with hnil | hpos
    · exact .inl (by omega)
    · exact .inr (by omega)
  · by_cases hall : rest = []
    · refine .inr ?_
      rw [hlog.numbered.after_eq_drop, drop_eq_nil_of_le]
      rw [hall, length_nil] at hlength
      omega
    · have hfull := hrest hall
      have hpos : 0 < more.length := hfull ▸ Nat.lt_of_lt_of_le Nat.one_pos (le_max_left _ _)
      have hsome := (hsampled.length_eq ▸ hpos).trans_le (length_filter_le _ _)
      exact .inl ⟨by rw [hmetrics, hfull], by omega⟩

/-- The step that answers a page. -/
theorem Puller.step_cases (h : puller.step log = some puller') :
    (∃ replay, puller' = { puller with asking := some replay } ∧
      (replay = .ring ∨ ∃ before, puller.asking = some before ∧
        before.step puller.nextSince log = some (.inl replay))) ∨
    ∃ query rest replay events, puller.queries = query :: rest ∧ puller.asking = some replay ∧
      replay.step puller.nextSince log = some (.inr events) ∧
      puller' = { puller with
        nextSince := (query.page puller.nextSince events).nextSince
        queries := rest
        pages := puller.pages ++ [query.page puller.nextSince events]
        asking := none } := by
  unfold Puller.step at h
  split at h
  · cases h
  · next query rest hqueries =>
    split at h
    · next hasking =>
      obtain rfl := some.inj h
      exact .inl ⟨_, rfl, .inl rfl⟩
    · next replay hasking =>
      split at h
      · cases h
      · next replay' hnext =>
        obtain rfl := some.inj h
        exact .inl ⟨_, rfl, .inr ⟨replay, hasking, hnext⟩⟩
      · next events hdone =>
        obtain rfl := some.inj h
        exact .inr ⟨query, rest, replay, events, hqueries, hasking, hdone, rfl⟩

theorem Puller.Sound.step (h : puller.Sound log) (hlog : log.Sound)
    (hstep : puller.step log = some puller') : puller'.Sound log := by
  rcases Puller.step_cases hstep with ⟨replay, rfl, hreplay⟩ |
    ⟨query, rest, replay, events, hqueries, hasking, hdone, rfl⟩
  · refine ⟨h.start_le, h.nextSince_le, h.samples, ?_⟩
    rintro _ ⟨⟩
    rcases hreplay with rfl | ⟨before, hbefore, hnext⟩
    · trivial
    · exact (h.asking before hbefore).step hnext
  · obtain rfl := Replay.exact hlog (h.asking replay hasking) hdone
    obtain ⟨hle, hnext, hsampled, -⟩ := query.page_answers hlog puller.nextSince
    refine ⟨h.start_le.trans hle, ?_, ?_, fun replay h => nomatch h⟩
    · rcases hnext with hsame | hwithin
      · exact h.nextSince_le.imp hsame.trans hsame.le.trans
      · exact .inr hwithin
    · show Forall₂ _ _ (Puller.samples { puller with pages := puller.pages ++ _ })
      rw [hlog.numbered.after_take_append h.start_le hle, filter_append]
      simp only [Puller.samples, flatMap_append, flatMap_singleton]
      exact rel_append h.samples hsampled

/-- What the chained pages of a client come to: every metrics event it has passed, once and in
order, and nothing left behind by a page that was not full. -/
structure Puller.Collects (puller : Puller) (log : RunLog) : Prop where
  once : List.Forall₂ RunEvent.Sampled
    ((after RunEvent.seq puller.start (log.journal.take puller.nextSince)).filter
      RunEvent.isMetrics) puller.samples
  answers : ∀ puller' query rest page, puller.step log = some puller' →
    puller.queries = query :: rest → puller'.pages = puller.pages ++ [page] →
    page.metrics.length = query.pageLimit ∧ puller.nextSince < puller'.nextSince ∨
      after RunEvent.seq puller'.nextSince log.journal = []

theorem Puller.Sound.collects (h : puller.Sound log) (hlog : log.Sound) : puller.Collects log where
  once := h.samples
  answers puller' query rest page hstep hqueries hpages := by
    rcases Puller.step_cases hstep with ⟨replay, rfl, -⟩ |
      ⟨asked, others, replay, events, hasked, hasking, hdone, rfl⟩
    · -- no page is answered yet
      have hlength := congrArg List.length hpages
      simp at hlength
    · obtain rfl := Replay.exact hlog (h.asking replay hasking) hdone
      obtain ⟨rfl, -⟩ := cons.inj (hqueries.symm.trans hasked)
      obtain rfl : _ = page := by simpa using hpages
      exact (query.page_answers hlog puller.nextSince).2.2.2

/-! ### The run -/

/-- The replay of a stream, lagged or not. -/
def Subscriber.Replays (subscriber : Subscriber) (log : RunLog) : Prop :=
  ∀ replay, subscriber.stage = .replay replay → replay.Sound subscriber.since log

theorem Subscriber.take_stage {event : RunEvent} {next : StreamStage} {replay : Replay}
    (h : (subscriber.take event next).stage = .replay replay) : next = .replay replay := by
  unfold Subscriber.take at h
  split at h
  · exact h
  · dsimp only at h
    split at h
    · cases h
    · exact h

theorem Subscriber.Replays.step (h : subscriber.Replays log)
    (hstep : subscriber.step log = some subscriber') : subscriber'.Replays log := by
  intro replay' hstage'
  unfold Subscriber.step at hstep
  split at hstep
  · cases hstep
    cases hstage'
  · cases hstep
    cases hstage'
    trivial
  · next replay hstage =>
    split at hstep
    · cases hstep
    · next hnext =>
      cases hstep
      cases hstage'
      exact (h replay hstage).step hnext
    · cases hstep
      cases hstage'
  · cases hstep
    dsimp only at hstage'
    split at hstage' <;> cases hstage'
  · cases hstep
    cases Subscriber.take_stage hstage'
  · next hstage =>
    split at hstep
    · cases hstep
      exact absurd (hstage.symm.trans hstage') nofun
    · split at hstep
      · cases hstep
      · cases hstep
        cases Subscriber.take_stage hstage'
  · cases hstep

/-- What is known of a task, whatever the others do. -/
def Task.Knows (task : Task) (store : Store) : Prop :=
  match task with
  | .call _ _ | .emitting _ _ => True
  | .stream subscriber => (subscriber.unlagged → subscriber.Sound store.log) ∧
      subscriber.Replays store.log
  | .pull puller => puller.Sound store.log

/-- The invariant of the handle; nobody owns a part of it. -/
def Store.Inv (store : Store) (_ : ℕ) : Prop := store.log.Sound

theorem Task.Knows.grows {task : Task} {store store' : Store} (h : task.Knows store)
    (hlog : store.log.Sound) (hlog' : store'.log.Sound) (hgrows : store.log.Grows store'.log) :
    task.Knows store' := by
  cases task with
  | call | emitting => trivial
  | stream subscriber =>
    obtain ⟨hsound, hreplays⟩ := h
    exact ⟨fun hunlagged => (hsound hunlagged).grows hlog hlog' hgrows,
      fun replay hstage => (hreplays replay hstage).grows hgrows.journal⟩
  | pull puller => exact Puller.Sound.grows h hlog hlog' hgrows

/-- A stream that was told it lagged stays so. -/
theorem Subscriber.unlagged_of_step (h : subscriber.step log = some subscriber')
    (hunlagged : subscriber'.unlagged) : subscriber.unlagged := by
  have htake {sub : Subscriber} {event : RunEvent} {next : StreamStage}
      (h : (sub.take event next).unlagged) : sub.unlagged := by
    unfold Subscriber.take at h
    split at h
    · exact h
    · simp only [Subscriber.unlagged, all_append, Bool.and_eq_true] at h
      exact h.1
  unfold Subscriber.step at h
  split at h
  · cases h
    exact hunlagged
  · cases h
    exact hunlagged
  · split at h <;> cases h <;> exact hunlagged
  · cases h
    exact hunlagged
  · cases h
    exact htake hunlagged
  · split at h
    · cases h
      simp [Subscriber.unlagged, Frame.event?] at hunlagged
    · split at h
      · cases h
      · cases h
        exact @htake { subscriber with position := subscriber.position + 1 } _ _ hunlagged
  · cases h

/-- A task leaves the log alone or begins an emission. -/
theorem Task.step_spec {task task' : Task} {store store' : Store}
    (h : task.step store = some (task', store')) (hlog : store.log.Sound)
    (hknows : task.Knows store) :
    store'.log.Sound ∧ store.log.Grows store'.log ∧ task'.Knows store' := by
  cases task with
  | call call time =>
    cases h
    exact ⟨hlog, .refl _, trivial⟩
  | emitting outbox time =>
    cases outbox with
    | nil => cases h
    | cons payload outbox =>
      obtain ⟨log, hbegin, hnext⟩ := map_eq_some_iff.mp h
      cases hnext
      obtain ⟨hlog', hgrows⟩ := hlog.begin hbegin
      exact ⟨hlog', hgrows, trivial⟩
  | stream subscriber =>
    obtain ⟨subscriber', hstep, hnext⟩ := map_eq_some_iff.mp h
    cases hnext
    obtain ⟨hsound, hreplays⟩ := hknows
    exact ⟨hlog, .refl _, fun hunlagged =>
      (hsound (Subscriber.unlagged_of_step hstep hunlagged)).step hlog hstep hunlagged,
      hreplays.step hstep⟩
  | pull puller =>
    obtain ⟨puller', hstep, hnext⟩ := map_eq_some_iff.mp h
    cases hnext
    exact ⟨hlog, .refl _, Puller.Sound.step hknows hlog hstep⟩

theorem watches_kept : Kept (fun store store' => ∃ choice, Store.proceed choice store = some store')
    Task.Fresh (fun task store task' store' => task.step store = some (task', store'))
    Store.Inv Task.Knows fun _ => 0 where
  ownInv store store' _ hlog := by
    rintro ⟨_, h⟩
    obtain ⟨log, hproceed, rfl⟩ := map_eq_some_iff.mp h
    exact (RunLog.Sound.proceed hlog hproceed).1
  ownKnows store store' task _ hlog := by
    rintro ⟨_, h⟩ hknows
    obtain ⟨log, hproceed, rfl⟩ := map_eq_some_iff.mp h
    obtain ⟨hlog', hgrows⟩ := RunLog.Sound.proceed hlog hproceed
    exact hknows.grows hlog hlog' hgrows
  freshInv store task _ hlog hfresh := by
    refine ⟨hlog, ?_⟩
    cases hfresh with
    | call => trivial
    | stream since => exact ⟨fun _ => Subscriber.streamFrom_sound since hlog, fun _ h => nomatch h⟩
    | pull since queries => exact Puller.pull_sound since queries hlog
  stepInv task store task' store' _ hlog hknows h := by
    obtain ⟨hlog', -, hknows'⟩ := Task.step_spec h hlog hknows
    exact ⟨hlog', hknows'⟩
  stepKnows task store task' store' other _ hlog hknows hother h := by
    obtain ⟨hlog', hgrows, -⟩ := Task.step_spec h hlog hknows
    exact hother.grows hlog hlog' hgrows

theorem Store.Opens.sound {store : Store} (h : store.Opens) : store.log.Sound := by
  rcases h with h | ⟨journal, hnumbered, h⟩
  · exact h ▸ RunLog.created_sound
  · exact h ▸ RunLog.restored_sound hnumbered

variable {c c' : Config Store Task}

theorem watches_holds (hopens : c.shared.Opens) (hthreads : c.threads = [])
    (hrun : ReflTransGen Watches c c') : Holds Store.Inv Task.Knows (fun _ => 0) c' :=
  watches_kept.run ⟨hopens.sound, by simp [hthreads]⟩ hrun

/-- The replay a task is in, and what it resumes from. -/
def Task.replaying : Task → Option (ℕ × Replay)
  | .stream subscriber => match subscriber.stage with
    | .replay replay => some (subscriber.since, replay)
    | _ => none
  | .pull puller => puller.asking.map fun replay => (puller.nextSince, replay)
  | _ => none

/-- What those who watch a run get of it: the order of its events, every replay, every stream that
was not told it lagged, and every chain of pages. -/
structure Watched (c : Config Store Task) : Prop where
  inOrder : c.shared.log.InOrder
  replays : ∀ task ∈ c.threads, ∀ since replay events, task.replaying = some (since, replay) →
    replay.step since c.shared.log = some (.inr events) →
    events = after RunEvent.seq since c.shared.log.journal
  streams : ∀ subscriber, .stream subscriber ∈ c.threads → subscriber.unlagged →
    subscriber.Delivers c.shared.log
  pages : ∀ puller, .pull puller ∈ c.threads → puller.Collects c.shared.log

/-- No stream waits beyond the outcome. -/
def Timed (c : Config Store Task) : Prop :=
  ∀ subscriber, .stream subscriber ∈ c.threads → subscriber.unlagged →
    subscriber.Idle c.shared.log → subscriber.Timely c.shared.log

/-- **Nothing is lost and nothing is repeated** in any run, however many produce and watch it: the
numbers are consecutive in the journal, the ring and the broadcast, every replay is exact, the
chained pages hold every metrics event once, and every stream that did not lag yields what it was
asked for, once and in order, up to a terminal event, and ends there, exactly as long as no stream
waits beyond the outcome. -/
theorem watched_iff_timed (hopens : c.shared.Opens) (hthreads : c.threads = [])
    (hrun : ReflTransGen Watches c c') : Watched c' ↔ Timed c' := by
  obtain ⟨hlog, hknows⟩ := watches_holds hopens hthreads hrun
  have hsound (subscriber : Subscriber) (hmem : .stream subscriber ∈ c'.threads)
      (hunlagged : subscriber.unlagged) : subscriber.Sound c'.shared.log :=
    (show Task.Knows (.stream subscriber) _ from hknows _ hmem).1 hunlagged
  constructor
  · intro hwatched subscriber hmem hunlagged hidle
    exact (hsound subscriber hmem hunlagged).timely hidle
      (hwatched.streams subscriber hmem hunlagged)
  · intro htimed
    refine ⟨RunLog.Sound.inOrder hlog, ?_, fun subscriber hmem hunlagged => ?_,
      fun puller hmem => Puller.Sound.collects (hknows _ hmem) hlog⟩
    · intro task hmem since replay events hreplaying hdone
      refine Replay.exact hlog ?_ hdone
      cases task with
      | call | emitting => cases hreplaying
      | pull puller =>
        obtain ⟨asking, hasking, hsame⟩ := Option.map_eq_some_iff.mp hreplaying
        cases hsame
        exact (show puller.Sound _ from hknows _ hmem).asking replay hasking
      | stream subscriber =>
        obtain ⟨-, hreplays⟩ : Task.Knows (.stream subscriber) _ := hknows _ hmem
        cases hstage : subscriber.stage <;> rw [Task.replaying, hstage] at hreplaying <;>
          cases hreplaying
        exact hreplays replay hstage
    · by_cases hidle : subscriber.Idle c'.shared.log
      · exact (hsound subscriber hmem hunlagged).delivers hlog (htimed _ hmem hunlagged hidle)
      · exact ⟨(hsound subscriber hmem hunlagged).inOrder hlog, fun h => absurd h hidle,
          fun h => absurd h hidle⟩

/-! ### Waiting beyond the outcome -/

theorem watches_of_play {moves : List (Move Unit Task)} (hfresh : ∀ task, .spawn task ∈ moves →
    task.Fresh) (h : play Store.proceed Task.step c moves = some c') : ReflTransGen Watches c c' :=
  run_of_play hfresh h

/-- A run that was just created. -/
def created : Config Store Task := ⟨⟨.new, .created⟩, []⟩

/-- A stream that resumes from `since` is opened first, and the outcome of the run is its first
event. -/
def streamThenOutcome (since : ℕ) : List (Move Unit Task) :=
  [.spawn (.call (.emit (.terminal .completed none)) 0), .spawn (.stream (.streamFrom since))] ++
    -- the stream subscribes, samples, replays from the journal and waits
    List.replicate 5 (.act 0) ++
    -- the event is numbered, appended, pushed and broadcast
    [.act 1, .act 1, .own (), .own (), .own (), .own (), .act 0]

theorem streamThenOutcome_fresh (since : ℕ) :
    ∀ task, .spawn task ∈ streamThenOutcome since → task.Fresh := by
  intro task hmem
  simp [streamThenOutcome] at hmem
  rcases hmem with rfl | rfl
  · exact .call _ _
  · exact .stream since

/-- A stream that resumes from the start gets the outcome and ends. -/
theorem outcome_watched : ∃ c, ReflTransGen Watches created c ∧ Watched c ∧
    ∃ subscriber, .stream subscriber ∈ c.threads ∧ subscriber.stage = .ended ∧
      subscriber.events = [⟨1, 0, .terminal .completed none⟩] := by
  have hplay : (play Store.proceed Task.step created (streamThenOutcome 0)).isSome := rfl
  have hrun := watches_of_play (streamThenOutcome_fresh 0) (Option.some_get hplay).symm
  refine ⟨_, hrun, (watched_iff_timed (.inl rfl) rfl hrun).mpr ?_,
    ⟨0, 1, false, 1, [.event ⟨1, 0, .terminal .completed none⟩], .ended⟩, List.mem_cons_self,
    rfl, rfl⟩
  intro subscriber hmem _ _
  obtain rfl : subscriber = ⟨0, 1, false, 1, [.event ⟨1, 0, .terminal .completed none⟩], .ended⟩ := by
    rcases List.mem_cons.mp hmem with h | h
    · cases h
      rfl
    · rcases List.mem_cons.mp h with h | h
      · cases h
      · cases h
  exact .inr fun _ => ⟨_, List.mem_cons_self, rfl, Nat.one_pos⟩

/-- **What waiting beyond the outcome does**: a stream that resumes from a number the run never
reaches drops the outcome unread, and waits for ever. -/
theorem beyond_not_watched : ¬∀ c, ReflTransGen Watches created c → Watched c := by
  intro hall
  have hplay : (play Store.proceed Task.step created (streamThenOutcome 5)).isSome := rfl
  have hwatched := hall _
    (watches_of_play (streamThenOutcome_fresh 5) (Option.some_get hplay).symm)
  have hended := (hwatched.streams ⟨5, 1, false, 5, [], .recv⟩ List.mem_cons_self rfl).ends
    ⟨rfl, rfl⟩ ⟨_, List.mem_cons_self, rfl⟩
  cases hended

end Retrograd.Server
