import Retrograd.Openai.Collect
import Retrograd.Logic.Except

/-!
# When a buffered answer is right

What the scheduler may send for one request is a **proper** stream. An answer is right when it has every
choice, or is an error where one did not end. The collection gives the right answer to exactly the
streams it can **infer** the choices from.
-/

namespace Retrograd.Openai

open Infer Logic List Option

variable {reader : Option (Bytes → ℕ)} {events seen : List Event} {n : ℕ}

/-! ### The contract and the answer -/

/-- What follows one event in a stream: nothing after an error, nothing about a completion after its
end. -/
def mayPrecede (earlier later : Event) : Prop :=
  match earlier with
  | .token _ => True
  | .done index _ _ _ => eventIndex later ≠ some index
  | .error _ => False

/-- A stream the scheduler may send for `n` completions, cut at any point. -/
structure Proper (n : ℕ) (events : List Event) : Prop where
  positive : 0 < n
  index (event : Event) (h : event ∈ events) (i : ℕ) (hi : eventIndex event = some i) : i < n
  order : events.Pairwise mayPrecede
  /-- An error is reported to a request that has not ended. -/
  error (h : events.any isError = true) : ∃ i < n, endOf events i = none

/-- Whether every completion ended with a reason other than being cancelled. -/
def allEnded (n : ℕ) (events : List Event) : Bool := (List.range n).all (endedWell events)

/-- Whether choice `i` stopped on the end of generation or a stop string. -/
def stopsOf (events : List Event) (i : ℕ) : Bool :=
  (endOf events i).any fun entry => decide (entry.1 = .eog) || decide (entry.1 = .stop)

def CollectError.isPanic : CollectError → Bool
  | .panic _ => true
  | _ => false

/-- The right answer to a stream: all the choices in index order when all of them ended, otherwise an
error. -/
def Answered (n : ℕ) (events : List Event) (result : Except CollectError (List Collected)) : Prop :=
  if allEnded n events then
    ∃ out, result = .ok out ∧ out.length = n ∧
      ∀ i choice, out[i]? = some choice →
        Holds events i choice ∧ choice.stopped = stopsOf events i
  else ∃ error, result = .error error ∧ error.isPanic = false

/-- The streams the choices can be inferred from: every token comes for a choice that a token opened, all
the choices of an answer are opened by one, and a stream that closes early has an error, says nothing,
or leaves a choice it speaks of without a token or without its end. -/
structure Inferable (n : ℕ) (events : List Event) : Prop where
  tokens (token : TokenEvent) (h : .token token ∈ events) : opened events token.index = true
  complete (h : allEnded n events = true) (i : ℕ) (hi : i < n) : opened events i = true
  cut (h : allEnded n events = false) (herror : events.any isError = false) :
    heard events 0 = false ∨
      ∃ i, heard events i = true ∧ (opened events i = false ∨ endedWell events i = false)

/-! ### A whole stream -/

variable {i : ℕ}

/-- What opened a choice stays what opened it. -/
theorem opened_append_of_heard {later : List Event} (h : heard seen i = true) :
    opened (seen ++ later) i = opened seen i := by
  obtain ⟨event, hmem, hreaches⟩ := List.any_eq_true.mp h
  obtain ⟨found, hfound⟩ := find?_isSome.mpr ⟨event, hmem, hreaches⟩ |> isSome_iff_exists.mp
  rw [opened, opened, find?_append, hfound]
  rfl

variable {gathering : Gathering}

/-- A token of a choice that was heard of without being opened has no entry to go to. -/
theorem Gathered.token_panic (h : Gathered seen gathering) (reader : Option (Bytes → ℕ))
    {token : TokenEvent} (hheard : Openai.heard seen token.index = true)
    (hopened : Openai.opened seen token.index = false) :
    gatherEvent reader gathering (.token token) = .error (.panic "resized just above") := by
  have hlt := (h.heard token.index).mpr hheard
  have hentry := h.opened token.index _ (getElem?_eq_getElem hlt)
  rw [hopened, isSome_eq_false_iff, isNone_iff_eq_none] at hentry
  have hgrown : (growTo gathering.choices (token.index + 1)
      (some { wantsLogprobs := token.sampledLogprob.isSome }))[token.index]? = some none := by
    rw [getElem?_growTo, if_pos hlt, getElem?_eq_getElem hlt, hentry]
  rw [gatherEvent, hgrown]
  rfl

/-- How reading a stream ends, after the events `seen`. -/
inductive Read (events : List Event) : Except CollectError Gathering → Prop
  | closed {gathering : Gathering} (h : Gathered events gathering)
      (herror : events.any isError = false)
      (htokens : ∀ token, .token token ∈ events → opened events token.index = true) :
      Read events (.ok gathering)
  | failed (error : InferError) (herror : events.any isError = true)
      (htokens : ∀ token, .token token ∈ events → opened events token.index = true) :
      Read events (.error (.infer error))
  | panicked (message : String) (token : TokenEvent) (hmem : .token token ∈ events)
      (hopened : opened events token.index = false) : Read events (.error (.panic message))

/-- One event more keeps what the tokens so far say. -/
private theorem tokens_snoc {event : Event}
    (htokens : ∀ token, .token token ∈ seen → opened seen token.index = true)
    (hevent : ∀ token, event = .token token → opened (seen ++ [event]) token.index = true) :
    ∀ token, .token token ∈ seen ++ [event] → opened (seen ++ [event]) token.index = true := by
  intro token hmem
  rcases mem_append.mp hmem with hseen | hlast
  · have hheard : heard seen token.index = true :=
      List.any_eq_true.mpr ⟨_, hseen, by simp [reaches_token]⟩
    rw [opened_append_of_heard hheard]
    exact htokens token hseen
  · exact hevent token (mem_singleton.mp hlast).symm

/-- Reading the rest of a stream: an error ends it, and so does a token whose choice was heard of
without a token. -/
theorem gather_read (h : Gathered seen gathering) (reader : Option (Bytes → ℕ))
    (horder : events.Pairwise mayPrecede) (hsafe : seen.any isError = false)
    (htokens : ∀ token, .token token ∈ seen → opened seen token.index = true) :
    Read (seen ++ events) (gather reader gathering events) := by
  induction events generalizing seen gathering with
  | nil =>
    rw [append_nil]
    exact .closed h hsafe htokens
  | cons event events ih =>
    obtain ⟨hafter, horder⟩ := pairwise_cons.mp horder
    have hsplit : seen ++ event :: events = (seen ++ [event]) ++ events := by simp
    -- An event that was gathered leaves the rest of the stream to the induction.
    have hgo {next : Gathering} (hevent : gatherEvent reader gathering event = .ok next)
        (hnext : Gathered (seen ++ [event]) next) (herror : isError event = false)
        (hopen : ∀ token, event = .token token → opened (seen ++ [event]) token.index = true) :
        Read (seen ++ event :: events) (gather reader gathering (event :: events)) := by
      rw [hsplit, gather, hevent]
      exact ih hnext horder (by simp [hsafe, herror]) (tokens_snoc htokens hopen)
    cases event with
    | token token =>
      by_cases hheard : heard seen token.index = true
      · by_cases hopened : opened seen token.index = true
        · obtain ⟨next, hevent, hnext⟩ := h.token reader fun _ => hopened
          refine hgo hevent hnext rfl fun token' heq => ?_
          obtain rfl := Event.token.inj heq
          rw [opened_append_of_heard hheard, hopened]
        · have hfalse : opened seen token.index = false := by simpa using hopened
          rw [gather, h.token_panic reader hheard hfalse]
          refine .panicked _ token (by simp) ?_
          rw [opened_append_of_heard hheard, hfalse]
      · obtain ⟨next, hevent, hnext⟩ := h.token reader fun hheard' => absurd hheard' hheard
        refine hgo hevent hnext rfl fun token' heq => ?_
        obtain rfl := Event.token.inj heq
        rw [opened_snoc, if_neg hheard]
        simp [reaches_token, isToken]
    | done index reason text cachedTokens =>
      obtain ⟨next, hevent, hnext⟩ := h.done reader index reason text cachedTokens
      exact hgo hevent hnext rfl fun token' heq => by cases heq
    | error error =>
      -- Nothing follows an error.
      have hnone : events = [] := eq_nil_iff_forall_not_mem.mpr fun later hlater =>
        hafter later hlater
      subst hnone
      refine .failed error (by simp [isError]) ?_
      exact tokens_snoc htokens fun token heq => by cases heq

/-! ### The choices of a closed stream -/

theorem finishChoice_ok {choice : Collected} {reason : FinishReason} (h : reason ≠ .cancelled) :
    finishChoice (some reason) (some choice) =
      .ok { choice with stopped := decide (reason = .eog) || decide (reason = .stop) } := by
  cases reason with
  | cancelled => exact absurd rfl h
  | _ => rfl

/-- A choice without an entry or without a good end is an error, and not the process's end. -/
theorem finishChoice_error {ended : Option FinishReason} {entry : Option Collected}
    (h : entry = none ∨ (ended.any fun reason => reason != .cancelled) = false) :
    ∃ message, finishChoice ended entry = .error (.internal message) := by
  cases entry with
  | none => exact ⟨_, rfl⟩
  | some choice =>
    have hended := h.resolve_left (by simp)
    cases ended with
    | none => exact ⟨_, rfl⟩
    | some reason =>
      cases reason with
      | cancelled => exact ⟨_, rfl⟩
      | _ => simp at hended

/-- A failing choice is never the process's end. -/
theorem finishChoice_isPanic {ended : Option FinishReason} {entry : Option Collected}
    {error : CollectError} (h : finishChoice ended entry = .error error) : error.isPanic = false := by
  cases entry with
  | none =>
    cases h
    rfl
  | some choice =>
    cases ended with
    | none =>
      cases h
      rfl
    | some reason =>
      cases reason with
      | cancelled =>
        cases h
        rfl
      | _ => cases h

/-- A choice that a token opened and that ended well is an entry of the answer. -/
theorem Gathered.finishChoice (h : Gathered events gathering) {entry : Option Collected}
    (hget : gathering.choices[i]? = some entry) (hopened : Openai.opened events i = true)
    (hended : endedWell events i = true) :
    ∃ choice, finishChoice gathering.ended[i]?.join entry = .ok choice ∧
      Holds events i choice ∧ choice.stopped = stopsOf events i := by
  obtain ⟨choice, rfl⟩ := isSome_iff_exists.mp ((h.opened i entry hget).trans hopened)
  obtain ⟨⟨reason, cached⟩, hend, hreason⟩ := (Option.any_eq_true ..).mp hended
  have hheld := h.holds i choice hget
  refine ⟨{ choice with stopped := decide (reason = .eog) || decide (reason = .stop) }, ?_,
    ⟨hheld.text, hheld.tokens, hheld.logprobs, hheld.cachedTokens⟩, ?_⟩
  · rw [h.ended i, hend]
    exact finishChoice_ok (by simpa using hreason)
  · rw [stopsOf, hend]
    rfl

/-- The choices that were all opened by a token and ended well are an answer. -/
theorem Gathered.finish (h : Gathered events gathering)
    (hall : ∀ i, Openai.heard events i = true → Openai.opened events i = true ∧ endedWell events i = true) :
    ∃ out, (gathering.choices.zipIdx.mapM fun (choice, index) =>
        Openai.finishChoice gathering.ended[index]?.join choice) = .ok out ∧
      out.length = gathering.choices.length ∧
      ∀ i choice, out[i]? = some choice →
        Holds events i choice ∧ choice.stopped = stopsOf events i := by
  have hentry (entry : Option Collected × ℕ) (hmem : entry ∈ gathering.choices.zipIdx) :
      ∃ choice, Openai.finishChoice gathering.ended[entry.2]?.join entry.1 = .ok choice ∧
        Holds events entry.2 choice ∧ choice.stopped = stopsOf events entry.2 := by
    have hget : gathering.choices[entry.2]? = some entry.1 := mem_zipIdx_iff_getElem?.mp hmem
    have hlt : entry.2 < gathering.choices.length := (List.getElem?_eq_some_iff.mp hget).1
    obtain ⟨hopened, hended⟩ := hall entry.2 ((h.heard _).mp hlt)
    exact h.finishChoice hget hopened hended
  obtain ⟨out, hout, hentries⟩ := mapM_ok hentry
  refine ⟨out, hout, ?_, fun i choice hchoice => ?_⟩
  · rw [← hentries.length_eq, length_zipIdx]
  · obtain ⟨entry, hget, hholds⟩ := forall₂_getElem? hentries hchoice
    rw [getElem?_zipIdx] at hget
    obtain ⟨_, _, rfl⟩ := map_eq_some_iff.mp hget
    simpa using hholds

/-- A choice without a token or without a good end makes the whole answer an error. -/
theorem Gathered.finish_error (h : Gathered events gathering)
    (hheard : Openai.heard events i = true)
    (hbad : Openai.opened events i = false ∨ endedWell events i = false) :
    ∃ error, (gathering.choices.zipIdx.mapM fun (choice, index) =>
      Openai.finishChoice gathering.ended[index]?.join choice) = .error error ∧
        error.isPanic = false := by
  have hlt := (h.heard i).mpr hheard
  have hget := getElem?_eq_getElem hlt
  obtain ⟨message, hfails⟩ : ∃ message, Openai.finishChoice gathering.ended[i]?.join
      gathering.choices[i] = .error (.internal message) := by
    refine finishChoice_error (hbad.imp (fun hopened => ?_) fun hended => ?_)
    · rw [← h.opened i _ hget, isSome_eq_false_iff, isNone_iff_eq_none] at hopened
      exact hopened
    · rw [h.ended i, Option.any_map]
      exact hended
  cases hout : gathering.choices.zipIdx.mapM fun (choice, index) =>
      Openai.finishChoice gathering.ended[index]?.join choice with
  | error error =>
    obtain ⟨entry, _, herror⟩ := error_of_mapM hout
    exact ⟨error, rfl, finishChoice_isPanic herror⟩
  | ok out =>
    -- The failing choice is in the list.
    exfalso
    have hmem : (gathering.choices[i], i) ∈ gathering.choices.zipIdx :=
      mem_zipIdx_iff_getElem?.mpr hget
    obtain ⟨choice, hok⟩ := ok_of_mem_mapM hout hmem
    cases hfails.symm.trans hok

/-! ### The answer to a proper stream -/

theorem Proper.heard_lt (h : Proper n events) (hheard : heard events i = true) : i < n := by
  obtain ⟨event, hmem, hreaches⟩ := List.any_eq_true.mp hheard
  obtain ⟨index, hindex, hle⟩ := (Option.any_eq_true ..).mp hreaches
  exact lt_of_le_of_lt (of_decide_eq_true hle) (h.index event hmem index hindex)

/-- A choice that ended was heard of. -/
theorem heard_of_endedWell (h : endedWell events i = true) : heard events i = true := by
  by_contra hheard
  have hunheard : heard events i = false := by simpa using hheard
  obtain ⟨entry, hend, _⟩ := (Option.any_eq_true ..).mp h
  rw [endOf_of_unheard hunheard] at hend
  cases hend

theorem allEnded_iff : allEnded n events = true ↔ ∀ i < n, endedWell events i = true := by
  simp [allEnded]

/-- An error is never the end of a stream whose completions all ended. -/
theorem Proper.isError_of_allEnded (h : Proper n events) (hall : allEnded n events = true) :
    events.any isError = false := by
  by_contra herror
  obtain ⟨i, hi, hend⟩ := h.error (by simpa using herror)
  have hended := allEnded_iff.mp hall i hi
  rw [endedWell, hend] at hended
  cases hended

/-- Once the stream closes, its choices are finished in turn. -/
theorem collect_of_gather (h : gather reader {} events = .ok gathering) : collect reader events =
      (gathering.choices.zipIdx.mapM (fun (choice, index) =>
        finishChoice gathering.ended[index]?.join choice) >>= fun out =>
          if out.isEmpty then .error stoppedBefore else .ok out) := by
  rw [collect, h]
  rfl

/-- A stream whose reading fails has no choices. -/
theorem collect_of_error {error : CollectError} (h : gather reader {} events = .error error) :
    collect reader events = .error error := by
  rw [collect, h]
  rfl

/-- The answer to a closed stream is every choice heard of, when all of them were opened by a token and
ended well. -/
theorem collect_ok (h : Gathered events gathering)
    (hgather : gather reader {} events = .ok gathering) (hsome : heard events 0 = true)
    (hall : ∀ i, heard events i = true → opened events i = true ∧ endedWell events i = true) :
    ∃ out, collect reader events = .ok out ∧ out.length = gathering.choices.length ∧
      ∀ i choice, out[i]? = some choice →
        Holds events i choice ∧ choice.stopped = stopsOf events i := by
  obtain ⟨out, hout, hlength, hentries⟩ := h.finish hall
  have hpos : 0 < out.length := hlength ▸ (h.heard 0).mpr hsome
  have hne : out.isEmpty = false := by simpa [List.isEmpty_iff] using ne_nil_of_length_pos hpos
  refine ⟨out, ?_, hlength, hentries⟩
  rw [collect_of_gather hgather, hout]
  change (if out.isEmpty = true then _ else _) = _
  rw [hne]
  rfl

/-- Otherwise it is an error. -/
theorem collect_error (h : Gathered events gathering)
    (hgather : gather reader {} events = .ok gathering)
    (hbad : heard events 0 = false ∨ ∃ i, heard events i = true ∧ (opened events i = false ∨ endedWell events i = false)) :
    ∃ error, collect reader events = .error error ∧ error.isPanic = false := by
  rw [collect_of_gather hgather]
  rcases hbad with hnothing | ⟨i, hheard, hbad⟩
  · have hempty : gathering.choices = [] :=
      eq_nil_of_length_eq_zero (Nat.le_zero.mp ((h.heard_iff 0).mp hnothing))
    rw [hempty]
    exact ⟨stoppedBefore, rfl, rfl⟩
  · obtain ⟨error, herror, hpanic⟩ := h.finish_error hheard hbad
    rw [herror]
    exact ⟨error, rfl, hpanic⟩

/-- **What the collection answers**: to a proper stream it gives every choice or an error, exactly when
the choices can be inferred from the stream. -/
theorem collect_answers (reader : Option (Bytes → ℕ)) (h : Proper n events) :
    Answered n events (collect reader events) ↔ Inferable n events := by
  have hread : Read events (gather reader {} events) :=
    gather_read Gathered.start reader h.order rfl (by simp)
  generalize hgather : gather reader {} events = result at hread
  cases hread with
  | panicked message token hmem hopened =>
    -- The process ends, which is no answer.
    have hcollect := collect_of_error hgather
    refine iff_of_false (fun hanswer => ?_) fun hinfer => ?_
    · rw [Answered, hcollect] at hanswer
      split_ifs at hanswer
      · obtain ⟨out, hout, _⟩ := hanswer
        cases hout
      · obtain ⟨error, herror, hpanic⟩ := hanswer
        cases herror
        cases hpanic
    · rw [hinfer.tokens token hmem] at hopened
      cases hopened
  | failed error herror htokens =>
    have hcollect := collect_of_error hgather
    have hended : ¬ allEnded n events = true := fun hall => by
      rw [h.isError_of_allEnded hall] at herror
      cases herror
    refine iff_of_true ?_ ⟨htokens, fun hall => absurd hall hended, fun _ hnone => ?_⟩
    · rw [Answered, if_neg hended, hcollect]
      exact ⟨_, rfl, rfl⟩
    · rw [herror] at hnone
      cases hnone
  | @closed gathering hgathered herror htokens =>
    by_cases hbad : heard events 0 = false ∨
        ∃ i, heard events i = true ∧ (opened events i = false ∨ endedWell events i = false)
    · -- An error is right unless all the completions ended.
      obtain ⟨error, hcollect, hpanic⟩ := collect_error hgathered hgather hbad
      by_cases hended : allEnded n events = true
      · refine iff_of_false (fun hanswer => ?_) fun hinfer => ?_
        · rw [Answered, if_pos hended, hcollect] at hanswer
          obtain ⟨out, hout, _⟩ := hanswer
          cases hout
        · have hwell := allEnded_iff.mp hended
          rcases hbad with hnothing | ⟨i, hheard, hbad⟩
          · rw [heard_of_endedWell (hwell 0 h.positive)] at hnothing
            cases hnothing
          · have hi := h.heard_lt hheard
            rw [hinfer.complete hended i hi, hwell i hi] at hbad
            simp at hbad
      · refine iff_of_true ?_ ⟨htokens, fun hall => absurd hall hended, fun _ _ => hbad⟩
        rw [Answered, if_neg hended, hcollect]
        exact ⟨error, rfl, hpanic⟩
    · -- Every choice heard of is answered; they are all of them when all ended.
      have hsome : heard events 0 = true := by
        by_contra hnone
        exact hbad (.inl (by simpa using hnone))
      have hall (i : ℕ) (hheard : heard events i = true) :
          opened events i = true ∧ endedWell events i = true := by
        by_contra hnot
        refine hbad (.inr ⟨i, hheard, ?_⟩)
        rw [not_and_or] at hnot
        exact hnot.imp (by simp) (by simp)
      obtain ⟨out, hcollect, hlength, hentries⟩ := collect_ok hgathered hgather hsome hall
      by_cases hended : allEnded n events = true
      · have hwell := allEnded_iff.mp hended
        have hopened (i : ℕ) (hi : i < n) := (hall i (heard_of_endedWell (hwell i hi))).1
        refine iff_of_true ?_ ⟨htokens, fun _ => hopened, fun hcut => ?_⟩
        · rw [Answered, if_pos hended]
          refine ⟨out, hcollect, hlength.trans (le_antisymm ?_ ?_), hentries⟩
          · by_contra hmore
            exact absurd (h.heard_lt ((hgathered.heard n).mp (not_le.mp hmore))) (lt_irrefl n)
          · obtain ⟨last, rfl⟩ := Nat.exists_eq_succ_of_ne_zero h.positive.ne'
            exact (hgathered.heard last).mpr (heard_of_endedWell (hwell last (Nat.lt_succ_self _)))
        · rw [hended] at hcut
          cases hcut
      · refine iff_of_false (fun hanswer => ?_) fun hinfer => ?_
        · rw [Answered, if_neg hended, hcollect] at hanswer
          obtain ⟨error, herror, _⟩ := hanswer
          cases herror
        · exact hbad (hinfer.cut (by simpa using hended) herror)

/-- A first token of the first completion. -/
def firstToken : TokenEvent where
  index := 0
  token := 5
  logprob := ⟨0⟩
  sampledLogprob := none
  forced := false
  text := [104, 105]
  piece := [104, 105]
  topLogprobs := []

/-- The stream of a request for two completions that closes after the first one ended. -/
def oneOfTwo : List Event := [.token firstToken, .done 0 .eog [] 0]

theorem oneOfTwo_proper : Proper 2 oneOfTwo where
  positive := by decide
  index event hmem i hi := by
    simp only [oneOfTwo, mem_cons, not_mem_nil, or_false] at hmem
    rcases hmem with rfl | rfl
    all_goals
      cases hi
      decide
  order := by simp [oneOfTwo, mayPrecede]
  error h := by cases h

theorem collect_answers_oneOfTwo :
    Answered 2 oneOfTwo (collect none oneOfTwo) ↔ Inferable 2 oneOfTwo :=
  collect_answers none oneOfTwo_proper

/-- A choice that never came is not missed: one of two choices is a whole answer. -/
theorem collect_incomplete : Proper 2 oneOfTwo ∧ ¬ Answered 2 oneOfTwo (collect none oneOfTwo) ∧
    ∃ choice, collect none oneOfTwo = .ok [choice] := by
  have hcollect : ∃ choice, collect none oneOfTwo = .ok [choice] := ⟨_, rfl⟩
  refine ⟨oneOfTwo_proper, fun hanswer => ?_, hcollect⟩
  obtain ⟨choice, hcollect⟩ := hcollect
  rw [Answered, hcollect, if_neg (by decide)] at hanswer
  obtain ⟨error, herror, _⟩ := hanswer
  cases herror

/-- A choice that ends before an earlier one is opened costs the earlier one its entry: its first token
ends the process. -/
example : collect none [.done 1 .eog [] 0, .token firstToken] =
    .error (.panic "resized just above") := rfl

end Retrograd.Openai
