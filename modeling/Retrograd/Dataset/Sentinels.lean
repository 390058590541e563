import Retrograd.Logic.Except
import Retrograd.Logic.Occurs
import Retrograd.Dataset.Template

/-!
# Cutting around the sentinels

A rendering is cut around the sentinels its turns were handed over as. No end of a sentinel is a
beginning of another, so occurrences never overlap, and the cut succeeds **exactly when** every
sentinel stands in the text once and they stand in the order of the turns; the pieces and the
sentinels are then the text again.
-/

namespace Retrograd.Dataset

open Logic Agent List Option

variable {pattern text : List Char}

/-! ### The first occurrence -/

theorem splitFirst_cons (c : Char) (rest : List Char) : splitFirst pattern (c :: rest) =
    if OccursAt pattern (c :: rest) 0 then some ([], (c :: rest).drop pattern.length)
    else (splitFirst pattern rest).map fun (front, back) => (c :: front, back) := by
  rw [splitFirst]
  simp only [OccursAt, drop_zero, isPrefixOf_iff_prefix]

/-- Nothing is found exactly where nothing stands. -/
theorem splitFirst_eq_none (hne : pattern ≠ []) :
    splitFirst pattern text = none ↔ ∀ n, ¬ OccursAt pattern text n := by
  induction text with
  | nil =>
    rw [splitFirst, if_neg (by simpa using hne)]
    refine ⟨fun _ n h => hne ?_, fun _ => rfl⟩
    rwa [OccursAt, drop_nil, prefix_nil] at h
  | cons c rest ih =>
    rw [splitFirst_cons]
    by_cases h : OccursAt pattern (c :: rest) 0
    · rw [if_pos h]
      exact ⟨fun hnone => (some_ne_none _ hnone).elim, fun hall => absurd h (hall 0)⟩
    · rw [if_neg h, map_eq_none_iff, ih]
      refine ⟨fun hall n => ?_, fun hall n => hall (n + 1)⟩
      cases n with
      | zero => exact h
      | succ n => exact hall n

/-- What is found is the first occurrence. -/
theorem splitFirst_eq_some (hne : pattern ≠ []) {p : ℕ} (h : OccursAt pattern text p)
    (hfirst : ∀ m < p, ¬ OccursAt pattern text m) :
    splitFirst pattern text = some (text.take p, text.drop (p + pattern.length)) := by
  induction text generalizing p with
  | nil =>
    rw [OccursAt, drop_nil, prefix_nil] at h
    exact absurd h hne
  | cons c rest ih =>
    rw [splitFirst_cons]
    cases p with
    | zero => rw [if_pos h, Nat.zero_add, take_zero]
    | succ p =>
      rw [if_neg (hfirst 0 p.succ_pos), ih h fun m hm => hfirst (m + 1) (Nat.succ_lt_succ hm),
        map_some, take_succ_cons, Nat.succ_add, drop_succ_cons]

/-- A pattern that stands in a text once is found in what follows `o` when it stands there. -/
theorem splitFirst_drop (hne : pattern ≠ []) {p : ℕ} (h : OccursOnlyAt pattern text p) (o : ℕ) :
    splitFirst pattern (text.drop o) = if o ≤ p then
      some ((text.drop o).take (p - o), text.drop (p + pattern.length)) else none := by
  split_ifs with ho
  · obtain ⟨k, rfl⟩ := Nat.exists_eq_add_of_le ho
    have hfound : OccursAt pattern (text.drop o) k := occursAt_drop.mpr ((h _).mpr rfl)
    rw [splitFirst_eq_some hne hfound, drop_drop, Nat.add_sub_cancel_left, Nat.add_assoc]
    intro m hm hoccurs
    have heq := (h _).mp (occursAt_drop.mp hoccurs)
    omega
  · rw [splitFirst_eq_none hne]
    intro n hoccurs
    have heq := (h _).mp (occursAt_drop.mp hoccurs)
    omega

/-! ### Counting -/

theorem countMatches_eq_zero (hne : pattern ≠ []) {fuel : ℕ} (hfuel : 0 < fuel) :
    countMatches pattern fuel text = 0 ↔ ∀ n, ¬ OccursAt pattern text n := by
  obtain ⟨fuel, rfl⟩ := Nat.exists_eq_succ_of_ne_zero hfuel.ne'
  rw [← splitFirst_eq_none hne, countMatches]
  cases splitFirst pattern text with
  | none => simp
  | some found => simp

/-- A pattern that does not overlap itself is counted once when it stands at one position. -/
theorem countMatches_eq_one (hne : pattern ≠ []) (hself : Apart pattern pattern) {fuel : ℕ}
    (hfuel : text.length < fuel) :
    countMatches pattern fuel text = 1 ↔ ∃ p, OccursOnlyAt pattern text p := by
  obtain ⟨fuel, rfl⟩ := Nat.exists_eq_succ_of_ne_zero (Nat.ne_zero_of_lt hfuel)
  have hpos := length_pos_iff.mpr hne
  rw [countMatches]
  by_cases h : ∃ n, OccursAt pattern text n
  · have hfound := Nat.find_spec h
    have hfirst (m : ℕ) (hm : m < Nat.find h) : ¬ OccursAt pattern text m := Nat.find_min h hm
    generalize Nat.find h = p at hfound hfirst
    have hlength := (hfound.split hne).2
    rw [splitFirst_eq_some hne hfound hfirst]
    dsimp only
    rw [Nat.add_eq_right, countMatches_eq_zero hne (by omega)]
    constructor
    · refine fun hrest => ⟨p, fun m => ⟨fun hm => ?_, fun hm => hm ▸ hfound⟩⟩
      -- an occurrence behind the first one is behind its end
      by_contra hmp
      have hlt : p < m := Nat.lt_of_le_of_ne (Nat.not_lt.mp fun hlt => hfirst m hlt hm) (Ne.symm hmp)
      obtain ⟨k, rfl⟩ := Nat.exists_eq_add_of_le (hself.le hfound hm hlt)
      exact hrest k (occursAt_drop.mpr hm)
    · rintro ⟨q, hq⟩ n hn
      have hagain := (hq _).mp (occursAt_drop.mp hn)
      have hsame := (hq p).mp hfound
      omega
  · rw [(splitFirst_eq_none hne).mpr (not_exists.mp h)]
    exact ⟨nofun, fun ⟨p, hp⟩ => absurd ⟨p, (hp p).mpr rfl⟩ h⟩

/-! ### The sentinels -/

/-- How every sentinel begins. -/
def ret : List Char := ['r', 'e', 't']

theorem digits_toString (n : ℕ) : 'r' ∉ (toString n).toList := by
  intro h
  have hdigit := Nat.isDigit_of_mem_toDigits (b := 10) (by decide) (by decide)
    (show 'r' ∈ Nat.toDigits 10 n by simpa [Nat.repr] using h)
  exact absurd hdigit (by decide)

/-- No end of a text that begins with `front` and has no `r` behind it agrees with a beginning
that reads `ret`, when none of the ends of `front` does. -/
theorem apart_of_front {front rest s : List Char}
    (hfront : ∀ f ∈ front.tails, f = [] ∨ f = front ∨ ¬ (f <+: ret ∨ ret <+: f))
    (hrest : 'r' ∉ rest) (hs : ret <+: s) : Apart (front ++ rest) s := by
  intro u hne hproper hsuffix hagree
  obtain ⟨before, hu⟩ := hsuffix
  have hret : u <+: ret ∨ ret <+: u :=
    hagree.elim ( prefix_or_prefix_of_prefix · hs) fun h => .inr (hs.trans h)
  -- an end of the rest does not begin with an `r`
  have hbehind : ¬ u <:+ rest := by
    rintro ⟨before, rfl⟩
    cases u with
    | nil => exact hne rfl
    | cons c u =>
      have hc : c = 'r' := by
        rcases hret with h | h
        · exact (cons_prefix_cons.mp h).1
        · exact (cons_prefix_cons.mp h).1.symm
      exact hrest (by simp [hc])
  rcases append_eq_append_iff.mp hu with ⟨f, hf, rfl⟩ | ⟨f, -, hf⟩
  · have hmem : f ∈ front.tails := (mem_tails _ _).mpr (hf ▸ suffix_append before f)
    rcases hfront f hmem with rfl | rfl | hnot
    · exact hbehind (suffix_refl _)
    · exact hproper rfl
    · refine hnot (hret.elim (fun h => .inl ((prefix_append f rest).trans h)) fun h => ?_)
      exact prefix_or_prefix_of_prefix (prefix_append f rest) h
  · exact hbehind (hf ▸ suffix_append f u)

/-- The texts a turn is handed over as. -/
def TurnSentinels.texts (turn : TurnSentinels) : List (List Char) :=
  turn.parts.map fun part => part.2.toList

/-- A text of which no end agrees with the beginning of a sentinel. -/
structure Sentinel (s : List Char) : Prop where
  front : ret <+: s
  apart : ∀ {s'}, ret <+: s' → Apart s s'

variable {s : List Char}

theorem Sentinel.ne_nil (h : Sentinel s) : s ≠ [] := by
  rintro rfl
  exact absurd (prefix_nil.mp h.front) (by decide)

theorem toList_assistantSpan (index : ℕ) : (assistantSpan index).toList =
    "retro_span_".toList ++ ((toString index).toList ++ "_9d41c7".toList) := by
  show ("retro_span_" ++ toString index ++ "_9d41c7" : String).toList = _
  rw [String.toList_append, String.toList_append, append_assoc]

theorem toList_reasoningSpan (index : ℕ) : (reasoningSpan index).toList =
    "retro_reasoning_".toList ++ ((toString index).toList ++ "_9d41c7".toList) := by
  show ("retro_reasoning_" ++ toString index ++ "_9d41c7" : String).toList = _
  rw [String.toList_append, String.toList_append, append_assoc]

theorem rest_unmarked (index : ℕ) : 'r' ∉ (toString index).toList ++ "_9d41c7".toList := by
  rw [mem_append, not_or]
  exact ⟨digits_toString index, by decide⟩

theorem sentinel_assistantSpan (index : ℕ) : Sentinel (assistantSpan index).toList := by
  rw [toList_assistantSpan]
  exact ⟨by exact ⟨_, rfl⟩, apart_of_front (by decide) (rest_unmarked index)⟩

theorem sentinel_reasoningSpan (index : ℕ) : Sentinel (reasoningSpan index).toList := by
  rw [toList_reasoningSpan]
  exact ⟨by exact ⟨_, rfl⟩, apart_of_front (by decide) (rest_unmarked index)⟩

/-- What a turn is handed over as: two sentinels that are never one text. -/
structure TurnSentinels.Good (turn : TurnSentinels) : Prop where
  content : Sentinel turn.content.toList
  reasoning : ∀ {reasoning}, turn.reasoning = some reasoning → Sentinel reasoning.toList ∧
    ¬ (reasoning.toList <+: turn.content.toList ∨ turn.content.toList <+: reasoning.toList)

theorem spans_differ (index : ℕ) :
    ¬ ((reasoningSpan index).toList <+: (assistantSpan index).toList ∨
      (assistantSpan index).toList <+: (reasoningSpan index).toList) := by
  rw [toList_assistantSpan, toList_reasoningSpan]
  simp

/-- The sentinels a conversation is handed over with. -/
theorem good_serializeFrom (assistant : ℕ) (messages : List TemplateMessage) :
    ∀ turn ∈ (serializeFrom .none assistant messages).2, turn.Good := by
  induction messages generalizing assistant with
  | nil => exact nofun
  | cons message messages ih =>
    intro turn hturn
    rw [serializeFrom] at hturn
    rcases mem_append.mp hturn with hfirst | hrest
    · rw [mem_toList, serializeMessage] at hfirst
      dsimp only [Reveal.reveals] at hfirst
      split_ifs at hfirst with hrole
      obtain rfl := mem_some_iff.mp hfirst
      refine ⟨sentinel_assistantSpan _, fun h => ?_⟩
      obtain ⟨-, -, rfl⟩ := map_eq_some_iff.mp h
      exact ⟨sentinel_reasoningSpan _, spans_differ _⟩
    · exact ih _ turn hrest

/-! ### The cut -/

/-- The patterns stand in a text once each, in order. -/
def OnceInOrder (text : List Char) (patterns : List (List Char)) : Prop :=
  ∃ positions : List ℕ, patterns.Forall₂ (OccursOnlyAt · text ·) positions ∧
    positions.Pairwise (· < ·)

/-- The pieces of a text with the sentinels between them. -/
def interleave : List TurnPieces → List TurnSentinels → String → String
  | piece :: pieces, turn :: turns, tail =>
    piece.pre ++ ((turn.reasoning.map fun reasoning => reasoning ++ piece.mid.getD "").getD "")
      ++ turn.content ++ interleave pieces turns tail
  | _, _, tail => tail

/-- Behind one sentinel is behind its end, for every other one. -/
theorem le_iff_lt {s s' : List Char} (hs : Sentinel s) (hs' : Sentinel s') {p p' : ℕ}
    (h : OccursOnlyAt s text p) (h' : OccursOnlyAt s' text p') : p + s.length ≤ p' ↔ p < p' := by
  have hpos := length_pos_iff.mpr hs.ne_nil
  exact ⟨fun hle => by omega, (hs.apart hs'.front).le ((h p).mpr rfl) ((h' p').mpr rfl)⟩

theorem length_take_drop (hs : s ≠ []) {o p : ℕ} (h : OccursOnlyAt s text p) :
    ((text.drop o).take (p - o)).length = p - o := by
  have hlength := (OccursAt.split ((h p).mpr rfl) hs).2
  rw [length_take, length_drop]
  omega

/-- The cut around a turn without reasoning. -/
theorem cutTurns_content {turns turn o p : ℕ} {first : TurnSentinels} {more : List TurnSentinels}
    (hgood : first.Good) (hreasoning : first.reasoning = none)
    (h : OccursOnlyAt first.content.toList text p) :
    cutTurns turns turn (first :: more) (text.drop o) =
      if o ≤ p then do
        let framing ← cutTurns turns (turn + 1) more (text.drop (p + first.content.toList.length))
        .ok ⟨⟨String.ofList ((text.drop o).take (p - o)), none⟩ :: framing.turns, framing.tail⟩
      else .error (.droppedTurn turn turns) := by
  rw [cutTurns, splitFirst_drop hgood.content.ne_nil h]
  split_ifs with ho
  · rw [hreasoning]
    rfl
  · rfl

/-- The cut around a turn with reasoning. -/
theorem cutTurns_reasoning {turns turn o p q : ℕ} {first : TurnSentinels} {reasoning : String}
    {more : List TurnSentinels} (hgood : first.Good) (hreasoning : first.reasoning = some reasoning)
    (h : OccursOnlyAt first.content.toList text p) (hq : OccursOnlyAt reasoning.toList text q) :
    cutTurns turns turn (first :: more) (text.drop o) =
      if o ≤ q ∧ q < p then do
        let framing ← cutTurns turns (turn + 1) more (text.drop (p + first.content.toList.length))
        .ok ⟨⟨String.ofList ((text.drop o).take (q - o)), some (String.ofList
          ((text.drop (q + reasoning.toList.length)).take (p - (q + reasoning.toList.length))))⟩
            :: framing.turns, framing.tail⟩
      else if o ≤ p ∧ o ≤ q then .error (.reasoningAfterContent turn)
      else .error (.droppedTurn turn turns) := by
  obtain ⟨hsentinel, hdiffer⟩ := hgood.reasoning hreasoning
  have hne : q ≠ p := by
    rintro rfl
    exact hdiffer ( prefix_or_prefix_of_prefix ((hq q).mpr rfl) ((h q).mpr rfl))
  rw [cutTurns, splitFirst_drop hgood.content.ne_nil h]
  by_cases ho : o ≤ p
  · rw [if_pos ho, hreasoning]
    dsimp only
    rw [splitFirst_drop hsentinel.ne_nil hq]
    by_cases hoq : o ≤ q
    · rw [if_pos hoq]
      dsimp only
      rw [length_take_drop hgood.content.ne_nil h, length_take_drop hsentinel.ne_nil hq]
      by_cases hlt : q < p
      · rw [if_neg (by omega), if_pos ⟨hoq, hlt⟩, drop_take, drop_drop,
          ← String.length_toList, show o + (q - o + reasoning.toList.length) =
            q + reasoning.toList.length by omega,
          show p - o - (q - o + reasoning.toList.length) = p - (q + reasoning.toList.length) by omega]
        rfl
      · rw [if_pos (by omega), if_neg (fun hboth => hlt hboth.2), if_pos ⟨ho, hoq⟩]
        rfl
    · rw [if_neg hoq, if_neg (fun hboth => hoq hboth.1), if_neg (fun hboth => hoq hboth.2)]
      rfl
  · rw [if_neg ho, if_neg (fun hboth => ho (hboth.1.trans hboth.2.le)), if_neg (fun hboth => ho hboth.1)]

variable {positions : List ℕ}

theorem behind_iff {p : ℕ} {patterns : List (List Char)} (hs : Sentinel s)
    (h : OccursOnlyAt s text p) (hpatterns : ∀ s ∈ patterns, Sentinel s)
    (hall : patterns.Forall₂ (OccursOnlyAt · text ·) positions) :
    (∀ p' ∈ positions, p + s.length ≤ p') ↔ ∀ p' ∈ positions, p < p' := by
  induction hall with
  | nil => exact ⟨fun _ => nofun, fun _ => nofun⟩
  | cons hfirst hrest ih =>
    rw [forall_mem_cons] at hpatterns
    rw [forall_mem_cons, forall_mem_cons, le_iff_lt hs hpatterns.1 h hfirst,
      ih hpatterns.2]

theorem ok_bind_iff {ε α β : Type} {x : Except ε α} {f : α → β} :
    (∃ b, (x >>= fun a => .ok (f a)) = Except.ok b) ↔ ∃ a, x = .ok a := by
  cases x with
  | error e => exact ⟨nofun, nofun⟩
  | ok a => exact ⟨fun _ => ⟨a, rfl⟩, fun _ => ⟨f a, rfl⟩⟩

theorem TurnSentinels.Good.sentinel {turn : TurnSentinels} (hgood : turn.Good)
    (hs : s ∈ turn.texts) : Sentinel s := by
  cases hreasoning : turn.reasoning with
  | none =>
    simp only [texts, parts, hreasoning, map_none, toList_none, nil_append,
      map_cons, map_nil, mem_singleton] at hs
    exact hs ▸ hgood.content
  | some reasoning =>
    simp only [texts, parts, hreasoning, map_some, toList_some, cons_append,
      nil_append, map_cons, map_nil, mem_cons, not_mem_nil, or_false] at hs
    rcases hs with rfl | rfl
    · exact (hgood.reasoning hreasoning).1
    · exact hgood.content

variable {sentinels : List TurnSentinels}

/-- The cut succeeds exactly when the sentinels that are left stand in order behind `o`. -/
theorem cutTurns_ok_iff {turns turn o : ℕ} (hgood : ∀ turn ∈ sentinels, turn.Good)
    (hall : (sentinels.flatMap TurnSentinels.texts).Forall₂ (OccursOnlyAt · text ·) positions) :
    (∃ framing, cutTurns turns turn sentinels (text.drop o) = .ok framing) ↔
      (∀ p ∈ positions, o ≤ p) ∧ positions.Pairwise (· < ·) := by
  induction sentinels generalizing turn o positions with
  | nil =>
    cases hall
    exact ⟨fun _ => ⟨nofun, .nil⟩, fun _ => ⟨_, rfl⟩⟩
  | cons first more ih =>
    rw [forall_mem_cons] at hgood
    have hmore : ∀ s ∈ more.flatMap TurnSentinels.texts, Sentinel s := by
      intro s hs
      obtain ⟨turn, hturn, hs⟩ := mem_flatMap.mp hs
      exact (hgood.2 turn hturn).sentinel hs
    cases hreasoning : first.reasoning with
    | none =>
      have htexts : first.texts = [first.content.toList] := by
        rw [TurnSentinels.texts, TurnSentinels.parts, hreasoning]
        rfl
      rw [flatMap_cons, htexts] at hall
      cases hall with
      | @cons _ p _ positions h hrest =>
      have hbehind := behind_iff hgood.1.content h hmore hrest
      rw [cutTurns_content hgood.1 hreasoning h, forall_mem_cons, pairwise_cons, ← hbehind]
      split_ifs with ho
      · rw [ok_bind_iff, ih hgood.2 hrest]
        exact ⟨fun hchain => ⟨⟨ho, fun p' hp' => by have := hchain.1 p' hp'; omega⟩, hchain⟩,
          fun hchain => hchain.2⟩
      · exact ⟨nofun, fun hchain => absurd hchain.1.1 ho⟩
    | some reasoning =>
      have htexts : first.texts = [reasoning.toList, first.content.toList] := by
        rw [TurnSentinels.texts, TurnSentinels.parts, hreasoning]
        rfl
      rw [flatMap_cons, htexts] at hall
      cases hall with
      | @cons _ q _ _ hq hrest =>
      cases hrest with
      | @cons _ p _ positions h hrest =>
      have hbehind := behind_iff hgood.1.content h hmore hrest
      rw [cutTurns_reasoning hgood.1 hreasoning h hq, forall_mem_cons, forall_mem_cons,
        pairwise_cons, pairwise_cons, forall_mem_cons, ← hbehind]
      split_ifs with hfirst hlast
      · rw [ok_bind_iff, ih hgood.2 hrest]
        constructor
        · refine fun hchain => ⟨⟨hfirst.1, hfirst.1.trans hfirst.2.le, fun p' hp' => ?_⟩,
            ⟨hfirst.2, fun p' hp' => ?_⟩, hchain⟩
          all_goals
            have hle := hchain.1 p' hp'
            omega
        · exact fun hchain => hchain.2.2
      · exact ⟨nofun, fun hchain => absurd ⟨hchain.1.1, hchain.2.1.1⟩ hfirst⟩
      · exact ⟨nofun, fun hchain => absurd ⟨hchain.1.1, hchain.2.1.1⟩ hfirst⟩

theorem split_drop (hs : s ≠ []) {o p : ℕ} (h : OccursOnlyAt s text p) (ho : o ≤ p) :
    text.drop o = (text.drop o).take (p - o) ++ (s ++ text.drop (p + s.length)) := by
  have hat : OccursAt s (text.drop o) (p - o) :=
    occursAt_drop.mpr ((h _).mpr (Nat.add_sub_of_le ho))
  have hsplit := (hat.split hs).1
  rwa [drop_drop, ← Nat.add_assoc, Nat.add_sub_of_le ho, append_assoc] at hsplit

/-- The pieces of a cut and the sentinels are the text that was cut. -/
theorem interleave_cutTurns {turns turn o : ℕ} {framing : Framing}
    (hgood : ∀ turn ∈ sentinels, turn.Good)
    (hall : (sentinels.flatMap TurnSentinels.texts).Forall₂ (OccursOnlyAt · text ·) positions)
    (h : cutTurns turns turn sentinels (text.drop o) = .ok framing) :
    (interleave framing.turns sentinels framing.tail).toList = text.drop o ∧
      framing.turns.map (·.mid.isSome) = sentinels.map (·.reasoning.isSome) := by
  induction sentinels generalizing turn o positions framing with
  | nil =>
    cases h
    exact ⟨String.toList_ofList, rfl⟩
  | cons first more ih =>
    rw [forall_mem_cons] at hgood
    cases hreasoning : first.reasoning with
    | none =>
      have htexts : first.texts = [first.content.toList] := by
        rw [TurnSentinels.texts, TurnSentinels.parts, hreasoning]
        rfl
      rw [flatMap_cons, htexts] at hall
      cases hall with
      | @cons _ p _ positions hp hrest =>
      rw [cutTurns_content hgood.1 hreasoning hp] at h
      split_ifs at h with ho
      obtain ⟨rest, hcut, h⟩ := ok_of_bind h
      cases h
      obtain ⟨htail, hmids⟩ := ih hgood.2 hrest hcut
      refine ⟨?_, by simp [hreasoning, hmids]⟩
      rw [interleave, hreasoning]
      simp only [map_none, getD_none, String.toList_append, String.toList_ofList,
        String.toList_empty, append_nil, htail, append_assoc]
      exact (split_drop hgood.1.content.ne_nil hp ho).symm
    | some reasoning =>
      have htexts : first.texts = [reasoning.toList, first.content.toList] := by
        rw [TurnSentinels.texts, TurnSentinels.parts, hreasoning]
        rfl
      rw [flatMap_cons, htexts] at hall
      cases hall with
      | @cons _ q _ _ hq hrest =>
      cases hrest with
      | @cons _ p _ positions hp hrest =>
      rw [cutTurns_reasoning hgood.1 hreasoning hp hq] at h
      split_ifs at h with hfirst hlast
      obtain ⟨rest, hcut, h⟩ := ok_of_bind h
      cases h
      obtain ⟨htail, hmids⟩ := ih hgood.2 hrest hcut
      have hsentinel := (hgood.1.reasoning hreasoning).1
      have hbehind := (le_iff_lt hsentinel hgood.1.content hq hp).mpr hfirst.2
      refine ⟨?_, by simp [hreasoning, hmids]⟩
      rw [interleave, hreasoning]
      simp only [map_some, getD_some, String.toList_append, String.toList_ofList,
        htail, append_assoc]
      rw [← split_drop hgood.1.content.ne_nil hp hbehind]
      exact (split_drop hsentinel.ne_nil hq hfirst.1).symm

theorem checkSentinel_ok_iff {rendered : String} {turns turn : ℕ} {sentinel : SpanPart × String}
    (hs : Sentinel sentinel.2.toList) : checkSentinel rendered turns turn sentinel = .ok () ↔
      ∃ p, OccursOnlyAt sentinel.2.toList rendered.toList p := by
  have hfuel : rendered.toList.length < rendered.length + 1 := by
    rw [String.length_toList]
    exact Nat.lt_succ_self _
  rw [← countMatches_eq_one hs.ne_nil (hs.apart hs.front) hfuel, checkSentinel]
  split <;> simp_all

theorem exists_forall₂ {α β : Type} {R : α → β → Prop} {l : List α} :
    (∃ bs, Forall₂ R l bs) ↔ ∀ a ∈ l, ∃ b, R a b := by
  induction l with
  | nil => exact ⟨fun _ => nofun, fun _ => ⟨[], .nil⟩⟩
  | cons a l ih =>
    rw [forall_mem_cons, ← ih]
    constructor
    · rintro ⟨_, _ | ⟨hfirst, hrest⟩⟩
      exact ⟨⟨_, hfirst⟩, _, hrest⟩
    · rintro ⟨⟨b, hfirst⟩, bs, hrest⟩
      exact ⟨b :: bs, .cons hfirst hrest⟩

/-- Every sentinel is counted once exactly when each stands at one position. -/
theorem checks_ok_iff {rendered : String} (hgood : ∀ turn ∈ sentinels, turn.Good) :
    (sentinels.zipIdx.forM fun (turn, index) =>
      turn.parts.forM (checkSentinel rendered sentinels.length index)) = .ok () ↔
      ∃ positions, (sentinels.flatMap TurnSentinels.texts).Forall₂
        (OccursOnlyAt · rendered.toList ·) positions := by
  rw [exists_forall₂, forM_ok_iff]
  constructor
  · intro h s hs
    obtain ⟨turn, hturn, hs⟩ := mem_flatMap.mp hs
    obtain ⟨part, hpart, rfl⟩ := List.mem_map.mp hs
    obtain ⟨index, hindex⟩ := mem_iff_getElem?.mp hturn
    have hcheck := h (turn, index) (by rw [mem_zipIdx_iff_getElem?]; exact hindex)
    exact (checkSentinel_ok_iff ((hgood turn hturn).sentinel hs)).mp
      (forM_ok_iff.mp hcheck part hpart)
  · rintro h ⟨turn, index⟩ hturn
    have hmem : turn ∈ sentinels := fst_mem_of_mem_zipIdx hturn
    refine forM_ok_iff.mpr fun part hpart => ?_
    have hs : part.2.toList ∈ turn.texts := List.mem_map_of_mem hpart
    exact (checkSentinel_ok_iff ((hgood turn hmem).sentinel hs)).mpr
      (h _ (mem_flatMap.mpr ⟨turn, hmem, hs⟩))

/-- A rendering is cut **exactly when** every sentinel that was handed out stands in it once, in
the order of the turns, and the pieces with the sentinels between them are the rendering. -/
theorem splitTurns_ok_iff {json : JsonText} {messages : List TemplateMessage} {handed : String}
    {sentinels : List TurnSentinels} (h : templateMessages json messages = .ok (handed, sentinels))
    (rendered : String) :
    ((∃ framing, splitTurns rendered sentinels = .ok framing) ↔
      OnceInOrder rendered.toList (sentinels.flatMap TurnSentinels.texts)) ∧
    ∀ framing, splitTurns rendered sentinels = .ok framing →
      interleave framing.turns sentinels framing.tail = rendered ∧
        framing.turns.map (·.mid.isSome) = sentinels.map (·.reasoning.isSome) := by
  have hgood : ∀ turn ∈ sentinels, turn.Good := by
    unfold templateMessages serializeMessages at h
    dsimp only at h
    split at h
    · cases h
    · obtain ⟨-, rfl⟩ := Prod.mk.inj (Except.ok.inj h)
      exact good_serializeFrom 0 messages
  have hsplit {framing : Framing} : splitTurns rendered sentinels = .ok framing ↔
      (∃ positions, (sentinels.flatMap TurnSentinels.texts).Forall₂
        (OccursOnlyAt · rendered.toList ·) positions) ∧
      cutTurns sentinels.length 0 sentinels (rendered.toList.drop 0) = .ok framing := by
    rw [← checks_ok_iff hgood, List.drop_zero]
    constructor
    · intro hok
      obtain ⟨_, hchecks, hcut⟩ := ok_of_bind hok
      exact ⟨hchecks, hcut⟩
    · rintro ⟨hchecks, hcut⟩
      unfold splitTurns
      rw [hchecks]
      exact hcut
  constructor
  · simp only [hsplit]
    constructor
    · rintro ⟨framing, ⟨positions, hall⟩, hcut⟩
      exact ⟨positions, hall, ((cutTurns_ok_iff hgood hall).mp ⟨framing, hcut⟩).2⟩
    · rintro ⟨positions, hall, horder⟩
      obtain ⟨framing, hcut⟩ := (cutTurns_ok_iff hgood hall).mpr
        ⟨fun p _ => Nat.zero_le p, horder⟩
      exact ⟨framing, ⟨positions, hall⟩, hcut⟩
  · intro framing hok
    obtain ⟨⟨positions, hall⟩, hcut⟩ := hsplit.mp hok
    obtain ⟨hpieces, hmids⟩ := interleave_cutTurns hgood hall hcut
    exact ⟨String.toList_inj.mp hpieces, hmids⟩

/-- The text of a conversation of one assistant turn that reasons, as it is handed over. -/
def handedText : String :=
  "[\x7b\"content\":\"retro_span_0_9d41c7\",\"reasoning_content\":\"retro_reasoning_0_9d41c7\"," ++
    "\"role\":\"assistant\"\x7d]"

/-- A rendering that puts the reasoning of its one turn in front of its content. -/
theorem splitTurns_one :
    OnceInOrder "<think>retro_reasoning_0_9d41c7</think>retro_span_0_9d41c7<end>".toList
      ["retro_reasoning_0_9d41c7".toList, "retro_span_0_9d41c7".toList] ∧
    interleave [⟨"<think>", some "</think>"⟩]
      [⟨some "retro_reasoning_0_9d41c7", "retro_span_0_9d41c7"⟩] "<end>" =
        "<think>retro_reasoning_0_9d41c7</think>retro_span_0_9d41c7<end>" := by
  have hhanded : templateMessages
      { encode := fun _ => .ok handedText, decode := fun _ => .error "", display := fun _ => "" }
      [{ role := "assistant", content := "a", reasoning := some "b" }] =
      .ok (handedText, [⟨some "retro_reasoning_0_9d41c7", "retro_span_0_9d41c7"⟩]) := rfl
  have hcut : splitTurns "<think>retro_reasoning_0_9d41c7</think>retro_span_0_9d41c7<end>"
      [⟨some "retro_reasoning_0_9d41c7", "retro_span_0_9d41c7"⟩] =
      .ok ⟨[⟨"<think>", some "</think>"⟩], "<end>"⟩ := by
    rfl
  have hiff := splitTurns_ok_iff hhanded
    "<think>retro_reasoning_0_9d41c7</think>retro_span_0_9d41c7<end>"
  exact ⟨hiff.1.mp ⟨_, hcut⟩, (hiff.2 _ hcut).1⟩

end Retrograd.Dataset
