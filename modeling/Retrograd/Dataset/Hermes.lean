import Mathlib.Data.List.TakeWhile
import Retrograd.Dataset.Sentinels

/-!
# Calls in the `<tool_call>` convention

What is written in the convention is **read back** as the same calls, behind any prose that holds
no marker; and what is read of a turn that is still arriving, with an unfinished marker or call
held back, is **never retracted** by what arrives later.

A text is cut into blocks by its markers, of which none can begin inside another.
-/

namespace Retrograd.Dataset

open Logic Agent List Option

/-! ### Reading a turn that is still arriving -/

/-- The observation a call that could not be read comes back as. -/
def parseError (index : ℕ) (error : ToolCallParseError) : ToolResult :=
  ⟨s!"parse_error_{index}", error.text, true⟩

/-- `ParsedAssistant::from`. -/
def ParsedCalls.assistant (parsed : ParsedCalls) : ParsedAssistant where
  content := parsed.content
  reasoning := parsed.reasoning
  toolCalls := parsed.calls.map fun call => ⟨call.id, call.name, call.arguments⟩
  parseErrors := parsed.errors.map fun (index, error) => parseError index error

/-- A recognized call whose arguments may still be arriving. -/
structure PartialToolCall where
  id : String
  name : String
  arguments : String

/-- What a parser recognized of an assistant turn still being generated. -/
structure PartialAssistant where
  content : String
  reasoning : String
  toolCalls : List PartialToolCall

/-- `PartialAssistant::from`. -/
def PartialAssistant.ofParsed (json : JsonText) (parsed : ParsedAssistant) : PartialAssistant where
  content := parsed.content
  reasoning := parsed.reasoning
  toolCalls := parsed.toolCalls.map fun call => ⟨call.id, call.name, json.display call.arguments⟩

/-- The length of the longest suffix of `text` that is a proper prefix of one of the markers. -/
def partialMarkerLen (text : List Char) : ℕ :=
  ([hermesOpen.toList, hermesClose.toList].filterMap fun marker =>
    (List.range' 1 (marker.length - 1)).reverse.find? fun len =>
      (marker.take len).isSuffixOf text).max?.getD 0

/-- How much of a text of `length` characters is read: all of it, or what stands in front of the
first call of `rest` that is not closed. -/
def committedLen (length : ℕ) : ℕ → List Char → ℕ
  | 0, _ => length
  | fuel + 1, rest =>
    match position hermesOpen.toList rest with
    | none => length
    | some start =>
      let bodyStart := start + hermesOpen.length
      match position hermesClose.toList (rest.drop bodyStart) with
      | none => length - rest.length + start
      | some close => committedLen length fuel (rest.drop (bodyStart + close + hermesClose.length))

/-- Holds back an unfinished marker or call: only closed calls are decoded, by the same reader as a
full turn. -/
def parseHermesPartial (json : JsonText) (output : String) : PartialAssistant :=
  let hold := partialMarkerLen output.toList
  let text := output.toList.take (output.length - hold)
  let committed := committedLen text.length (text.length + 1) text
  .ofParsed json (parseHermes json (String.ofList (text.take committed))).assistant

/-! ### Blocks -/

/-- A text, cut into the prose and the body of each closed block, and what stands behind the last
one. -/
inductive Segmented : List Char → List (List Char × List Char) → List Char → Prop
  | prose {text : List Char} (none : splitFirst hermesOpen.toList text = none) :
      Segmented text [] text
  | unterminated {text prose after : List Char}
      (opened : splitFirst hermesOpen.toList text = some (prose, after))
      (none : splitFirst hermesClose.toList after = none) : Segmented text [] text
  | block {text prose after body rest tail : List Char} {blocks : List (List Char × List Char)}
      (opened : splitFirst hermesOpen.toList text = some (prose, after))
      (closed : splitFirst hermesClose.toList after = some (body, rest))
      (next : Segmented rest blocks tail) : Segmented text ((prose, body) :: blocks) tail

/-- The text outside the blocks. -/
def proseOf (blocks : List (List Char × List Char)) (tail : List Char) : List Char :=
  blocks.flatMap Prod.fst ++ tail

/-- The calls of the blocks, the first of them being call `index`. -/
def blockCalls (json : JsonText) : ℕ → List (List Char × List Char) → List TemplateCall
  | _, [] => []
  | index, (_, body) :: blocks =>
    match parseCall json (trim (String.ofList body)) index with
    | .ok call => call :: blockCalls json (index + 1) blocks
    | .error _ => blockCalls json (index + 1) blocks

/-- The blocks that cannot be read. -/
def blockErrors (json : JsonText) : ℕ → List (List Char × List Char) →
    List (ℕ × ToolCallParseError)
  | _, [] => []
  | index, (_, body) :: blocks =>
    match parseCall json (trim (String.ofList body)) index with
    | .ok _ => blockErrors json (index + 1) blocks
    | .error error => (index, error) :: blockErrors json (index + 1) blocks

variable {text prose after body rest tail : List Char} {blocks : List (List Char × List Char)}

variable {pattern : List Char} {before : List Char}

theorem splitFirst_length (hne : pattern ≠ [])
    (h : splitFirst pattern text = some (before, after)) :
    text = before ++ pattern ++ after ∧ OccursAt pattern text before.length ∧
      ∀ m < before.length, ¬ OccursAt pattern text m := by
  have hex : ∃ n, OccursAt pattern text n := by
    by_contra hnone
    rw [(splitFirst_eq_none hne).mpr (not_exists.mp hnone)] at h
    cases h
  have hfound := Nat.find_spec hex
  have hfirst (m : ℕ) (hm : m < Nat.find hex) : ¬ OccursAt pattern text m := Nat.find_min hex hm
  generalize Nat.find hex = p at hfound hfirst
  obtain ⟨hsplit, hlength⟩ := hfound.split hne
  rw [splitFirst_eq_some hne hfound hfirst] at h
  obtain ⟨rfl, rfl⟩ := Prod.mk.inj (some.inj h)
  have htake : (text.take p).length = p := by rw [length_take]; omega
  rw [htake]
  exact ⟨hsplit, hfound, hfirst⟩

theorem splitOnce_eq (text : List Char) (pattern : String) :
    splitOnce (String.ofList text) pattern =
      (splitFirst pattern.toList text).map fun (before, after) =>
        (String.ofList before, String.ofList after) := by
  rw [splitOnce, String.toList_ofList]

theorem hermesOpen_ne_nil : hermesOpen.toList ≠ [] := by decide
theorem hermesClose_ne_nil : hermesClose.toList ≠ [] := by decide

/-- Every text is cut into blocks. -/
theorem segmented (text : List Char) : ∃ blocks tail, Segmented text blocks tail := by
  induction hlength : text.length using Nat.strong_induction_on generalizing text with
  | _ n ih =>
    subst hlength
    cases hopen : splitFirst hermesOpen.toList text with
    | none => exact ⟨_, _, .prose hopen⟩
    | some found =>
      obtain ⟨prose, after⟩ := found
      cases hclose : splitFirst hermesClose.toList after with
      | none => exact ⟨_, _, .unterminated hopen hclose⟩
      | some found =>
        obtain ⟨body, rest⟩ := found
        have hopened := congrArg List.length (splitFirst_length hermesOpen_ne_nil hopen).1
        have hclosed := congrArg List.length (splitFirst_length hermesClose_ne_nil hclose).1
        have hpos := length_pos_iff.mpr hermesOpen_ne_nil
        simp only [length_append] at hopened hclosed
        obtain ⟨blocks, tail, hrest⟩ := ih rest.length (by omega) rest rfl
        exact ⟨_, _, .block hopen hclose hrest⟩

/-- The reader reads the blocks in their order. -/
theorem parseHermesFrom_eq (json : JsonText) (h : Segmented text blocks tail) (index : ℕ) {fuel : ℕ}
    (hfuel : text.length < fuel) :
    ∃ errors, (parseHermesFrom json fuel index (String.ofList text)).content.toList =
        proseOf blocks tail ∧
      (parseHermesFrom json fuel index (String.ofList text)).calls = blockCalls json index blocks ∧
      (parseHermesFrom json fuel index (String.ofList text)).errors =
        blockErrors json index blocks ++ errors ∧
      (splitFirst hermesOpen.toList tail = none → errors = []) := by
  induction h generalizing index fuel with
  | prose hnone =>
    obtain ⟨fuel, rfl⟩ := Nat.exists_eq_succ_of_ne_zero (Nat.ne_zero_of_lt hfuel)
    rw [parseHermesFrom, splitOnce_eq, hnone]
    exact ⟨[], String.toList_ofList, rfl, rfl, fun _ => rfl⟩
  | @unterminated text prose after hopen hnone =>
    obtain ⟨fuel, rfl⟩ := Nat.exists_eq_succ_of_ne_zero (Nat.ne_zero_of_lt hfuel)
    rw [parseHermesFrom, splitOnce_eq, hopen]
    dsimp only [map_some]
    rw [splitOnce_eq, hnone]
    exact ⟨[(index, .unterminatedToolCall)], String.toList_ofList, rfl, rfl, nofun⟩
  | @block text prose after body rest tail blocks hopen hclose _ ih =>
    obtain ⟨fuel, rfl⟩ := Nat.exists_eq_succ_of_ne_zero (Nat.ne_zero_of_lt hfuel)
    have hopened := congrArg List.length (splitFirst_length hermesOpen_ne_nil hopen).1
    have hclosed := congrArg List.length (splitFirst_length hermesClose_ne_nil hclose).1
    have hpos := length_pos_iff.mpr hermesOpen_ne_nil
    simp only [length_append] at hopened hclosed
    obtain ⟨errors, hcontent, hcalls, herrors, hnone⟩ := @ih (index + 1) fuel (by omega)
    rw [parseHermesFrom, splitOnce_eq, hopen]
    dsimp only [map_some]
    rw [splitOnce_eq, hclose]
    dsimp only [map_some]
    have hprose : proseOf ((prose, body) :: blocks) tail = prose ++ proseOf blocks tail := by
      rw [proseOf, flatMap_cons, append_assoc]
      rfl
    cases hcall : parseCall json (trim (String.ofList body)) index with
    | ok call =>
      refine ⟨errors, ?_, ?_, ?_, hnone⟩
      · simp only [String.toList_append, String.toList_ofList, hcontent, hprose]
      · simp only [blockCalls, hcall, hcalls]
      · simp only [blockErrors, hcall, herrors]
    | error error =>
      refine ⟨errors, ?_, ?_, ?_, hnone⟩
      · simp only [String.toList_append, String.toList_ofList, hcontent, hprose]
      · simp only [blockCalls, hcall, hcalls]
      · simp only [blockErrors, hcall, herrors, cons_append]

/-- The whole turn: the blocks' calls, and what is outside them, trimmed. -/
theorem parseHermes_eq (json : JsonText) (h : Segmented text blocks tail) :
    (parseHermes json (String.ofList text)).content = trim (String.ofList (proseOf blocks tail)) ∧
      (parseHermes json (String.ofList text)).calls = blockCalls json 0 blocks ∧
      (splitFirst hermesOpen.toList tail = none →
        (parseHermes json (String.ofList text)).errors = blockErrors json 0 blocks) := by
  have hfuel : text.length < (String.ofList text).length + 1 := by
    rw [String.length_ofList]
    exact Nat.lt_succ_self _
  obtain ⟨errors, hcontent, hcalls, herrors, hnone⟩ := parseHermesFrom_eq json h 0 hfuel
  unfold parseHermes
  generalize parseHermesFrom json ((String.ofList text).length + 1) 0 (String.ofList text) = parsed
    at hcontent hcalls herrors
  refine ⟨?_, hcalls, fun htail => ?_⟩
  · dsimp only
    rw [← hcontent, String.ofList_toList]
  · dsimp only
    rw [herrors, hnone htail, append_nil]

/-! ### A cut text -/

theorem splitFirst_append (hne : pattern ≠ [])
    (h : splitFirst pattern text = some (before, after)) (rest : List Char) :
    splitFirst pattern (text ++ rest) = some (before, after ++ rest) := by
  obtain ⟨htext, hat, hfirst⟩ := splitFirst_length hne h
  have hlength := congrArg List.length htext
  simp only [length_append] at hlength
  rw [splitFirst_eq_some hne (hat.append rest) fun m hm hoccurs =>
    hfirst m hm (hoccurs.of_append (by omega))]
  have htake : (text ++ rest).take before.length = before := by
    rw [htext, append_assoc, append_assoc, take_left]
  have hdrop : (text ++ rest).drop (before.length + pattern.length) = after ++ rest := by
    rw [htext, ← length_append, append_assoc, drop_left]
  rw [htake, hdrop]

/-- The text goes on behind the cut without an opening marker across it. -/
def Severed (text rest : List Char) : Prop :=
  ∀ n < text.length, OccursAt hermesOpen.toList (text ++ rest) n →
    n + hermesOpen.toList.length ≤ text.length

/-- The blocks of a text in front of such a cut are the first blocks of the whole text, and the
prose in front of it is the first prose. -/
theorem Segmented.append (h : Segmented text blocks tail)
    (htail : splitFirst hermesOpen.toList tail = none) {rest : List Char}
    (hsevered : Severed text rest) {blocks' : List (List Char × List Char)} {tail' : List Char}
    (h' : Segmented (text ++ rest) blocks' tail') :
    ∃ more, blocks' = blocks ++ more ∧ tail <+: proseOf more tail' := by
  induction h generalizing blocks' with
  | @prose text hnone =>
    refine ⟨blocks', rfl, ?_⟩
    have hno := (splitFirst_eq_none hermesOpen_ne_nil).mp hnone
    cases h' with
    | prose _ => exact prefix_append ..
    | unterminated _ _ => exact prefix_append ..
    | @block _ prose after body rest' _ blocks hopen _ _ =>
      obtain ⟨htext, hat, -⟩ := splitFirst_length hermesOpen_ne_nil hopen
      -- the first marker stands behind the cut
      have hbehind : text.length ≤ prose.length := by
        by_contra hfront
        exact hno _ (hat.of_append (hsevered _ (by omega) hat))
      rw [append_assoc] at htext
      have hfirst : text <+: prose :=
        prefix_of_prefix_length_le ⟨rest, rfl⟩ ⟨_, htext.symm⟩ hbehind
      rw [proseOf, flatMap_cons, append_assoc]
      exact hfirst.trans (prefix_append ..)
  | unterminated hopen _ =>
    rw [hopen] at htail
    cases htail
  | @block text prose after body rest' tail blocks hopen hclose _ ih =>
    have hopen' := splitFirst_append hermesOpen_ne_nil hopen rest
    have hclose' := splitFirst_append hermesClose_ne_nil hclose rest
    obtain ⟨hopened, -, -⟩ := splitFirst_length hermesOpen_ne_nil hopen
    obtain ⟨hclosed, -, -⟩ := splitFirst_length hermesClose_ne_nil hclose
    have hlater : Severed rest' rest := by
      intro n hn hoccurs
      -- the same place in the whole text
      have hsplit : text = (prose ++ hermesOpen.toList ++ (body ++ hermesClose.toList)) ++ rest' := by
        rw [hopened, hclosed]
        simp only [append_assoc]
      generalize prose ++ hermesOpen.toList ++ (body ++ hermesClose.toList) = front at hsplit
      have hwhole := hsevered (front.length + n) (by rw [hsplit, length_append]; omega)
        (by rwa [hsplit, append_assoc, ← occursAt_drop, drop_left])
      rw [hsplit, length_append] at hwhole
      omega
    cases h' with
    | prose hnone => rw [hopen'] at hnone; cases hnone
    | unterminated hopened' hnone =>
      rw [hopen'] at hopened'
      cases hopened'
      rw [hclose'] at hnone
      cases hnone
    | block hopened' hclosed' hnext =>
      rw [hopen'] at hopened'
      cases hopened'
      rw [hclose'] at hclosed'
      cases hclosed'
      obtain ⟨more, rfl, hprefix⟩ := ih htail hlater hnext
      exact ⟨more, rfl, hprefix⟩

/-! ### What is held back -/

/-- The first occurrence in a text is found in every piece of it that reaches past it. -/
theorem splitFirst_take (hne : pattern ≠ []) {p : ℕ} (h : position pattern text = some p) {q : ℕ}
    (hq : p + pattern.length ≤ q) : splitFirst pattern (text.take q) =
      some (text.take p, (text.drop (p + pattern.length)).take (q - (p + pattern.length))) := by
  obtain ⟨hat, hfirst⟩ := of_position h
  have hlength := (hat.split hne).2
  have hcut : text.take q ++ text.drop q = text := take_append_drop q text
  have hat' : OccursAt pattern (text.take q) p := by
    rw [← hcut] at hat
    exact hat.of_append (by rw [length_take]; omega)
  rw [splitFirst_eq_some hne hat' fun m hm hoccurs => hfirst m hm (hcut ▸ hoccurs.append _),
    take_take, Nat.min_eq_left (by omega), drop_take]

/-- What is read is closed blocks and prose, up to the end of the text or to an opening marker. -/
theorem committedLen_eq {length fuel : ℕ} (hle : rest.length ≤ length) (hfuel : rest.length < fuel) :
    ∃ k ≤ rest.length, committedLen length fuel rest = length - rest.length + k ∧
      (∃ blocks tail, Segmented (rest.take k) blocks tail ∧
        splitFirst hermesOpen.toList tail = none) ∧
      (k = rest.length ∨ OccursAt hermesOpen.toList rest k) := by
  induction fuel generalizing rest with
  | zero => exact absurd hfuel (Nat.not_lt_zero _)
  | succ fuel ih =>
    rw [committedLen]
    cases hopen : position hermesOpen.toList rest with
    | none =>
      have hnone : splitFirst hermesOpen.toList rest = none :=
        (splitFirst_eq_none hermesOpen_ne_nil).mpr (position_eq_none hermesOpen_ne_nil hopen)
      refine ⟨rest.length, Nat.le_refl _, by dsimp only; omega, ⟨[], rest, ?_, hnone⟩, .inl rfl⟩
      rw [take_length]
      exact .prose hnone
    | some start =>
      obtain ⟨hat, hfirst⟩ := of_position hopen
      have hlength := (hat.split hermesOpen_ne_nil).2
      rw [String.length_toList] at hlength
      dsimp only
      cases hclose : position hermesClose.toList (rest.drop (start + hermesOpen.length)) with
      | none =>
        have hnone : splitFirst hermesOpen.toList (rest.take start) = none := by
          refine (splitFirst_eq_none hermesOpen_ne_nil).mpr fun m hm => ?_
          have hfits := (hm.split hermesOpen_ne_nil).2
          have hpos := length_pos_iff.mpr hermesOpen_ne_nil
          rw [length_take] at hfits
          have hwhole := hm.append (rest.drop start)
          rw [take_append_drop] at hwhole
          exact hfirst m (by omega) hwhole
        exact ⟨start, by omega, rfl, ⟨[], rest.take start, .prose hnone, hnone⟩, .inr hat⟩
      | some close =>
        have hlength' := ((of_position hclose).1.split hermesClose_ne_nil).2
        rw [length_drop, String.length_toList] at hlength'
        have hpos := length_pos_iff.mpr hermesOpen_ne_nil
        rw [String.length_toList] at hpos
        obtain ⟨n, hn⟩ : ∃ n, n = start + hermesOpen.length + close + hermesClose.length := ⟨_, rfl⟩
        have hrest : (rest.drop n).length = rest.length - n := length_drop
        obtain ⟨k, hk, hcommitted, ⟨blocks, tail, hblocks, hnone⟩, hend⟩ :=
          @ih (rest.drop n) (by omega) (by omega)
        -- the block is found in what is read, too
        have hopen' := splitFirst_take hermesOpen_ne_nil hopen (q := n + k)
          (by rw [String.length_toList]; omega)
        have hclose' := splitFirst_take hermesClose_ne_nil hclose
          (q := n + k - (start + hermesOpen.length)) (by rw [String.length_toList]; omega)
        rw [String.length_toList] at hopen' hclose'
        rw [drop_drop, ← Nat.add_assoc, ← hn,
          show n + k - (start + hermesOpen.length) - (close + hermesClose.length) = k by omega]
          at hclose'
        dsimp only
        rw [← hn]
        refine ⟨n + k, by omega, by omega,
          ⟨_, tail, .block hopen' hclose' hblocks, hnone⟩, ?_⟩
        rcases hend with hend | hend
        · exact .inl (by omega)
        · exact .inr (occursAt_drop.mp hend)

theorem range_find {P : ℕ → Bool} {n m : ℕ}
    (h : (List.range' 1 n).reverse.find? P = some m) :
    (0 < m ∧ m ≤ n ∧ P m) ∧ ∀ k, 0 < k → k ≤ n → P k → k ≤ m := by
  obtain ⟨hm, before, after, hsplit, hbefore⟩ := find?_eq_some_iff_append.mp h
  have hmem (k : ℕ) : k ∈ (List.range' 1 n).reverse ↔ 0 < k ∧ k ≤ n := by
    rw [mem_reverse, mem_range'_1]
    omega
  have hsorted : (List.range' 1 n).reverse.Pairwise (· > ·) :=
    pairwise_reverse.mpr pairwise_lt_range'
  rw [hsplit] at hmem hsorted
  obtain ⟨hpos, hle⟩ := (hmem m).mp (mem_append_right _ (.head _))
  refine ⟨⟨hpos, hle, hm⟩, fun k hk hkn hPk => ?_⟩
  rcases mem_append.mp ((hmem k).mpr ⟨hk, hkn⟩) with hearlier | hlater
  · have hnot := hbefore k hearlier
    rw [hPk] at hnot
    cases hnot
  · rcases mem_cons.mp hlater with rfl | hlater
    · exact Nat.le_refl _
    · exact Nat.le_of_lt ((pairwise_cons.mp (pairwise_append.mp hsorted).2.1).1 k hlater)

/-- What is held back is the longest end of the text that may still become a marker. -/
theorem partialMarkerLen_spec (text : List Char) : partialMarkerLen text ≤ text.length ∧
    (0 < partialMarkerLen text → ∃ marker ∈ [hermesOpen.toList, hermesClose.toList],
      partialMarkerLen text < marker.length ∧ marker.take (partialMarkerLen text) <:+ text) ∧
    ∀ marker ∈ [hermesOpen.toList, hermesClose.toList], ∀ n, 0 < n → n < marker.length →
      marker.take n <:+ text → n ≤ partialMarkerLen text := by
  unfold partialMarkerLen
  generalize hlens : List.filterMap (fun marker => (List.range' 1 (marker.length - 1)).reverse.find?
    fun len => (marker.take len).isSuffixOf text) [hermesOpen.toList, hermesClose.toList] = lens
  have hmem (n : ℕ) : n ∈ lens ↔ ∃ marker ∈ [hermesOpen.toList, hermesClose.toList],
      (List.range' 1 (marker.length - 1)).reverse.find?
        (fun len => (marker.take len).isSuffixOf text) = some n := by
    rw [← hlens, mem_filterMap]
  have hfound {n : ℕ} (hn : n ∈ lens) : ∃ marker ∈ [hermesOpen.toList, hermesClose.toList],
      n < marker.length ∧ marker.take n <:+ text := by
    obtain ⟨marker, hmarker, hfind⟩ := (hmem n).mp hn
    obtain ⟨⟨hpos, hle, hsuffix⟩, -⟩ := range_find hfind
    exact ⟨marker, hmarker, by omega, isSuffixOf_iff_suffix.mp hsuffix⟩
  have hlongest (marker : List Char) (hmarker : marker ∈ [hermesOpen.toList, hermesClose.toList])
      (n : ℕ) (hn : 0 < n) (hlt : n < marker.length) (hsuffix : marker.take n <:+ text) :
      ∃ m ∈ lens, n ≤ m := by
    cases hfind : (List.range' 1 (marker.length - 1)).reverse.find?
        (fun len => (marker.take len).isSuffixOf text) with
    | none =>
      have hnone := find?_eq_none.mp hfind n
        (by rw [mem_reverse, mem_range'_1]; omega)
      exact absurd (isSuffixOf_iff_suffix.mpr hsuffix) hnone
    | some m =>
      exact ⟨m, (hmem m).mpr ⟨marker, hmarker, hfind⟩,
        (range_find hfind).2 n hn (by omega) (isSuffixOf_iff_suffix.mpr hsuffix)⟩
  cases hmax : lens.max? with
  | none =>
    obtain rfl := max?_eq_none_iff.mp hmax
    refine ⟨Nat.zero_le _, fun h => absurd h (Nat.lt_irrefl 0), fun marker hmarker n hn hlt hsuffix => ?_⟩
    obtain ⟨m, hm, -⟩ := hlongest marker hmarker n hn hlt hsuffix
    cases hm
  | some hold =>
    obtain ⟨hhold, hall⟩ := max?_eq_some_iff.mp hmax
    obtain ⟨marker, hmarker, hlt, hsuffix⟩ := hfound hhold
    refine ⟨?_, fun _ => ⟨marker, hmarker, hlt, hsuffix⟩, fun marker hmarker n hn hlt hsuffix => ?_⟩
    · have hle := hsuffix.length_le
      rw [length_take] at hle
      dsimp only [getD_some]
      omega
    · obtain ⟨m, hm, hle⟩ := hlongest marker hmarker n hn hlt hsuffix
      exact hle.trans (hall m hm)

theorem apart_hermesOpen : Apart hermesOpen.toList hermesOpen.toList :=
  apart_of_head (a := '<') (by decide)

theorem apart_hermesClose : Apart hermesClose.toList hermesClose.toList :=
  apart_of_head (a := '<') (by decide)

/-- No opening marker crosses the end of what is read, whatever arrives behind it. -/
theorem severed_committed {front whole : List Char} (hfront : front <+: whole) {k : ℕ}
    (hk : k ≤ (front.take (front.length - partialMarkerLen front)).length)
    (hend : k = (front.take (front.length - partialMarkerLen front)).length ∨
      OccursAt hermesOpen.toList (front.take (front.length - partialMarkerLen front)) k) {n : ℕ}
    (hn : n < k) (hoccurs : OccursAt hermesOpen.toList whole n) :
    n + hermesOpen.toList.length ≤ k := by
  obtain ⟨later, rfl⟩ := hfront
  obtain ⟨hhold, hmarker, hlongest⟩ := partialMarkerLen_spec front
  generalize partialMarkerLen front = hold at *
  have hlength : (front.take (front.length - hold)).length = front.length - hold := by
    rw [length_take]
    omega
  rw [hlength] at hk hend
  have hheld : front.take (front.length - hold) ++ front.drop (front.length - hold) = front :=
    take_append_drop ..
  rcases hend with rfl | hopen
  · by_contra hpast
    by_cases hinside : n + hermesOpen.toList.length ≤ front.length
    · -- the marker would hold the beginning of one
      obtain ⟨marker, hmem, hlt, hsuffix⟩ := hmarker (by omega)
      have hhead : marker.head? = some '<' := by
        rcases mem_cons.mp hmem with rfl | hmem
        · rfl
        · obtain rfl := mem_singleton.mp hmem
          rfl
      have hstart : OccursAt ['<'] (front ++ later) (front.length - hold) := by
        have hdrop : front.drop (front.length - hold) = marker.take hold := by
          rw [suffix_iff_eq_drop.mp hsuffix, length_take, Nat.min_eq_left hlt.le]
        refine OccursAt.append ?_ later
        rw [OccursAt, hdrop]
        cases marker with
        | nil => cases hhead
        | cons c marker =>
          obtain rfl := some.inj hhead
          obtain ⟨hold, rfl⟩ := Nat.exists_eq_succ_of_ne_zero (show hold ≠ 0 by omega)
          exact cons_prefix_cons.mpr ⟨rfl, nil_prefix⟩
      exact hpast ((apart_of_head (s := hermesOpen.toList) (a := '<') (by decide)).le hoccurs hstart hn)
    · -- the end of the text is the beginning of one, longer than what is held back
      have hdrop : front.drop n <+: hermesOpen.toList := by
        rw [OccursAt, drop_append_of_le_length (by omega)] at hoccurs
        exact prefix_of_prefix_length_le (prefix_append ..) hoccurs
          (by rw [length_drop]; omega)
      have hsuffix : hermesOpen.toList.take (front.length - n) <:+ front := by
        rw [← length_drop, ← prefix_iff_eq_take.mp hdrop]
        exact drop_suffix ..
      have hle := hlongest _ (.head _) (front.length - n) (by omega) (by omega) hsuffix
      omega
  · have hopen' : OccursAt hermesOpen.toList (front ++ later) k := by
      rw [← hheld, append_assoc]
      exact hopen.append _
    exact apart_hermesOpen.le hoccurs hopen' hn

/-! ### Trimming -/

/-- `trim` on characters. -/
def trimChars (text : List Char) : List Char :=
  ((text.dropWhile isWhitespace).reverse.dropWhile isWhitespace).reverse

theorem trim_ofList (text : List Char) : (trim (String.ofList text)).toList = trimChars text := by
  rw [trim, String.toList_ofList, String.toList_ofList]
  rfl

/-- Trimming a longer text keeps what trimming a shorter one kept. -/
theorem trimChars_prefix {front whole : List Char} (h : front <+: whole) :
    trimChars front <+: trimChars whole := by
  obtain ⟨rest, rfl⟩ := h
  unfold trimChars
  rw [dropWhile_append]
  split_ifs with hempty
  · rw [List.isEmpty_iff.mp hempty]
    exact nil_prefix
  · generalize front.dropWhile isWhitespace = text
    have htext : (text.reverse.dropWhile isWhitespace).reverse <+: text := by
      rw [← reverse_suffix, reverse_reverse]
      exact dropWhile_suffix _
    rw [reverse_append, dropWhile_append]
    split_ifs with hblank
    · exact prefix_refl _
    · rw [reverse_append, reverse_reverse]
      exact htext.trans (prefix_append ..)

/-! ### What arrives later retracts nothing -/

theorem blockCalls_append (json : JsonText) (index : ℕ) (blocks more : List (List Char × List Char)) :
    blockCalls json index blocks <+: blockCalls json index (blocks ++ more) := by
  induction blocks generalizing index with
  | nil => exact nil_prefix
  | cons block blocks ih =>
    rw [cons_append, blockCalls, blockCalls]
    cases parseCall json (trim (String.ofList block.2)) index with
    | ok call => exact cons_prefix_cons.mpr ⟨rfl, ih (index + 1)⟩
    | error _ => exact ih (index + 1)

theorem proseOf_starts {more : List (List Char × List Char)} {tail' : List Char}
    (h : tail <+: proseOf more tail') :
    proseOf blocks tail <+: proseOf (blocks ++ more) tail' := by
  rw [proseOf, proseOf, flatMap_append, append_assoc, prefix_append_right_inj]
  exact h

/-- What is read of the beginning of a turn is the beginning of what is read of the turn. -/
theorem parseHermesPartial_prefix (json : JsonText) {front whole : String}
    (hfront : front.toList <+: whole.toList) :
    (parseHermesPartial json front).toolCalls <+:
        (PartialAssistant.ofParsed json (parseHermes json whole).assistant).toolCalls ∧
      (parseHermesPartial json front).content.toList <+:
        (PartialAssistant.ofParsed json (parseHermes json whole).assistant).content.toList := by
  let text := front.toList.take (front.length - partialMarkerLen front.toList)
  obtain ⟨k, hk, hcommitted, ⟨blocks, tail, hblocks, hnone⟩, hend⟩ :=
    @committedLen_eq text text.length (text.length + 1) (Nat.le_refl _) (Nat.lt_succ_self _)
  rw [Nat.sub_self, Nat.zero_add] at hcommitted
  have hread : text.take k <+: whole.toList :=
    (( take_prefix k text).trans ( take_prefix ..)).trans hfront
  obtain ⟨later, hlater⟩ := hread
  have hlength : (text.take k).length = k := by
    rw [length_take]
    omega
  have hsevered : Severed (text.take k) later := by
    intro n hn hoccurs
    rw [hlater] at hoccurs
    rw [hlength] at hn ⊢
    exact severed_committed hfront hk hend hn hoccurs
  obtain ⟨blocks', tail', hwhole⟩ := segmented whole.toList
  obtain ⟨more, rfl, hprefix⟩ := hblocks.append hnone hsevered (hlater ▸ hwhole)
  obtain ⟨hcontent, hcalls, -⟩ := parseHermes_eq json hblocks
  obtain ⟨hcontent', hcalls', -⟩ := parseHermes_eq json hwhole
  rw [String.ofList_toList] at hcontent' hcalls'
  have hunfinished : parseHermesPartial json front = .ofParsed json
      (parseHermes json (String.ofList (text.take k))).assistant := by
    change PartialAssistant.ofParsed json (parseHermes json (String.ofList
      (text.take (committedLen text.length (text.length + 1) text)))).assistant = _
    rw [hcommitted]
  rw [hunfinished]
  constructor
  · simp only [PartialAssistant.ofParsed, ParsedCalls.assistant, hcalls, hcalls']
    exact ((blockCalls_append json 0 blocks more).map _).map _
  · simp only [PartialAssistant.ofParsed, ParsedCalls.assistant, hcontent, hcontent', trim_ofList]
    exact trimChars_prefix (proseOf_starts hprefix)

/-! ### What is written is read back -/

/-- The JSON body of a call. -/
def callBody (call : TemplateCall) : Json :=
  .object [("name", .string call.name), ("arguments", call.arguments)]

/-- JSON text is compact, and reads back as the value it was written for; members are read in the
order of their names. -/
def ReadsBack (json : JsonText) (call : TemplateCall) : Prop :=
  ∀ body, json.encode (callBody call) = .ok body → (∃ inner, body = "\x7b" ++ inner ++ "\x7d") ∧
    json.decode body = .ok (.object [("arguments", call.arguments), ("name", .string call.name)])

/-- The block of a call. -/
def blockText (body : String) : List Char :=
  hermesOpen.toList ++ body.toList ++ hermesClose.toList

theorem splitFirst_cut (hne : pattern ≠ []) (hself : Apart pattern pattern)
    (hno : ∀ n, ¬ OccursAt pattern before n) (after : List Char) :
    splitFirst pattern (before ++ pattern ++ after) = some (before, after) := by
  have hat : OccursAt pattern (before ++ pattern ++ after) before.length := occursAt_append before after
  rw [splitFirst_eq_some hne hat fun m hm hoccurs => hno m ?_]
  · rw [append_assoc, take_left, ← append_assoc, ← length_append, drop_left]
  · have hle := hself.le hoccurs hat hm
    rw [append_assoc] at hoccurs
    exact hoccurs.of_append hle

/-- What follows the block of a call. -/
def followText (bodies : List String) : List Char := bodies.flatMap fun body => '\n' :: blockText body

/-- Prose without an opening marker, and blocks whose bodies hold no closing marker, with line breaks
between them, are cut as they were joined. -/
theorem segmented_blocks {body : String} {bodies : List String}
    (hclose : ∀ b ∈ body :: bodies, ∀ n, ¬ OccursAt hermesClose.toList b.toList n)
    {prose : List Char} (hprose : ∀ n, ¬ OccursAt hermesOpen.toList prose n) :
    Segmented (prose ++ blockText body ++ followText bodies)
      ((prose, body.toList) :: bodies.map fun b => (['\n'], b.toList)) [] := by
  induction bodies generalizing body prose with
  | nil =>
    have hopened := splitFirst_cut hermesOpen_ne_nil apart_hermesOpen hprose
      (body.toList ++ hermesClose.toList ++ [])
    have hclosed := splitFirst_cut hermesClose_ne_nil apart_hermesClose (hclose body (.head _)) []
    refine .block ?_ hclosed (.prose rfl)
    rw [← hopened]
    simp only [blockText, followText, flatMap_nil, append_assoc, append_nil]
  | cons next bodies ih =>
    have hopened := splitFirst_cut hermesOpen_ne_nil apart_hermesOpen hprose
      (body.toList ++ hermesClose.toList ++ (['\n'] ++ blockText next ++ followText bodies))
    have hclosed := splitFirst_cut hermesClose_ne_nil apart_hermesClose (hclose body (.head _))
      (['\n'] ++ blockText next ++ followText bodies)
    refine .block ?_ hclosed (ih (fun b hb => hclose b (.tail _ hb)) fun n hn => ?_)
    · rw [← hopened]
      simp only [blockText, followText, flatMap_cons, append_assoc, cons_append,
        nil_append]
    · have hfits := (hn.split hermesOpen_ne_nil).2
      have hlong : ¬ n + hermesOpen.toList.length ≤ 1 := by
        have hlength : hermesOpen.toList.length = 11 := by decide
        omega
      exact absurd hfits hlong

theorem intercalate_blocks (body : String) (bodies : List String) :
    ("\n".intercalate ((body :: bodies).map fun b => hermesOpen ++ b ++ hermesClose)).toList =
      blockText body ++ followText bodies := by
  induction bodies generalizing body with
  | nil =>
    rw [map_cons, map_nil, String.intercalate_singleton]
    simp [blockText, followText]
  | cons next bodies ih =>
    rw [map_cons, String.intercalate_cons_of_ne_nil (by simp), String.toList_append, ih,
      String.toList_append]
    simp [blockText, followText]

/-- The block of one call. -/
private def callBlock (json : JsonText) (call : TemplateCall) : Except ChatTemplateError String :=
  match json.encode (callBody call) with
  | .error source => .error (.serialize "tool call" source)
  | .ok body =>
    if (splitOnce body hermesClose).isSome then .error (.unwritableCall call.name)
    else .ok (hermesOpen ++ body ++ hermesClose)

variable {json : JsonText}

private theorem of_callBlock {call : TemplateCall} {block : String}
    (h : callBlock json call = .ok block) : ∃ body, json.encode (callBody call) = .ok body ∧
      (∀ n, ¬ OccursAt hermesClose.toList body.toList n) ∧
      block = hermesOpen ++ body ++ hermesClose := by
  unfold callBlock at h
  split at h
  · cases h
  · next body hencode =>
    split_ifs at h with hmarker
    cases h
    rw [splitOnce, isSome_map, Bool.not_eq_true, isSome_eq_false_iff,
      isNone_iff_eq_none] at hmarker
    exact ⟨body, hencode, fun n => (splitFirst_eq_none hermesClose_ne_nil).mp hmarker n, rfl⟩

variable {calls : List TemplateCall}

/-- What is written is one block for each call, whose body holds no closing marker. -/
theorem of_hermesCallText {text : String} (h : hermesCallText json calls = .ok text) :
    ∃ bodies, Forall₂ (fun call body => json.encode (callBody call) = .ok body ∧
        ∀ n, ¬ OccursAt hermesClose.toList body.toList n) calls bodies ∧
      text = "\n".intercalate (bodies.map fun b => hermesOpen ++ b ++ hermesClose) := by
  obtain ⟨blocks, hblocks, htext⟩ := ok_of_bind h
  cases htext
  clear h
  suffices hbodies : ∃ bodies, Forall₂ (fun call body => json.encode (callBody call) = .ok body ∧
      ∀ n, ¬ OccursAt hermesClose.toList body.toList n) calls bodies ∧
      blocks = bodies.map fun b => hermesOpen ++ b ++ hermesClose by
    obtain ⟨bodies, hall, rfl⟩ := hbodies
    exact ⟨bodies, hall, rfl⟩
  have hall := forall₂_of_mapM hblocks
  clear hblocks
  induction hall with
  | nil => exact ⟨[], .nil, rfl⟩
  | @cons call block calls blocks hblock _ ih =>
    obtain ⟨bodies, hbodies, rfl⟩ := ih
    obtain ⟨body, hencode, hmarker, rfl⟩ := of_callBlock hblock
    exact ⟨body :: bodies, .cons ⟨hencode, hmarker⟩ hbodies, rfl⟩

/-- A body in braces is read as it is. -/
theorem trim_braces (inner : String) :
    trim (String.ofList ("\x7b" ++ inner ++ "\x7d").toList) = "\x7b" ++ inner ++ "\x7d" := by
  rw [← String.toList_inj, trim_ofList]
  have hopen : isWhitespace '\x7b' = false := by decide
  have hclose : isWhitespace '\x7d' = false := by decide
  simp only [trimChars, String.toList_append]
  change ((('\x7b' :: (inner.toList ++ ['\x7d'])).dropWhile isWhitespace).reverse.dropWhile
    isWhitespace).reverse = '\x7b' :: (inner.toList ++ ['\x7d'])
  rw [dropWhile_cons_of_neg (by simp [hopen]), reverse_cons, reverse_append,
    reverse_singleton, singleton_append, cons_append,
    dropWhile_cons_of_neg (by simp [hclose])]
  simp

/-- The body of a call is read back as the call, under its position. -/
theorem parseCall_body {call : TemplateCall} (hname : call.name ≠ "")
    (harguments : call.arguments.isObject) (hback : ReadsBack json call) {body : String}
    (hencode : json.encode (callBody call) = .ok body) (index : ℕ) :
    parseCall json (trim (String.ofList body.toList)) index =
      .ok ⟨positionalId index, call.name, call.arguments⟩ := by
  obtain ⟨⟨inner, hbraces⟩, hdecode⟩ := hback body hencode
  have htrim : trim (String.ofList body.toList) = body := by
    rw [hbraces]
    exact trim_braces inner
  have hbrace : startsWith body "\x7b" = true := by
    rw [hbraces, startsWith, String.append_assoc, String.toList_append]
    exact isPrefixOf_iff_prefix.mpr (prefix_append ..)
  have hfind : nonEmptyMember (.object [("arguments", call.arguments), ("name", .string call.name)])
      "name" = some call.name := by
    have hempty : call.name.isEmpty = false := by simpa using hname
    simp [nonEmptyMember, Json.member, Json.asStr, Option.filter, hempty]
  rw [htrim, parseCall, if_pos hbrace, parseJsonCall, hdecode]
  have hobject : ∃ members, call.arguments = .object members := by
    cases harg : call.arguments <;> simp_all [Json.isObject]
  obtain ⟨members, hmembers⟩ := hobject
  simp only [Json.isObject, Bool.not_true, Bool.false_eq_true, if_false, hfind]
  simp [Json.member, hmembers]

/-- Every body is read back. -/
theorem blockCalls_bodies {bodies : List String}
    (hbodies : Forall₂ (fun call body => json.encode (callBody call) = .ok body ∧ ∀ n, ¬ OccursAt hermesClose.toList body.toList n) calls bodies)
    (hcalls : ∀ call ∈ calls, call.name ≠ "" ∧ call.arguments.isObject ∧ ReadsBack json call)
    {blocks : List (List Char × List Char)}
    (hblocks : blocks.map Prod.snd = bodies.map String.toList) (index : ℕ) :
    (blockCalls json index blocks).map (fun call => (call.name, call.arguments)) =
        calls.map (fun call => (call.name, call.arguments)) ∧ blockErrors json index blocks = [] := by
  induction hbodies generalizing blocks index with
  | nil =>
    obtain rfl := map_eq_nil_iff.mp hblocks
    exact ⟨rfl, rfl⟩
  | @cons call body calls bodies hbody _ ih =>
    cases blocks with
    | nil => cases hblocks
    | cons block blocks =>
      obtain ⟨prose, text⟩ := block
      obtain ⟨rfl, hrest⟩ := cons.inj hblocks
      obtain ⟨hname, harguments, hback⟩ := hcalls call (.head _)
      have hread := parseCall_body hname harguments hback hbody.1 index
      obtain ⟨hlater, herrors⟩ := ih (fun call hcall => hcalls call (.tail _ hcall)) hrest (index + 1)
      rw [blockCalls, blockErrors, hread]
      exact ⟨congrArg (_ :: ·) hlater, herrors⟩

private theorem exists_left_of_forall₂ {α β : Type} {R : α → β → Prop} {as : List α} {bs : List β}
    (h : Forall₂ R as bs) {b : β} (hb : b ∈ bs) : ∃ a ∈ as, R a b := by
  induction h with
  | nil => cases hb
  | @cons a b' as bs hab _ ih =>
    rcases mem_cons.mp hb with rfl | hb
    · exact ⟨a, .head _, hab⟩
    · obtain ⟨a, ha, hab⟩ := ih hb
      exact ⟨a, .tail _ ha, hab⟩

theorem trimChars_append_blank {blank : List Char} (h : ∀ c ∈ blank, isWhitespace c) (text : List Char) :
    trimChars (text ++ blank) = trimChars text := by
  unfold trimChars
  rw [dropWhile_append]
  split_ifs with hempty
  · have hblank : blank.dropWhile isWhitespace = [] := dropWhile_eq_nil_iff.mpr h
    rw [List.isEmpty_iff.mp hempty, hblank]
  · rw [reverse_append, dropWhile_append_of_pos (by simpa using h)]

/-- Calls that are written behind prose without a marker are read back in their order, with no
error, and the prose trimmed. -/
theorem parseHermes_hermesCallText {prose text : String}
    (hprose : ∀ n, ¬ OccursAt hermesOpen.toList prose.toList n) (hne : calls ≠ [])
    (hcalls : ∀ call ∈ calls, call.name ≠ "" ∧ call.arguments.isObject ∧ ReadsBack json call)
    (htext : hermesCallText json calls = .ok text) :
    (parseHermes json (prose ++ text)).calls.map (fun call => (call.name, call.arguments)) =
        calls.map (fun call => (call.name, call.arguments)) ∧
      (parseHermes json (prose ++ text)).errors = [] ∧
      (parseHermes json (prose ++ text)).content = trim prose := by
  obtain ⟨bodies, hbodies, rfl⟩ := of_hermesCallText htext
  cases hbodies with
  | nil => exact absurd rfl hne
  | @cons call body calls bodies hbody hrest =>
    have hclose : ∀ b ∈ body :: bodies, ∀ n, ¬ OccursAt hermesClose.toList b.toList n := by
      intro b hb
      have hall : Forall₂ (fun call body => json.encode (callBody call) = .ok body ∧
          ∀ n, ¬ OccursAt hermesClose.toList body.toList n) (call :: calls) (body :: bodies) :=
        .cons hbody hrest
      obtain ⟨call', -, hcall'⟩ := exists_left_of_forall₂ hall hb
      exact hcall'.2
    have hblocks := segmented_blocks hclose hprose
    have hjoined : prose ++ "\n".intercalate ((body :: bodies).map fun b => hermesOpen ++ b ++ hermesClose) =
        String.ofList (prose.toList ++ blockText body ++ followText bodies) := by
      rw [← String.toList_inj, String.toList_append, intercalate_blocks, String.toList_ofList,
        append_assoc]
    obtain ⟨hcontent, hread, herrors⟩ := parseHermes_eq json hblocks
    have hbodies : ((prose.toList, body.toList) :: bodies.map fun b => (['\n'], b.toList)).map
        Prod.snd = (body :: bodies).map String.toList := by
      simp
    obtain ⟨hsame, hnone⟩ := blockCalls_bodies (.cons hbody hrest) hcalls hbodies 0
    rw [hjoined]
    refine ⟨hread ▸ hsame, (herrors rfl).trans hnone, hcontent.trans ?_⟩
    have hproses : proseOf ((prose.toList, body.toList) :: bodies.map fun b => (['\n'], b.toList)) [] =
        prose.toList ++ bodies.flatMap fun _ => ['\n'] := by
      simp [proseOf, flatMap_map]
    rw [← String.toList_inj, trim_ofList, hproses, trimChars_append_blank, ← trim_ofList,
      String.ofList_toList]
    intro c hc
    obtain ⟨_, -, hc⟩ := mem_flatMap.mp hc
    obtain rfl := mem_singleton.mp hc
    decide

/-- JSON text of two calls: one without arguments, and one whose argument is the closing marker. -/
def echoJson : JsonText where
  encode
    | .object [("name", .string "echo"), ("arguments", .object [])] =>
      .ok "\x7b\"name\":\"echo\",\"arguments\":\x7b\x7d\x7d"
    | .object [("name", .string "echo"), ("arguments", .object [("text", .string "</tool_call>")])] =>
      .ok "\x7b\"name\":\"echo\",\"arguments\":\x7b\"text\":\"</tool_call>\"\x7d\x7d"
    | _ => .error "not written"
  decode text :=
    if text = "\x7b\"name\":\"echo\",\"arguments\":\x7b\x7d\x7d" then
      .ok (.object [("arguments", .object []), ("name", .string "echo")])
    else if text = "\x7b\"name\":\"echo\",\"arguments\":\x7b\"text\":\"</tool_call>\"\x7d\x7d" then
      .ok (.object [("arguments", .object [("text", .string "</tool_call>")]),
        ("name", .string "echo")])
    else .error "not read"
  display _ := "\x7b\x7d"

private theorem echo_readsBack : ReadsBack echoJson ⟨"", "echo", .object []⟩ := by
  intro body hbody
  obtain rfl := Except.ok.inj hbody
  refine ⟨⟨"\"name\":\"echo\",\"arguments\":\x7b\x7d", by decide +kernel⟩, ?_⟩
  unfold echoJson
  dsimp only
  rw [if_pos rfl]

private theorem echo_marker_readsBack :
    ReadsBack echoJson ⟨"", "echo", .object [("text", .string "</tool_call>")]⟩ := by
  intro body hbody
  obtain rfl := Except.ok.inj hbody
  refine ⟨⟨"\"name\":\"echo\",\"arguments\":\x7b\"text\":\"</tool_call>\"\x7d", by decide +kernel⟩, ?_⟩
  unfold echoJson
  dsimp only
  rw [if_neg (by decide +kernel), if_pos rfl]

end Retrograd.Dataset
