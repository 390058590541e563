import Retrograd.Judge.Render
import Mathlib.Algebra.Order.BigOperators.Group.List
import Mathlib.Algebra.Order.Group.Nat
import Mathlib.Algebra.Ring.Nat

/-!
# What elision keeps

Dropping the middle message again and again keeps a **prefix** and a **suffix** of the trajectory, of
nearly equal lengths. The marker goes before the last kept message, which is where the dropped ones were
only when at most one message of the suffix is left.
-/

namespace Retrograd.Judge

open Agent List

/-! ### Dropping from the middle -/

variable {α β : Type}

/-- What is left of a list once `m` entries remain: the longer half from the front. -/
def kept (l : List α) (m : ℕ) : List α := l.take ((m + 1) / 2) ++ l.drop (l.length - m / 2)

theorem kept_length_self (l : List α) : kept l l.length = l := by
  have hhalf : l.length - l.length / 2 = (l.length + 1) / 2 := by omega
  rw [kept, hhalf, take_append_drop]

variable {l : List α}

theorem length_kept {m : ℕ} (hm : m ≤ l.length) : (kept l m).length = m := by
  rw [kept, length_append, length_take, length_drop]
  omega

theorem kept_map (f : α → β) (l : List α) (m : ℕ) : kept (l.map f) m = (kept l m).map f := by
  simp [kept]

/-- The middle entry is the last of the front half or the first of the back half. -/
theorem eraseIdx_kept {m : ℕ} (hm : m < l.length) :
    (kept l (m + 1)).eraseIdx ((m + 1) / 2) = kept l m := by
  obtain ⟨half, rfl | rfl⟩ : ∃ half, m = 2 * half ∨ m = 2 * half + 1 := ⟨m / 2, by omega⟩
  · -- An odd number is left: the last entry of the front half goes.
    have hfront : (2 * half + 1 + 1) / 2 = half + 1 := by omega
    have hback : (2 * half + 1) / 2 = half := by omega
    have hwas : 2 * half / 2 = half := by omega
    rw [kept, kept, hfront, hback, hwas, eraseIdx_append_of_lt_length (by
      rw [length_take]
      omega), eraseIdx_eq_take_drop_succ, take_take, drop_eq_nil_of_le (by simp),
      append_nil, min_eq_left (Nat.le_succ _)]
  · -- An even number is left: the first entry of the back half goes.
    have hfront : (2 * half + 1 + 1 + 1) / 2 = half + 1 := by omega
    have hback : (2 * half + 1 + 1) / 2 = half + 1 := by omega
    have hwas : (2 * half + 1) / 2 = half := by omega
    have hlength : (l.take (half + 1)).length = half + 1 := by
      rw [length_take]
      omega
    rw [kept, kept, hfront, hback, hwas, eraseIdx_append_of_length_le hlength.le, hlength,
      Nat.sub_self, eraseIdx_zero, tail_drop]
    congr 2
    omega

theorem kept_sublist {j m : ℕ} (hj : j ≤ m) (hm : m ≤ l.length) :
    (kept l j).Sublist (kept l m) := by
  induction hj with
  | refl => exact .refl _
  | step _ ih =>
    refine (ih (Nat.le_of_succ_le hm)).trans ?_
    rw [← eraseIdx_kept hm]
    exact eraseIdx_sublist ..

theorem sum_eraseIdx {l : List ℕ} {i : ℕ} (hi : i < l.length) :
    l.sum - l.getD i 0 = (l.eraseIdx i).sum := by
  induction l generalizing i with
  | nil => cases hi
  | cons size l ih =>
    cases i with
    | zero => simp
    | succ i =>
      have hle : l.getD i 0 ≤ l.sum := by
        have hmem : l.getD i 0 ∈ l := by
          simp [getD_eq_getElem?_getD, Nat.lt_of_succ_lt_succ hi]
        exact le_sum_of_mem hmem
      have hrest := ih (Nat.lt_of_succ_lt_succ hi)
      rw [sum_cons, getD_cons_succ, eraseIdx_cons_succ, sum_cons]
      omega

/-- `m` entries are left of a trajectory, with their sizes, their total and the count of the others. -/
structure Left (l : List α) (sizes : List ℕ) (m : ℕ) (trimmed : Trimmed α) : Prop where
  rendered : trimmed.rendered = kept l m
  total : trimmed.total = (kept sizes m).sum
  dropped : trimmed.dropped = l.length - m
  sizes : trimmed.sizes = kept sizes m

variable {l : List α} {sizes : List ℕ} {m : ℕ}

variable {trimmed : Trimmed α}

/-- One drop leaves one entry less. -/
theorem Left.dropMiddle (h : Left l sizes (m + 1) trimmed) (hsizes : sizes.length = l.length)
    (hm : m < l.length) : Left l sizes m trimmed.dropMiddle := by
  have hlength : trimmed.rendered.length = m + 1 := by
    rw [h.rendered, length_kept hm]
  have hvictim : (m + 1) / 2 < (kept sizes (m + 1)).length := by
    rw [length_kept (by omega)]
    omega
  refine ⟨?_, ?_, ?_, ?_⟩
  · change trimmed.rendered.eraseIdx (trimmed.rendered.length / 2) = _
    rw [hlength, h.rendered, eraseIdx_kept hm]
  · change trimmed.total - trimmed.sizes.getD (trimmed.rendered.length / 2) 0 = _
    rw [hlength, h.total, h.sizes, sum_eraseIdx hvictim, eraseIdx_kept (by omega)]
  · change trimmed.dropped + 1 = _
    rw [h.dropped]
    omega
  · change trimmed.sizes.eraseIdx (trimmed.rendered.length / 2) = _
    rw [hlength, h.sizes, eraseIdx_kept (by omega)]

/-- The drops stop at the most entries that fit, or at the two ends. -/
theorem trim_left (limit : ℕ) {drops : ℕ} (h : Left l sizes m trimmed)
    (hsizes : sizes.length = l.length) (hm : m ≤ l.length) (hdrops : m ≤ drops) :
    ∃ k ≤ m, Left l sizes k (trim limit drops trimmed) ∧
      ((kept sizes k).sum ≤ limit ∨ k ≤ 2) ∧
      ∀ j, k < j → j ≤ m → limit < (kept sizes j).sum ∧ 2 < j := by
  induction drops generalizing m trimmed with
  | zero =>
    obtain rfl := Nat.le_zero.mp hdrops
    exact ⟨0, le_rfl, h, .inr (Nat.zero_le _), fun j hj hle => absurd (hj.trans_le hle) (lt_irrefl 0)⟩
  | succ drops ih =>
    have hlength : trimmed.rendered.length = m := by rw [h.rendered, length_kept hm]
    by_cases hgo : limit < trimmed.total ∧ 2 < trimmed.rendered.length
    · rw [trim, if_pos hgo]
      rw [h.total, hlength] at hgo
      obtain ⟨rest, rfl⟩ := Nat.exists_eq_succ_of_ne_zero (by omega : m ≠ 0)
      obtain ⟨k, hk, hleft, hstop, hbefore⟩ :=
        ih (h.dropMiddle hsizes (by omega)) (by omega) (by omega)
      refine ⟨k, by omega, hleft, hstop, fun j hj hle => ?_⟩
      rcases Nat.lt_or_ge rest j with hlast | hrest
      · obtain rfl : j = rest + 1 := by omega
        exact hgo
      · exact hbefore j hj hrest
    · rw [trim, if_neg hgo]
      rw [h.total, hlength] at hgo
      refine ⟨m, le_rfl, h, by omega, fun j hj hle => absurd (hj.trans_le hle) (lt_irrefl m)⟩

/-! ### The same drops on other entries -/

def Trimmed.map (f : α → β) (trimmed : Trimmed α) : Trimmed β where
  rendered := trimmed.rendered.map f
  sizes := trimmed.sizes
  total := trimmed.total
  dropped := trimmed.dropped
  stats := trimmed.stats

/-- Which entries go depends on their sizes only. -/
theorem trim_map (f : α → β) (limit drops : ℕ) (trimmed : Trimmed α) :
    trim limit drops (trimmed.map f) = (trim limit drops trimmed).map f := by
  induction drops generalizing trimmed with
  | zero => rfl
  | succ drops ih =>
    have hdrop : (trimmed.map f).dropMiddle = trimmed.dropMiddle.map f := by
      simp [Trimmed.dropMiddle, Trimmed.map, eraseIdx_map]
    have hlength : (trimmed.map f).rendered.length = trimmed.rendered.length := by
      simp [Trimmed.map]
    by_cases hgo : limit < trimmed.total ∧ 2 < trimmed.rendered.length
    · rw [trim, if_pos (hlength.symm ▸ hgo), trim, if_pos hgo, hdrop, ih]
    · rw [trim, if_neg (hlength.symm ▸ hgo), trim, if_neg hgo]

theorem insertMarker_map (f : α → β) (marker : ℕ → α) (trimmed : Trimmed α) :
    insertMarker (fun dropped => f (marker dropped)) (trimmed.map f) =
      (insertMarker marker trimmed).map f := by
  have hlength : (trimmed.map f).rendered.length = trimmed.rendered.length := by
    simp [Trimmed.map]
  rw [insertMarker, insertMarker, hlength]
  change (if 0 < trimmed.dropped then (trimmed.rendered.map f).insertIdx _ _ else
    trimmed.rendered.map f) = _
  split_ifs with hdropped
  · exact (map_insertIdx ..).symm
  · rfl

/-! ### Where the entries of an answer come from -/

/-- An entry of a rendered trajectory: a message by its position, or a marker. -/
inductive Place where
  | kept (index : ℕ)
  | marker (dropped : ℕ)
  deriving DecidableEq

/-- What the judge sees of a message. -/
def judgeMessage (context : JudgeContext) (message : Message) : JudgeMessage where
  role := message.role.asStr
  content := (elide message.content context.maxMessageChars context.headRatio).1
  isError := message.isError

/-- The sizes of the messages as they are rendered. -/
def renderedSizes (messages : List Message) (context : JudgeContext) : List ℕ :=
  messages.map fun message => (judgeMessage context message).content.length

/-- The rendering on the positions of the messages instead of their texts. -/
def places (messages : List Message) (context : JudgeContext) : List Place :=
  let sizes := renderedSizes messages context
  let positions := (List.range messages.length).map Place.kept
  if sizes.sum ≤ context.maxTrajectoryChars then positions
  else insertMarker Place.marker
    (trim context.maxTrajectoryChars messages.length
      ⟨positions, sizes, sizes.sum, 0, (messages.foldl (renderMessage context) ([], {})).2⟩)

/-- What an entry shows. -/
def draw (messages : List Message) (context : JudgeContext) : Place → Option JudgeMessage
  | .kept index => (messages[index]?).map (judgeMessage context)
  | .marker dropped => some (droppedMarker dropped)

/-- The length of the marker, if there is one. -/
def markerChars (places : List Place) : ℕ :=
  (places.map fun
    | .kept _ => 0
    | .marker dropped => (droppedMarker dropped).content.length).sum

/-- The kept messages. -/
def keptCount (places : List Place) : ℕ :=
  places.countP fun
    | .kept _ => true
    | .marker _ => false

/-- All the messages, or a front and a back part of them with one marker between that counts the ones
that are gone. -/
def Marked (n : ℕ) (places : List Place) : Prop :=
  ∃ before dropped after : List ℕ, before ++ dropped ++ after = List.range n ∧
    ((dropped = [] ∧ places = (before ++ after).map Place.kept) ∨
      (dropped ≠ [] ∧ before ≠ [] ∧ after ≠ [] ∧
        places = before.map Place.kept ++ .marker dropped.length :: after.map Place.kept))

/-- What a rendering keeps. -/
structure Elides (messages : List Message) (context : JudgeContext) : Prop where
  drawn : (renderMessages messages context).1.map some =
    (places messages context).map (draw messages context)
  marked : Marked messages.length (places messages context)
  chars : (renderMessages messages context).2.renderedChars =
    ((renderMessages messages context).1.map fun message => message.content.length).sum
  budget : (renderMessages messages context).2.renderedChars ≤
      context.maxTrajectoryChars + markerChars (places messages context) ∨
    keptCount (places messages context) ≤ 2

/-- Where the marker goes where it should: nothing is dropped, there are at most four messages, or the
two first and the two last do not fit together. -/
def MarkerFits (limit : ℕ) (sizes : List ℕ) : Prop :=
  sizes.sum ≤ limit ∨ sizes.length ≤ 4 ∨
    limit < (sizes.take 2 ++ sizes.drop (sizes.length - 2)).sum

/-! ### The marker's place -/

theorem insertIdx_append {front back : List α} (a : α) :
    (front ++ back).insertIdx front.length a = front ++ a :: back := by
  induction front with
  | nil => rfl
  | cons first front ih => simp [ih]

/-- An entry among kept ones stands where its list is split. -/
theorem getElem?_marked {before after : List ℕ} {dropped index : ℕ} :
    (before.map Place.kept ++ .marker dropped :: after.map Place.kept)[index]? =
      if index < before.length then before[index]?.map Place.kept
      else if index = before.length then some (.marker dropped)
      else after[index - before.length - 1]?.map Place.kept := by
  split_ifs with hlt heq
  · rw [getElem?_append_left (by simpa using hlt), getElem?_map]
  · rw [getElem?_append_right (by simp [heq])]
    simp [heq]
  · rw [getElem?_append_right (by simpa using Nat.le_of_not_lt hlt), length_map,
      getElem?_cons, if_neg (by omega), getElem?_map]

variable {n k : ℕ}

/-- With two or three messages left the marker stands where the others were. -/
theorem marked_insertIdx (hk : 2 ≤ k) (hthree : k ≤ 3) (hkn : k < n) :
    Marked n ((kept ((List.range n).map Place.kept) k).insertIdx (max (k - 1) 1) (.marker (n - k))) := by
  have hfront : (((List.range n).take ((k + 1) / 2)).map Place.kept).length = max (k - 1) 1 := by
    rw [length_map, length_take, length_range]
    omega
  refine ⟨(List.range n).take ((k + 1) / 2),
    ((List.range n).drop ((k + 1) / 2)).take (n - k), (List.range n).drop (n - k / 2), ?_,
    .inr ⟨?_, ?_, ?_, ?_⟩⟩
  · have hdrop : (List.range n).drop (n - k / 2) =
        ((List.range n).drop ((k + 1) / 2)).drop (n - k) := by
      rw [drop_drop]
      congr 1
      omega
    rw [hdrop, append_assoc, take_append_drop, take_append_drop]
  · refine ne_nil_of_length_pos ?_
    rw [length_take, length_drop, length_range]
    omega
  · refine ne_nil_of_length_pos ?_
    rw [length_take, length_range]
    omega
  · refine ne_nil_of_length_pos ?_
    rw [length_drop, length_range]
    omega
  · have hcount : (((List.range n).drop ((k + 1) / 2)).take (n - k)).length = n - k := by
      rw [length_take, length_drop, length_range]
      omega
    rw [hcount, kept_map, kept, map_append, ← hfront, insertIdx_append, length_range]

/-- With more left it stands behind messages that came after the others. -/
theorem not_marked_insertIdx (hk : 4 ≤ k) (hkn : k < n) :
    ¬ Marked n ((kept ((List.range n).map Place.kept) k).insertIdx (max (k - 1) 1)
      (.marker (n - k))) := by
  have hmax : max (k - 1) 1 = k - 1 := by omega
  have hlength : (kept ((List.range n).map Place.kept) k).length = k :=
    length_kept (by simpa using hkn.le)
  rw [hmax]
  generalize hplaces : (kept ((List.range n).map Place.kept) k).insertIdx (k - 1) (.marker (n - k)) =
    places
  have hmarker : places[k - 1]? = some (.marker (n - k)) := by
    rw [← hplaces, getElem?_insertIdx_self, if_pos (by omega)]
  -- The first message of the back part comes before the marker.
  have hback : places[(k + 1) / 2]? = some (.kept (n - k / 2)) := by
    rw [← hplaces, getElem?_insertIdx_of_lt (by omega), kept,
      getElem?_append_right (by simp), length_take, length_map, length_range,
      min_eq_left (by omega), Nat.sub_self, getElem?_drop, getElem?_map,
      getElem?_range (by omega)]
    rfl
  rintro ⟨before, dropped, after, hrange, ⟨_, hall⟩ | ⟨_, _, _, hall⟩⟩
  · rw [hall, getElem?_map] at hmarker
    obtain ⟨index, _, heq⟩ := Option.map_eq_some_iff.mp hmarker
    cases heq
  · rw [hall, getElem?_marked] at hmarker hback
    have hsplit : before.length = k - 1 := by
      split_ifs at hmarker with hlt heq
      · obtain ⟨index, _, heq⟩ := Option.map_eq_some_iff.mp hmarker
        cases heq
      · exact heq.symm
      · obtain ⟨index, _, heq⟩ := Option.map_eq_some_iff.mp hmarker
        cases heq
    have hlt : (k + 1) / 2 < before.length := by omega
    rw [if_pos hlt] at hback
    have hbefore : before[(k + 1) / 2]? = some ((k + 1) / 2) := by
      have hwhole : (before ++ dropped ++ after)[(k + 1) / 2]? = some ((k + 1) / 2) := by
        rw [hrange, getElem?_range (by omega)]
      rwa [append_assoc, getElem?_append_left hlt] at hwhole
    rw [hbefore] at hback
    have hindex := Place.kept.inj (Option.some.inj hback)
    omega

/-! ### A whole trajectory -/

variable {messages : List Message} {context : JudgeContext}

/-- The first pass renders every message and adds up what it renders. -/
theorem foldl_renderMessage (messages : List Message) (context : JudgeContext)
    (state : List JudgeMessage × RenderStats) :
    (messages.foldl (renderMessage context) state).1 =
        state.1 ++ messages.map (judgeMessage context) ∧
      (messages.foldl (renderMessage context) state).2.renderedChars =
        state.2.renderedChars + (renderedSizes messages context).sum := by
  induction messages generalizing state with
  | nil => simp [renderedSizes]
  | cons message messages ih =>
    rw [foldl_cons]
    obtain ⟨hrendered, hchars⟩ := ih (renderMessage context state message)
    have hfirst : (renderMessage context state message).1 =
        state.1 ++ [judgeMessage context message] := rfl
    have hcount : (renderMessage context state message).2.renderedChars =
        state.2.renderedChars + (judgeMessage context message).content.length := by
      rw [renderMessage]
      dsimp only
      split_ifs <;> rfl
    refine ⟨by rw [hrendered, hfirst, map_cons, append_assoc, singleton_append], ?_⟩
    rw [hchars, hcount, renderedSizes, renderedSizes, map_cons, sum_cons, Nat.add_assoc]

theorem length_renderedSizes : (renderedSizes messages context).length = messages.length :=
  length_map ..

/-- A trajectory that fits is rendered whole. -/
theorem renderMessages_of_fits
    (h : (renderedSizes messages context).sum ≤ context.maxTrajectoryChars) :
    (renderMessages messages context).1 = messages.map (judgeMessage context) ∧
      (renderMessages messages context).2.renderedChars = (renderedSizes messages context).sum := by
  obtain ⟨hrendered, hchars⟩ := foldl_renderMessage messages context ([], {})
  have hzero : (messages.foldl (renderMessage context) ([], {})).2.renderedChars =
      (renderedSizes messages context).sum := by rw [hchars, Nat.zero_add]
  rw [renderMessages]
  dsimp only
  rw [if_pos (hzero.trans_le h)]
  exact ⟨hrendered, hzero⟩

/-- The drops of a trajectory that does not fit. -/
def trimmedMessages (messages : List Message) (context : JudgeContext) : Trimmed JudgeMessage :=
  trim context.maxTrajectoryChars messages.length
    ⟨messages.map (judgeMessage context), renderedSizes messages context,
      (renderedSizes messages context).sum, 0,
      (messages.foldl (renderMessage context) ([], {})).2⟩

theorem renderMessages_of_not_fits
    (h : ¬ (renderedSizes messages context).sum ≤ context.maxTrajectoryChars) :
    (renderMessages messages context).1 = insertMarker droppedMarker (trimmedMessages messages context) ∧
      (renderMessages messages context).2.renderedChars = (trimmedMessages messages context).total +
        if 0 < (trimmedMessages messages context).dropped then
          (droppedMarker (trimmedMessages messages context).dropped).content.length else 0 := by
  obtain ⟨hrendered, hchars⟩ := foldl_renderMessage messages context ([], {})
  rw [nil_append] at hrendered
  have hzero : (messages.foldl (renderMessage context) ([], {})).2.renderedChars =
      (renderedSizes messages context).sum := by rw [hchars, Nat.zero_add]
  have hsizes : (messages.map (judgeMessage context)).map (fun message => message.content.length) =
      renderedSizes messages context := by
    rw [map_map]
    rfl
  rw [renderMessages]
  dsimp only
  rw [hzero, if_neg h, hrendered, hsizes, length_map]
  exact ⟨rfl, rfl⟩

/-- The rendering is the rendering of the positions, drawn. -/
theorem renderMessages_places : (renderMessages messages context).1.map some =
    (places messages context).map (draw messages context) := by
  have hdraw : ((List.range messages.length).map Place.kept).map (draw messages context) =
      (messages.map (judgeMessage context)).map some := by
    refine ext_getElem (by simp) fun index h₁ h₂ => ?_
    have hlt : index < messages.length := by simpa using h₂
    simp [draw, hlt]
  by_cases hfits : (renderedSizes messages context).sum ≤ context.maxTrajectoryChars
  · rw [(renderMessages_of_fits hfits).1, places, if_pos hfits, hdraw]
  · rw [(renderMessages_of_not_fits hfits).1, places, if_neg hfits, ← insertMarker_map,
      ← insertMarker_map, trimmedMessages, ← trim_map, ← trim_map, Trimmed.map, Trimmed.map, hdraw]
    rfl

/-- `k` messages are the most that fit, or the two ends. -/
structure Stops (messages : List Message) (context : JudgeContext) (k : ℕ) : Prop where
  le : k ≤ messages.length
  stop : (kept (renderedSizes messages context) k).sum ≤ context.maxTrajectoryChars ∨ k ≤ 2
  more (j : ℕ) (hj : k < j) (hle : j ≤ messages.length) :
    context.maxTrajectoryChars < (kept (renderedSizes messages context) j).sum ∧ 2 < j

theorem Stops.not_lt {j k : ℕ} (hj : Stops messages context j) (hk : Stops messages context k) :
    ¬ j < k := by
  intro hlt
  have hmore := hj.more k hlt hk.le
  have hstop := hk.stop
  omega

/-- The drops stop at one number of messages. -/
theorem Stops.unique {j k : ℕ} (hj : Stops messages context j) (hk : Stops messages context k) :
    j = k :=
  le_antisymm (Nat.le_of_not_lt (hk.not_lt hj)) (Nat.le_of_not_lt (hj.not_lt hk))

/-- How many messages are left of a trajectory. -/
theorem exists_left (messages : List Message) (context : JudgeContext) (l : List α) (hl : l.length = messages.length) (stats : RenderStats) :
    ∃ k, Stops messages context k ∧ Left l (renderedSizes messages context) k
      (trim context.maxTrajectoryChars messages.length
        ⟨l, renderedSizes messages context, (renderedSizes messages context).sum, 0, stats⟩) := by
  have hsizes : (renderedSizes messages context).length = messages.length := length_renderedSizes
  have hself : kept (renderedSizes messages context) messages.length =
      renderedSizes messages context := by rw [← hsizes, kept_length_self]
  have hstart : Left l (renderedSizes messages context) messages.length
      ⟨l, renderedSizes messages context, (renderedSizes messages context).sum, 0, stats⟩ :=
    ⟨by rw [← hl, kept_length_self], by rw [hself], by rw [hl, Nat.sub_self], hself.symm⟩
  obtain ⟨k, hk, hleft, hstop, hbefore⟩ :=
    trim_left context.maxTrajectoryChars hstart (hsizes.trans hl.symm) hl.ge le_rfl
  exact ⟨k, ⟨hk, hstop, hbefore⟩, hleft⟩

theorem length_kept_sizes {k : ℕ} (l : List α) (hl : l.length = messages.length)
    (hk : k ≤ messages.length) : (kept l k).length = k :=
  length_kept (hk.trans hl.ge)

/-- A trajectory that does not fit, with the number of messages left of it. -/
structure Cut (messages : List Message) (context : JudgeContext) (k : ℕ) : Prop where
  stops : Stops messages context k
  total : (trimmedMessages messages context).total =
    (kept (renderedSizes messages context) k).sum
  dropped : (trimmedMessages messages context).dropped = messages.length - k
  rendered : (renderMessages messages context).1 =
    if k < messages.length then
      (kept (messages.map (judgeMessage context)) k).insertIdx (max (k - 1) 1)
        (droppedMarker (messages.length - k))
    else kept (messages.map (judgeMessage context)) k
  placed : places messages context =
    if k < messages.length then
      (kept ((List.range messages.length).map Place.kept) k).insertIdx (max (k - 1) 1)
        (.marker (messages.length - k))
    else kept ((List.range messages.length).map Place.kept) k

theorem insertMarker_left {sizes : List ℕ} {k : ℕ} (h : Left l sizes k trimmed)
    (hk : k ≤ l.length) (marker : ℕ → α) : insertMarker marker trimmed =
      if k < l.length then (kept l k).insertIdx (max (k - 1) 1) (marker (l.length - k))
      else kept l k := by
  rw [insertMarker, h.rendered, h.dropped, length_kept hk]
  simp only [Nat.sub_pos_iff_lt]

theorem exists_cut (h : ¬ (renderedSizes messages context).sum ≤ context.maxTrajectoryChars) :
    ∃ k, Cut messages context k := by
  obtain ⟨k, hstops, hleft⟩ := exists_left messages context
    (messages.map (judgeMessage context)) (length_map ..)
    (messages.foldl (renderMessage context) ([], {})).2
  obtain ⟨k', hstops', hleft'⟩ := exists_left messages context
    ((List.range messages.length).map Place.kept) (by simp)
    (messages.foldl (renderMessage context) ([], {})).2
  obtain rfl := hstops.unique hstops'
  refine ⟨k, hstops, hleft.total, ?_, ?_, ?_⟩
  · rw [trimmedMessages, hleft.dropped, length_map]
  · have hle : k ≤ (messages.map (judgeMessage context)).length := by simpa using hstops.le
    rw [(renderMessages_of_not_fits h).1, trimmedMessages, insertMarker_left hleft hle]
    simp only [length_map]
  · rw [places, if_neg h, insertMarker_left hleft' (by simpa using hstops.le) Place.marker]
    simp only [length_map, length_range]

/-! ### What the answers hold -/

variable {k : ℕ}

theorem Cut.chars (h : Cut messages context k)
    (hfits : ¬ (renderedSizes messages context).sum ≤ context.maxTrajectoryChars) :
    (renderMessages messages context).2.renderedChars =
      ((renderMessages messages context).1.map fun message => message.content.length).sum := by
  have hkept : ((kept (messages.map (judgeMessage context)) k).map
      fun message => message.content.length).sum = (kept (renderedSizes messages context) k).sum := by
    rw [← kept_map, map_map]
    rfl
  rw [(renderMessages_of_not_fits hfits).2, h.total, h.dropped, h.rendered]
  simp only [Nat.sub_pos_iff_lt]
  split_ifs with hlt
  · have htwo := (h.stops.more (k + 1) (Nat.lt_succ_self k) hlt).2
    have hperm : ((kept (messages.map (judgeMessage context)) k).insertIdx (max (k - 1) 1)
        (droppedMarker (messages.length - k))).Perm
        (droppedMarker (messages.length - k) :: kept (messages.map (judgeMessage context)) k) := by
      refine perm_insertIdx _ _ ?_
      rw [length_kept_sizes _ (length_map ..) h.stops.le]
      omega
    rw [(hperm.map _).sum_eq, map_cons, sum_cons, hkept, Nat.add_comm]
  · rw [hkept, Nat.add_zero]

theorem Cut.budget (h : Cut messages context k)
    (hfits : ¬ (renderedSizes messages context).sum ≤ context.maxTrajectoryChars) :
    (renderMessages messages context).2.renderedChars ≤
        context.maxTrajectoryChars + markerChars (places messages context) ∨
      keptCount (places messages context) ≤ 2 := by
  have hlength : (kept ((List.range messages.length).map Place.kept) k).length = k :=
    length_kept_sizes _ (by simp) h.stops.le
  have hcount : keptCount (kept ((List.range messages.length).map Place.kept) k) ≤ k :=
    countP_le_length.trans hlength.le
  have hperm (hlt : k < messages.length) : (places messages context).Perm
      (.marker (messages.length - k) :: kept ((List.range messages.length).map Place.kept) k) := by
    rw [h.placed, if_pos hlt]
    refine perm_insertIdx _ _ ?_
    have htwo := (h.stops.more (k + 1) (Nat.lt_succ_self k) hlt).2
    omega
  rcases h.stops.stop with hstop | htwo
  · left
    rw [(renderMessages_of_not_fits hfits).2, h.total, h.dropped]
    simp only [Nat.sub_pos_iff_lt]
    split_ifs with hlt
    · rw [markerChars, ((hperm hlt).map _).sum_eq, map_cons, sum_cons]
      exact Nat.add_le_add hstop (Nat.le_add_right _ _)
    · omega
  · right
    by_cases hlt : k < messages.length
    · rw [keptCount, (hperm hlt).countP_eq, countP_cons_of_neg (by simp)]
      exact hcount.trans htwo
    · rw [h.placed, if_neg hlt]
      exact hcount.trans htwo

/-- The marker is right when it stands behind the second message or the third. -/
theorem Cut.marked_iff (h : Cut messages context k) :
    Marked messages.length (places messages context) ↔ k = messages.length ∨ k ≤ 3 := by
  rw [h.placed]
  split_ifs with hlt
  · have htwo := (h.stops.more (k + 1) (Nat.lt_succ_self k) hlt).2
    by_cases hthree : k ≤ 3
    · exact iff_of_true (marked_insertIdx (by omega) hthree hlt) (.inr hthree)
    · exact iff_of_false (not_marked_insertIdx (by omega) hlt) (by omega)
  · have hall : k = messages.length := le_antisymm h.stops.le (Nat.le_of_not_lt hlt)
    refine iff_of_true ?_ (.inl hall)
    refine ⟨List.range messages.length, [], [], by simp, .inl ⟨rfl, ?_⟩⟩
    have hself := kept_length_self ((List.range messages.length).map Place.kept)
    rw [length_map, length_range] at hself
    rw [hall, hself, append_nil]

/-- More than three messages of a longer trajectory are left when the two first and the two last fit. -/
theorem Cut.markerFits_iff (h : Cut messages context k)
    (hfits : ¬ (renderedSizes messages context).sum ≤ context.maxTrajectoryChars) :
    MarkerFits context.maxTrajectoryChars (renderedSizes messages context) ↔
      k = messages.length ∨ k ≤ 3 := by
  have hlength : (renderedSizes messages context).length = messages.length := length_renderedSizes
  have hfour : kept (renderedSizes messages context) 4 =
      (renderedSizes messages context).take 2 ++
        (renderedSizes messages context).drop ((renderedSizes messages context).length - 2) := rfl
  rw [MarkerFits, ← hfour, hlength]
  constructor
  · rintro (hsum | hshort | hends)
    · exact absurd hsum hfits
    · have hle := h.stops.le
      omega
    · by_contra hnot
      have hle := h.stops.le
      have hmono := (kept_sublist (l := renderedSizes messages context) (by omega : 4 ≤ k)
        (by omega)).sum_le_sum fun _ _ => Nat.zero_le _
      rcases h.stops.stop with hstop | htwo
      · omega
      · omega
  · rintro (hall | hthree)
    · have hself := kept_length_self (renderedSizes messages context)
      rw [hlength, ← hall] at hself
      have hstop := h.stops.stop
      rw [hself] at hstop
      omega
    · by_cases hshort : messages.length ≤ 4
      · exact .inr (.inl hshort)
      · exact .inr (.inr (h.stops.more 4 (by omega) (by omega)).1)

/-- What a rendering keeps, it keeps exactly where the marker fits. -/
theorem elides_iff : Elides messages context ↔
    MarkerFits context.maxTrajectoryChars (renderedSizes messages context) := by
  by_cases hfits : (renderedSizes messages context).sum ≤ context.maxTrajectoryChars
  · obtain ⟨hrendered, hchars⟩ := renderMessages_of_fits hfits
    have hplaces : places messages context = (List.range messages.length).map Place.kept := by
      rw [places, if_pos hfits]
    refine iff_of_true ⟨renderMessages_places, ?_, ?_, .inl ?_⟩ (.inl hfits)
    · exact ⟨List.range messages.length, [], [], by simp, .inl ⟨rfl, by rw [hplaces, append_nil]⟩⟩
    · rw [hchars, hrendered, map_map]
      rfl
    · rw [hchars]
      exact hfits.trans (Nat.le_add_right _ _)
  · obtain ⟨k, hcut⟩ := exists_cut hfits
    rw [hcut.markerFits_iff hfits, ← hcut.marked_iff]
    exact ⟨fun h => h.marked, fun h =>
      ⟨renderMessages_places, h, hcut.chars hfits, hcut.budget hfits⟩⟩

/-! ### One message -/

/-- What an elided text keeps: at most the given number of characters, which are the text's own or a
front and a back part of it around a marker. -/
def Shortens (text : String) (maxChars : ℕ) (headRatio : Float32) : Prop :=
  (elide text maxChars headRatio).1.length ≤ maxChars ∧
    ((elide text maxChars headRatio).1 = text ∨
      ∃ head middle tail : List Char, ∃ marker : String, text.toList = head ++ middle ++ tail ∧
        (elide text maxChars headRatio).1 = .ofList head ++ marker ++ .ofList tail)

/-- Where the marker fits: the text is short enough, or the limit has room for the marker alone, or for
the marker beside what is kept. -/
def ElideFits (text : String) (maxChars : ℕ) : Prop :=
  text.length ≤ maxChars ∨
    if maxChars ≤ markerBudget then 15 ≤ maxChars ∧ text.length < 10 ^ (maxChars - 15)
    else text.length - (maxChars - markerBudget) < 10 ^ 15

theorem length_marker (count : ℕ) :
    (s!"[{count} chars elided]").length = 15 + (toString count).length := by
  change ("[" ++ toString count ++ " chars elided]").length = _
  rw [String.length_append, String.length_append]
  have hopen : "[".length = 1 := rfl
  have hclose : " chars elided]".length = 14 := rfl
  omega

/-- The marker of a text with characters has at least sixteen. -/
theorem length_toString_le_iff {count digits : ℕ} (hcount : 0 < count) :
    (toString count).length ≤ digits ↔ count < 10 ^ digits := by
  change count.repr.length ≤ digits ↔ _
  cases digits with
  | zero =>
    have hpos := Nat.length_repr_pos (n := count)
    exact iff_of_false (by omega) (by simpa using hcount.ne')
  | succ digits => exact Nat.length_repr_le_iff (Nat.succ_pos digits)

/-- Eliding keeps a front and a back part, whatever the limit. -/
theorem shortens_iff {text : String} {maxChars : ℕ} {headRatio : Float32} :
    Shortens text maxChars headRatio ↔ ElideFits text maxChars := by
  by_cases hshort : text.length ≤ maxChars
  · have helide : elide text maxChars headRatio = (text, 0) := by rw [elide, if_pos hshort]
    rw [Shortens, helide]
    exact iff_of_true ⟨hshort, .inl rfl⟩ (.inl hshort)
  have hlong : maxChars < text.length := Nat.lt_of_not_le hshort
  have htotal : text.toList.length = text.length := String.length_toList
  by_cases hbudget : maxChars ≤ markerBudget
  · -- The marker stands alone.
    have helide : elide text maxChars headRatio =
        (s!"[{text.length} chars elided]", text.length) := by
      rw [elide, if_neg hshort, if_pos (Nat.sub_eq_zero_of_le hbudget)]
    have hparts : ∃ head middle tail : List Char, ∃ marker : String,
        text.toList = head ++ middle ++ tail ∧
          (elide text maxChars headRatio).1 = .ofList head ++ marker ++ .ofList tail :=
      ⟨[], text.toList, [], s!"[{text.length} chars elided]", by simp, by
        rw [helide]
        simp⟩
    rw [Shortens, ElideFits, if_pos hbudget, and_iff_left (.inr hparts), or_iff_right hshort, helide,
      length_marker, ← length_toString_le_iff (by omega)]
    omega
  · -- The marker stands between what is kept.
    generalize hkeep : maxChars - markerBudget = keep
    have hpos : ¬ keep = 0 := by omega
    have helide : elide text maxChars headRatio =
        (.ofList (text.toList.take (headChars keep headRatio)) ++
          s!"\n[{text.length - keep} chars elided]\n" ++
          .ofList (text.toList.drop (text.length - (keep - headChars keep headRatio))),
          text.length - keep) := by
      rw [elide, if_neg hshort, hkeep, if_neg hpos]
    have hhead : headChars keep headRatio ≤ keep := Nat.min_le_right ..
    generalize headChars keep headRatio = head at helide hhead
    have hparts : ∃ head middle tail : List Char, ∃ marker : String,
        text.toList = head ++ middle ++ tail ∧
          (elide text maxChars headRatio).1 = .ofList head ++ marker ++ .ofList tail := by
      refine ⟨text.toList.take head, (text.toList.drop head).take (text.length - keep),
        text.toList.drop (text.length - (keep - head)), s!"\n[{text.length - keep} chars elided]\n",
        ?_, by rw [helide]⟩
      have hdrop : text.toList.drop (text.length - (keep - head)) =
          (text.toList.drop head).drop (text.length - keep) := by
        rw [drop_drop]
        congr 1
        omega
      rw [hdrop, append_assoc, take_append_drop, take_append_drop]
    have hmarker : (s!"\n[{text.length - keep} chars elided]\n").length =
        17 + (toString (text.length - keep)).length := by
      change ("\n[" ++ toString (text.length - keep) ++ " chars elided]\n").length = _
      rw [String.length_append, String.length_append]
      have hopen : "\n[".length = 2 := rfl
      have hclose : " chars elided]\n".length = 15 := rfl
      omega
    rw [Shortens, ElideFits, if_neg hbudget, and_iff_left (.inr hparts), or_iff_right hshort, helide,
      hkeep, ← length_toString_le_iff (by omega)]
    simp only [String.length_append, String.length_ofList, length_take, length_drop,
      htotal, hmarker, markerBudget] at *
    omega

/-- **Elision**: a text is shortened to its limit exactly where the marker fits the limit, and a trajectory
keeps its ends with the marker in the gap exactly where the marker fits the gap. -/
theorem elision (text : String) (maxChars : ℕ) (headRatio : Float32) (messages : List Message)
    (context : JudgeContext) :
    (Shortens text maxChars headRatio ↔ ElideFits text maxChars) ∧
      (Elides messages context ↔
        MarkerFits context.maxTrajectoryChars (renderedSizes messages context)) :=
  ⟨shortens_iff, elides_iff⟩

/-- A limit of ten characters. -/
def tenChars : JudgeContext := { maxTrajectoryChars := 10, maxMessageChars := 10 }

/-- Five messages of which four fit. -/
def fiveMessages : List Message :=
  ["aa", "bb", "cccc", "dd", "ee"].map fun content => Message.text .assistant content

/-- The marker of a dropped message stands behind a message that came after it, and the marker of an
elided text is longer than the limit. -/
theorem elision_misplaced : tenChars.validate = .ok () ∧
    (places fiveMessages tenChars = [.kept 0, .kept 1, .kept 3, .marker 1, .kept 4] ∧
      ¬ Marked 5 (places fiveMessages tenChars)) ∧
    (elide "a long observation" 10 0.5).1 = "[18 chars elided]" := by
  have hplaces : places fiveMessages tenChars =
      [.kept 0, .kept 1, .kept 3, .marker 1, .kept 4] := by decide +kernel
  have hratio : (!tenChars.headRatio.isFinite ||
      !(decide (0 ≤ tenChars.headRatio) && decide (tenChars.headRatio ≤ 1))) = false := by
    decide +kernel
  refine ⟨?_, ⟨hplaces, ?_⟩, by decide +kernel⟩
  · rw [JudgeContext.validate, if_neg (by decide), if_neg (by decide), if_neg (by decide),
      if_neg (by rw [hratio]; simp)]
  · rw [hplaces]
    exact not_marked_insertIdx (n := 5) (k := 4) le_rfl (by decide)

end Retrograd.Judge
