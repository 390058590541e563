import Mathlib.Data.List.Infix
import Mathlib.Order.Bounds.Basic
import Retrograd.Infer.Detok
import Retrograd.Logic.Utf8

/-!
# The text a detokenizer emits

Feeding pieces to a `Detokenizer` emits **the decoded text up to the first stop**: the stop that
begins first in the text of the pieces fed, at the first piece after which there is one, and the
whole text when there is none (`feed_spec`). A stop may end before another one that began earlier
does, and then it depends on the cut which of them is found; where no stop lies within another, the
cut does not matter (`feed_eq`).
-/

namespace Retrograd.Infer

open Logic List Option

/-! ### Decoding a buffer -/

section Drain

/-- What decoding makes of the bytes `part ++ bytes` when the first step is this one. -/
private def stepped (bytes : Bytes) : Utf8Step → Bytes × Bytes
  | .char n => (bytes.take n ++ (decode (bytes.drop n)).1, (decode (bytes.drop n)).2)
  | .invalid n => (replacement ++ (decode (bytes.drop n)).1, (decode (bytes.drop n)).2)
  | .incomplete => ([], bytes)

/-- Decoding from within a character, or after a complete one. -/
private def decodedFrom (part : Bytes) (owed : List ByteRange) (bytes : Bytes) : Bytes × Bytes :=
  match owed with
  | [] => (part ++ (decode bytes).1, (decode bytes).2)
  | range :: owed =>
    let decoded := decodeFrom ⟨part, range :: owed⟩ bytes
    (decoded.1, decoded.2.bytes)

private theorem decode_cons (b : UInt8) (bytes : Bytes) :
    decode (b :: bytes) = ((PartialChar.begin b).1 ++ (decodeFrom (PartialChar.begin b).2 bytes).1,
      (decodeFrom (PartialChar.begin b).2 bytes).2.bytes) := rfl

private theorem decode_begun {b : UInt8} {owed : List ByteRange} (h : owes b = some owed)
    (bytes : Bytes) : decode (b :: bytes) = decodedFrom [b] owed bytes := by
  rw [decode_cons, PartialChar.begin, h]
  cases owed with
  | nil => rfl
  | cons range owed => simp [decodedFrom]

/-- A byte that is not owed begins anew. -/
private theorem decodedFrom_not_has {range : ByteRange} {b : UInt8} (h : ¬ range.Has b)
    (part : Bytes) (owed : List ByteRange) (bytes : Bytes) :
    decodedFrom part (range :: owed) (b :: bytes) =
      (replacement ++ (decode (b :: bytes)).1, (decode (b :: bytes)).2) := by
  simp [decodedFrom, decodeFrom, PartialChar.step, h, decode_cons]

private theorem decodedFrom_has {range : ByteRange} {b : UInt8} (h : range.Has b)
    (part : Bytes) (owed : List ByteRange) (bytes : Bytes) :
    decodedFrom part (range :: owed) (b :: bytes) = decodedFrom (part ++ [b]) owed bytes := by
  cases owed with
  | nil => simp [decodedFrom, decodeFrom, PartialChar.step, h, decode]
  | cons next owed => simp [decodedFrom, decodeFrom, PartialChar.step, h]

private theorem has_iff {lo hi b : UInt8} :
    (decide (lo ≤ b) && decide (b ≤ hi)) = true ↔ ByteRange.Has (lo, hi) b := by
  simp [ByteRange.Has]

private theorem utf8Tail_spec (k : ℕ) (part bytes : Bytes) :
    decodedFrom part (List.replicate k continuation) bytes =
      stepped (part ++ bytes) (utf8Tail part.length k bytes) := by
  induction k generalizing part bytes with
  | zero => simp [utf8Tail, stepped, decodedFrom]
  | succ k ih =>
    cases bytes with
    | nil => simp [utf8Tail, stepped, decodedFrom, replicate_succ, decodeFrom]
    | cons b bytes =>
      rw [replicate_succ, utf8Tail]
      split
      · next hhas =>
        have hnext := ih (part ++ [b]) bytes
        rw [append_assoc, singleton_append, length_append,
          length_singleton] at hnext
        have hin : continuation.Has b := has_iff.mp hhas
        rw [decodedFrom_has hin, hnext]
      · next hhas =>
        have hout : ¬ continuation.Has b := mt has_iff.mpr hhas
        rw [decodedFrom_not_has hout]
        simp [stepped]

private theorem utf8Second_spec (lo hi : UInt8) (k : ℕ) (b : UInt8) (bytes : Bytes) :
    decodedFrom [b] ((lo, hi) :: List.replicate k continuation) bytes =
      stepped (b :: bytes) (utf8Second lo hi k bytes) := by
  cases bytes with
  | nil => simp [utf8Second, stepped, decodedFrom, decodeFrom]
  | cons b' bytes =>
    rw [utf8Second]
    split
    · next hhas =>
      rw [decodedFrom_has (has_iff.mp hhas), utf8Tail_spec]
      rfl
    · next hhas =>
      rw [decodedFrom_not_has (mt has_iff.mpr hhas)]
      simp [stepped]

/-- The first step of a buffer splits it as decoding does. -/
private theorem utf8Step_spec (bytes : Bytes) : decode bytes = stepped bytes (utf8Step bytes) := by
  cases bytes with
  | nil => rfl
  | cons b bytes =>
    have hsecond {lo hi : UInt8} {k : ℕ}
        (h : owes b = some ((lo, hi) :: List.replicate k continuation)) :
        decode (b :: bytes) = stepped (b :: bytes) (utf8Second lo hi k bytes) := by
      rw [decode_begun h, utf8Second_spec]
    unfold utf8Step
    simp only [Bool.and_eq_true, decide_eq_true_eq]
    split
    · next h =>
      have howes : owes b = some [] := by rw [owes, if_pos h]
      rw [decode_begun howes]
      rfl
    next h₁ =>
    split
    · next h => exact hsecond (by rw [owes, if_neg h₁, if_pos h]; rfl)
    next h₂ =>
    split
    · next h => exact hsecond (by rw [owes, if_neg h₁, if_neg h₂, if_pos h]; rfl)
    next h₃ =>
    split
    · next h => exact hsecond (by rw [owes, if_neg h₁, if_neg h₂, if_neg h₃, if_pos h]; rfl)
    next h₄ =>
    split
    · next h =>
      exact hsecond (by rw [owes, if_neg h₁, if_neg h₂, if_neg h₃, if_neg h₄, if_pos h]; rfl)
    next h₅ =>
    split
    · next h =>
      exact hsecond (by
        rw [owes, if_neg h₁, if_neg h₂, if_neg h₃, if_neg h₄, if_neg h₅, if_pos h]; rfl)
    next h₆ =>
    split
    · next h =>
      exact hsecond (by
        rw [owes, if_neg h₁, if_neg h₂, if_neg h₃, if_neg h₄, if_neg h₅, if_neg h₆, if_pos h]; rfl)
    next h₇ =>
    split
    · next h =>
      exact hsecond (by
        rw [owes, if_neg h₁, if_neg h₂, if_neg h₃, if_neg h₄, if_neg h₅, if_neg h₆, if_neg h₇,
          if_pos h]
        rfl)
    next h₈ =>
    have howes : owes b = none := by
      rw [owes, if_neg h₁, if_neg h₂, if_neg h₃, if_neg h₄, if_neg h₅, if_neg h₆, if_neg h₇,
        if_neg h₈]
    rw [decode_cons, PartialChar.begin, howes]
    rfl

/-- A step takes bytes off a buffer. -/
private def Moves : Utf8Step → Prop
  | .char n => 0 < n
  | .invalid n => 0 < n
  | .incomplete => True

private theorem utf8Tail_moves (k read : ℕ) (bytes : Bytes) (h : 0 < read) :
    Moves (utf8Tail read k bytes) := by
  induction k generalizing read bytes with
  | zero => exact h
  | succ k ih =>
    cases bytes with
    | nil => trivial
    | cons b bytes =>
      rw [utf8Tail]
      split
      · exact ih (read + 1) bytes (Nat.succ_pos read)
      · exact h

private theorem utf8Second_moves (lo hi : UInt8) (k : ℕ) (bytes : Bytes) :
    Moves (utf8Second lo hi k bytes) := by
  cases bytes with
  | nil => trivial
  | cons b bytes =>
    rw [utf8Second]
    split
    · exact utf8Tail_moves k 2 bytes Nat.two_pos
    · exact Nat.one_pos

private theorem utf8Step_moves (bytes : Bytes) : Moves (utf8Step bytes) := by
  cases bytes with
  | nil => trivial
  | cons b bytes =>
    rw [utf8Step]
    split_ifs <;> first | exact utf8Second_moves .. | exact Nat.one_pos

/-- **Draining a buffer decodes it.** -/
theorem drainUtf8_eq {fuel : ℕ} {bytes : Bytes} (h : bytes.length ≤ fuel) :
    drainUtf8 fuel bytes = decode bytes := by
  induction fuel generalizing bytes with
  | zero =>
    obtain rfl : bytes = [] := length_eq_zero_iff.mp (Nat.le_zero.mp h)
    rfl
  | succ fuel ih =>
    have hdrop {n : ℕ} (hn : 0 < n) : (bytes.drop n).length ≤ fuel := by
      rw [length_drop]
      omega
    have hmoves := utf8Step_moves bytes
    rw [utf8Step_spec, drainUtf8]
    cases hstep : utf8Step bytes with
    | char n =>
      rw [hstep] at hmoves
      dsimp only
      rw [ih (hdrop hmoves)]
      rfl
    | invalid n =>
      rw [hstep] at hmoves
      dsimp only
      rw [ih (hdrop hmoves)]
      rfl
    | incomplete => rfl

theorem fromUtf8Lossy_eq (bytes : Bytes) : fromUtf8Lossy bytes = lossy bytes := by
  unfold fromUtf8Lossy lossy
  rw [drainUtf8_eq (Nat.le_refl _)]
  simp only [List.isEmpty_iff]
  rfl

end Drain

/-! ### Stops in a text -/

/-- A stop begins at `i`. -/
def Starts (stops : List Bytes) (text : Bytes) (i : ℕ) : Prop :=
  ∃ stop ∈ stops, stop <+: text.drop i

section Stops

variable {stops : List Bytes} {text more held stop : Bytes} {i : ℕ}

/-- Where a stop begins in a longer text, it is in the shorter one already, or the shorter one ends
in a proper prefix of it. -/
theorem prefix_drop_append (hi : i ≤ text.length) (h : stop <+: (text ++ more).drop i) :
    stop <+: text.drop i ∨ text.length - i < stop.length ∧
      text.drop i = stop.take (text.length - i) := by
  rw [drop_append_of_le_length hi] at h
  rcases Nat.lt_or_ge (text.drop i).length stop.length with hlt | hge
  · right
    have hpre := prefix_of_prefix_length_le (prefix_append (text.drop i) more) h hlt.le
    rw [length_drop] at hlt
    refine ⟨hlt, ?_⟩
    rw [← length_drop]
    exact prefix_iff_eq_take.mp hpre
  · exact .inl (prefix_of_prefix_length_le h (prefix_append _ _) hge)

theorem Starts.append (h : Starts stops text i) (more : Bytes) : Starts stops (text ++ more) i := by
  obtain ⟨stop, hstop, hpre⟩ := h
  refine ⟨stop, hstop, ?_⟩
  rw [drop_append]
  exact hpre.trans (prefix_append _ _)

/-- A stop that is not empty begins within the text. -/
theorem Starts.lt (hstops : ∀ stop ∈ stops, stop ≠ []) (h : Starts stops text i) :
    i < text.length := by
  obtain ⟨stop, hstop, hpre⟩ := h
  have hlength := hpre.length_le
  have hpos := length_pos_of_ne_nil (hstops stop hstop)
  rw [length_drop] at hlength
  omega

theorem stopPosition_eq_some (hstop : stop ≠ []) :
    stopPosition stop held = some i ↔ IsLeast { i | stop <+: held.drop i } i := by
  induction held generalizing i with
  | nil =>
    rw [stopPosition, if_neg (by simpa using hstop)]
    refine iff_of_false nofun fun h => hstop ?_
    have hpre : stop <+: List.drop i [] := h.1
    rwa [drop_nil, prefix_nil] at hpre
  | cons b held ih =>
    rw [stopPosition]
    by_cases hhere : stop <+: b :: held
    · rw [if_pos ( isPrefixOf_iff_prefix.mpr hhere), some_inj]
      constructor
      · rintro rfl
        exact ⟨hhere, fun _ _ => Nat.zero_le _⟩
      · exact fun h => (Nat.le_zero.mp (h.2 (show stop <+: (b :: held).drop 0 from hhere))).symm
    · rw [if_neg (mt isPrefixOf_iff_prefix.mp hhere), map_eq_some_iff]
      constructor
      · rintro ⟨j, hj, rfl⟩
        obtain ⟨hpre, hleast⟩ := ih.mp hj
        refine ⟨hpre, fun k hk => ?_⟩
        cases k with
        | zero => exact absurd hk hhere
        | succ k => exact Nat.succ_le_succ (hleast hk)
      · rintro ⟨hpre, hleast⟩
        cases i with
        | zero => exact absurd hpre hhere
        | succ i =>
          refine ⟨i, ih.mpr ⟨hpre, fun k hk => ?_⟩, rfl⟩
          exact Nat.le_of_succ_le_succ (hleast (show stop <+: (b :: held).drop (k + 1) from hk))

theorem stopPosition_isSome (h : stop <+: held.drop i) : ∃ j ≤ i, stopPosition stop held = some j := by
  induction held generalizing i with
  | nil =>
    rw [drop_nil, prefix_nil] at h
    exact ⟨0, Nat.zero_le i, by rw [stopPosition, h]; rfl⟩
  | cons b held ih =>
    rw [stopPosition]
    split
    · exact ⟨0, Nat.zero_le i, rfl⟩
    · next hhere =>
      cases i with
      | zero => exact absurd ( isPrefixOf_iff_prefix.mpr h) hhere
      | succ i =>
        obtain ⟨j, hj, hsome⟩ := ih h
        exact ⟨j + 1, Nat.succ_le_succ hj, by rw [hsome]; rfl⟩

/-- The smallest of the stops' first positions is where the first stop begins. -/
theorem stopAt_eq_some (hstops : ∀ stop ∈ stops, stop ≠ []) :
    (stops.filterMap (stopPosition · held)).min? = some i ↔
      IsLeast { i | Starts stops held i } i := by
  rw [min?_eq_some_iff]
  simp only [mem_filterMap]
  constructor
  · rintro ⟨⟨stop, hstop, hi⟩, hleast⟩
    refine ⟨⟨stop, hstop, ((stopPosition_eq_some (hstops stop hstop)).mp hi).1⟩, fun j hj => ?_⟩
    obtain ⟨stop', hstop', hpre⟩ := hj
    obtain ⟨k, hk, hsome⟩ := stopPosition_isSome hpre
    exact (hleast k ⟨stop', hstop', hsome⟩).trans hk
  · rintro ⟨⟨stop, hstop, hpre⟩, hleast⟩
    have hfirst {stop' : Bytes} {j : ℕ} (hstop' : stop' ∈ stops)
        (hj : stopPosition stop' held = some j) : i ≤ j :=
      hleast ⟨stop', hstop', ((stopPosition_eq_some (hstops stop' hstop')).mp hj).1⟩
    obtain ⟨j, hj, hsome⟩ := stopPosition_isSome hpre
    obtain rfl : j = i := Nat.le_antisymm hj (hfirst hstop hsome)
    exact ⟨⟨stop, hstop, hsome⟩, fun k ⟨stop', hstop', hk⟩ => hfirst hstop' hk⟩

theorem stopAt_eq_none :
    (stops.filterMap (stopPosition · held)).min? = none ↔ ∀ i, ¬ Starts stops held i := by
  rw [min?_eq_none_iff, filterMap_eq_nil_iff]
  constructor
  · rintro h i ⟨stop, hstop, hpre⟩
    obtain ⟨j, -, hsome⟩ := stopPosition_isSome hpre
    rw [h stop hstop] at hsome
    cases hsome
  · intro h stop hstop
    cases hposition : stopPosition stop held with
    | none => rfl
    | some j =>
      by_cases hempty : stop = []
      · exact absurd ⟨stop, hstop, by rw [hempty]; exact nil_prefix⟩ (h 0)
      · exact absurd ⟨stop, hstop, ((stopPosition_eq_some hempty).mp hposition).1⟩ (h j)

/-! ### What is held back -/

/-- The text ends in a proper prefix of a stop, of length `k`. -/
def Grows (stops : List Bytes) (text : Bytes) (k : ℕ) : Prop :=
  k ≤ text.length ∧ ∃ stop ∈ stops, k < stop.length ∧ text.drop (text.length - k) = stop.take k

/-- The search from above finds the greatest. -/
private theorem find?_range_reverse (n : ℕ) (p : ℕ → Bool) :
    ((List.range n).reverse.find? p = none ∧ ∀ k < n, p k = false) ∨
      ∃ k < n, (List.range n).reverse.find? p = some k ∧ p k ∧ ∀ j < n, p j → j ≤ k := by
  induction n with
  | zero => exact .inl ⟨rfl, fun _ hk => absurd hk (Nat.not_lt_zero _)⟩
  | succ n ih =>
    rw [range_succ, reverse_append, reverse_singleton, singleton_append,
      find?_cons]
    cases hn : p n with
    | true =>
      exact .inr ⟨n, Nat.lt_succ_self n, rfl, hn, fun j hj _ => Nat.le_of_lt_succ hj⟩
    | false =>
      have hbelow {k : ℕ} (hk : k < n + 1) (hp : p k) : k < n :=
        (Nat.lt_succ_iff_lt_or_eq.mp hk).resolve_right fun heq => by
          rw [heq, hn] at hp
          cases hp
      rcases ih with ⟨hnone, hall⟩ | ⟨k, hk, hsome, hp, hmost⟩
      · refine .inl ⟨hnone, fun k hk => ?_⟩
        cases hp : p k with
        | false => rfl
        | true => exact hp ▸ hall k (hbelow hk hp)
      · exact .inr ⟨k, Nat.lt_succ_of_lt hk, hsome, hp, fun j hj hp => hmost j (hbelow hj hp) hp⟩

private theorem grows_iff {k : ℕ} : (1 ≤ k ∧ Grows [stop] held k) ↔
    k < stop.length ∧ (decide (1 ≤ k) && (decide (k ≤ held.length) &&
      held.drop (held.length - k) == stop.take k)) = true := by
  simp only [Grows, mem_singleton, exists_eq_left, Bool.and_eq_true, decide_eq_true_eq,
    beq_iff_eq]
  tauto

/-- One stop moves the held back length up to the longest of its proper prefixes. -/
theorem holdFor_spec (held stop : Bytes) (hold : ℕ) :
    (Detokenizer.holdFor held hold stop = hold ∨
      Grows [stop] held (Detokenizer.holdFor held hold stop)) ∧
      hold ≤ Detokenizer.holdFor held hold stop ∧
      ∀ k, 0 < k → Grows [stop] held k → k ≤ Detokenizer.holdFor held hold stop := by
  unfold Detokenizer.holdFor
  dsimp only
  rcases find?_range_reverse stop.length (fun k => decide (1 ≤ k) && (decide (hold < k) &&
    decide (k ≤ held.length) && held.drop (held.length - k) == stop.take k)) with
    ⟨hnone, hall⟩ | ⟨k, hk, hsome, hp, hmost⟩
  · rw [hnone, getD_none]
    refine ⟨.inl rfl, Nat.le_refl _, fun k hk hgrows => ?_⟩
    obtain ⟨hlt, hfits⟩ := grows_iff.mp ⟨hk, hgrows⟩
    have hno := hall k hlt
    by_contra hmore
    simp only [Bool.and_eq_true] at hfits
    simp [hfits, Nat.lt_of_not_le hmore] at hno
  · rw [hsome, getD_some]
    simp only [Bool.and_eq_true, decide_eq_true_eq] at hp
    obtain ⟨hpos, ⟨hhold, hle⟩, htake⟩ := hp
    refine ⟨.inr ?_, hhold.le, fun j hj hgrows => ?_⟩
    · exact (grows_iff.mpr ⟨hk, by simp [hpos, hle, htake]⟩).2
    · obtain ⟨hlt, hfits⟩ := grows_iff.mp ⟨hj, hgrows⟩
      by_cases hmore : hold < j
      · refine hmost j hlt ?_
        simp only [Bool.and_eq_true] at hfits ⊢
        exact ⟨hfits.1, ⟨decide_eq_true hmore, hfits.2.1⟩, hfits.2.2⟩
      · omega

private theorem Grows.mono {stops' : List Bytes} {k : ℕ} (h : Grows stops text k)
    (hsub : ∀ stop ∈ stops, stop ∈ stops') : Grows stops' text k := by
  obtain ⟨hle, stop, hstop, hgrows⟩ := h
  exact ⟨hle, stop, hsub stop hstop, hgrows⟩

/-- All of them together hold back the longest suffix that could still grow into a stop. -/
theorem hold_spec (stops : List Bytes) (held : Bytes) (hold : ℕ) :
    (stops.foldl (Detokenizer.holdFor held) hold = hold ∨
      Grows stops held (stops.foldl (Detokenizer.holdFor held) hold)) ∧
      hold ≤ stops.foldl (Detokenizer.holdFor held) hold ∧
      ∀ k, 0 < k → Grows stops held k → k ≤ stops.foldl (Detokenizer.holdFor held) hold := by
  induction stops generalizing hold with
  | nil =>
    refine ⟨.inl rfl, Nat.le_refl _, fun k _ h => ?_⟩
    obtain ⟨-, stop, hstop, -⟩ := h
    cases hstop
  | cons stop stops ih =>
    rw [foldl_cons]
    obtain ⟨hfirst, hfirstle, hfirstmost⟩ := holdFor_spec held stop hold
    obtain ⟨hrest, hrestle, hrestmost⟩ := ih (Detokenizer.holdFor held hold stop)
    refine ⟨?_, hfirstle.trans hrestle, fun k hk hgrows => ?_⟩
    · rcases hrest with hrest | hrest
      · rw [hrest]
        rcases hfirst with hfirst | hfirst
        · exact .inl hfirst
        · exact .inr (hfirst.mono fun stop' h => by
            rw [mem_singleton.mp h]
            exact mem_cons_self)
      · exact .inr (hrest.mono fun stop' => mem_cons_of_mem _)
    · obtain ⟨hle, stop', hstop', hfits⟩ := hgrows
      rcases mem_cons.mp hstop' with rfl | hstop'
      · exact (hfirstmost k hk ⟨hle, stop', mem_singleton_self _, hfits⟩).trans hrestle
      · exact hrestmost k hk ⟨hle, stop', hstop', hfits⟩

end Stops

/-! ### Feeding -/

namespace Detokenizer

/-- The text a push slices: what was held, and the characters it completes. -/
def heldWith (d : Detokenizer) (bytes : Bytes) : Bytes :=
  d.held ++ (drainUtf8 (d.pending ++ bytes).length (d.pending ++ bytes)).1

/-- Feeds pieces until a stop is reported, and finishes when they end before: all the text there
was, and whether a stop was reported. -/
def feed (d : Detokenizer) : List Bytes → Bytes × Bool
  | [] => (d.finish.1, false)
  | piece :: pieces =>
    let ((text, stopped), d) := d.pushBytes piece
    if stopped then (text, true)
    else
      let rest := d.feed pieces
      (text ++ rest.1, rest.2)

/-- No push slices its text inside a character. -/
def SlicesWhole (d : Detokenizer) : List Bytes → Prop
  | [] => True
  | piece :: pieces =>
    isCharBoundary (d.heldWith piece) (d.pushBytes piece).1.1.length ∧
      ((d.pushBytes piece).1.2 = false → SlicesWhole (d.pushBytes piece).2 pieces)

end Detokenizer

/-- A detokenizer that was fed `fed`, has emitted `emitted` and reported no stop. -/
structure Feeding (stops : List Bytes) (fed emitted : Bytes) (d : Detokenizer) : Prop where
  listed : d.stops = stops
  maxStop : d.maxStop = (stops.map List.length).foldr max 0
  running : d.stopped = false
  text : emitted ++ d.held = (decode fed).1
  pending : d.pending = (decode fed).2
  silent : ∀ i, ¬ Starts stops (decode fed).1 i
  /-- All that could still grow into a stop is held. -/
  held : ∀ k, Grows stops (decode fed).1 k → k ≤ d.held.length

section Feed

variable {stops : List Bytes} {fed emitted bytes : Bytes} {d : Detokenizer} {i k : ℕ}

theorem Feeding.heldWith (h : Feeding stops fed emitted d) (bytes : Bytes) :
    d.heldWith bytes = d.held ++ (decode ((decode fed).2 ++ bytes)).1 := by
  rw [Detokenizer.heldWith, drainUtf8_eq (Nat.le_refl _), h.pending]

theorem Feeding.text_append (h : Feeding stops fed emitted d) (bytes : Bytes) :
    emitted ++ d.heldWith bytes = (decode (fed ++ bytes)).1 := by
  rw [h.heldWith, decode_append fed, ← append_assoc, h.text]

/-- A stop of the whole text lies in what is held: one that began before would have been held. -/
theorem Feeding.starts_iff (h : Feeding stops fed emitted d) (bytes : Bytes) :
    Starts stops (decode (fed ++ bytes)).1 i ↔
      emitted.length ≤ i ∧ Starts stops (d.heldWith bytes) (i - emitted.length) := by
  have hdrop (j : ℕ) : (decode (fed ++ bytes)).1.drop (emitted.length + j) =
      (d.heldWith bytes).drop j := by
    rw [← h.text_append, drop_length_add_append]
  constructor
  · rintro ⟨stop, hstop, hpre⟩
    have hle : emitted.length ≤ i := by
      by_contra hbefore
      have hlength : (decode fed).1.length = emitted.length + d.held.length := by
        rw [← h.text, length_append]
      have hpre' := hpre
      rw [decode_append] at hpre'
      rcases prefix_drop_append (by omega) hpre' with hwithin | ⟨hlt, hgrows⟩
      · exact h.silent i ⟨stop, hstop, hwithin⟩
      · have hheld := h.held ((decode fed).1.length - i) ⟨Nat.sub_le .., stop, hstop, hlt, by
          rw [← hgrows]
          congr 1
          omega⟩
        omega
    refine ⟨hle, stop, hstop, ?_⟩
    rwa [← hdrop, Nat.add_sub_cancel' hle]
  · rintro ⟨hle, stop, hstop, hpre⟩
    refine ⟨stop, hstop, ?_⟩
    rwa [← hdrop, Nat.add_sub_cancel' hle] at hpre

/-- What the whole text ends in that could grow into a stop, the held text ends in. -/
theorem Feeding.grows (h : Feeding stops fed emitted d)
    (hgrows : Grows stops (decode (fed ++ bytes)).1 k) : Grows stops (d.heldWith bytes) k := by
  obtain ⟨hle, stop, hstop, hlt, htake⟩ := hgrows
  have htext := h.text_append bytes
  generalize hnew : (decode ((decode fed).2 ++ bytes)).1 = new
  have hheld : d.heldWith bytes = d.held ++ new := by rw [h.heldWith, hnew]
  have hwhole : (decode (fed ++ bytes)).1 = (decode fed).1 ++ new := by rw [decode_append, hnew]
  have hlength : (decode fed).1.length = emitted.length + d.held.length := by
    rw [← h.text, length_append]
  have hk : k ≤ (d.heldWith bytes).length := by
    by_contra hlong
    rw [hheld, length_append] at hlong
    rw [hwhole] at hle htake
    rw [length_append] at hle htake
    -- without the new text it would have been too long to be held before
    have hbefore := h.held (k - new.length) ⟨by omega, stop, hstop, by omega, ?_⟩
    · omega
    · have hcut := congrArg (List.take (k - new.length)) htake
      rw [take_take, Nat.min_eq_left (Nat.sub_le ..),
        drop_append_of_le_length (by omega), take_append_of_le_length
          (by rw [length_drop]; omega), take_of_length_le
          (by rw [length_drop]; omega)] at hcut
      rw [← hcut]
      congr 1
      omega
  refine ⟨hk, stop, hstop, hlt, ?_⟩
  rw [← htake, ← htext, length_append, Nat.add_sub_assoc hk, drop_length_add_append]

/-- One push: it reports the first stop of the whole text, or goes on. -/
theorem Feeding.push (h : Feeding stops fed emitted d) (hstops : ∀ stop ∈ stops, stop ≠ [])
    (hutf8 : ∀ stop ∈ stops, IsUtf8 stop) (bytes : Bytes) :
    isCharBoundary (d.heldWith bytes) (d.pushBytes bytes).1.1.length ∧
    ((d.pushBytes bytes).1.2 = true →
      ∃ i, IsLeast { i | Starts stops (decode (fed ++ bytes)).1 i } i ∧
        emitted ++ (d.pushBytes bytes).1.1 = (decode (fed ++ bytes)).1.take i) ∧
    ((d.pushBytes bytes).1.2 = false →
      Feeding stops (fed ++ bytes) (emitted ++ (d.pushBytes bytes).1.1) (d.pushBytes bytes).2) := by
  -- where a stop or its beginning stands, a character begins
  have hboundary {j : ℕ} {stop : Bytes} (hstop : stop ∈ stops) {n : ℕ} (hn : 0 < n)
      (hpre : stop.take n <+: (d.heldWith bytes).drop j) : isCharBoundary (d.heldWith bytes) j := by
    cases hcons : stop with
    | nil => exact absurd hcons (hstops stop hstop)
    | cons b rest =>
      obtain ⟨m, rfl⟩ : ∃ m, n = m + 1 := ⟨n - 1, by omega⟩
      rw [hcons, take_succ_cons] at hpre
      obtain ⟨after, hafter⟩ := hpre
      have hb : (d.heldWith bytes)[j]? = some b := by
        rw [← head?_drop, ← hafter]
        rfl
      have hhead := IsUtf8.head (hcons ▸ hutf8 stop hstop)
      simp [isCharBoundary, hb, hhead]
  have hheld : d.held ++ (drainUtf8 (d.pending ++ bytes).length (d.pending ++ bytes)).1 =
      d.heldWith bytes := rfl
  unfold Detokenizer.pushBytes
  rw [if_neg (by rw [h.running]; exact Bool.false_ne_true)]
  dsimp only
  rw [hheld, h.listed]
  cases hat : (stops.filterMap (stopPosition · (d.heldWith bytes))).min? with
  | some keep =>
    obtain ⟨hkeep, hleast⟩ := (stopAt_eq_some hstops).mp hat
    have hlt : keep < (d.heldWith bytes).length := Starts.lt hstops hkeep
    refine ⟨?_, fun _ => ⟨emitted.length + keep, ⟨?_, fun i hi => ?_⟩, ?_⟩, nofun⟩
    · obtain ⟨stop, hstop, hpre⟩ := hkeep
      rw [length_take, Nat.min_eq_left hlt.le]
      refine hboundary hstop (length_pos_of_ne_nil (hstops stop hstop)) ?_
      rwa [take_length]
    · show Starts stops _ _
      rw [h.starts_iff, Nat.add_sub_cancel_left]
      exact ⟨Nat.le_add_right .., hkeep⟩
    · obtain ⟨hle, hstarts⟩ := (h.starts_iff bytes).mp hi
      have := hleast hstarts
      omega
    · rw [← h.text_append, take_length_add_append]
  | none =>
    have hsilent := stopAt_eq_none.mp hat
    generalize hhold : (if d.maxStop > 1 then stops.foldl (Detokenizer.holdFor (d.heldWith bytes)) 0
      else 0) = hold
    obtain ⟨hreached, -, hmost⟩ := hold_spec stops (d.heldWith bytes) 0
    have hholds : hold = 0 ∨ Grows stops (d.heldWith bytes) hold := by
      rw [← hhold]
      split
      · exact hreached
      · exact .inl rfl
    have hall (k : ℕ) (hgrows : Grows stops (d.heldWith bytes) k) : k ≤ hold := by
      rcases Nat.eq_zero_or_pos k with rfl | hk
      · exact Nat.zero_le hold
      · rw [← hhold]
        split
        · exact hmost k hk hgrows
        · next hshort =>
          -- no stop is long enough to have a proper prefix
          obtain ⟨-, stop, hstop, hlt, -⟩ := hgrows
          have hmax : stop.length ≤ (stops.map List.length).foldr max 0 := by
            clear * - hstop
            induction stops with
            | nil => cases hstop
            | cons other stops ih =>
              rw [map_cons, foldr_cons]
              rcases mem_cons.mp hstop with rfl | hstop
              · exact Nat.le_max_left ..
              · exact (ih hstop).trans (Nat.le_max_right ..)
          rw [h.maxStop] at hshort
          omega
    have hle : hold ≤ (d.heldWith bytes).length := by
      rcases hholds with rfl | hgrows
      · exact Nat.zero_le _
      · exact hgrows.1
    refine ⟨?_, nofun, fun _ => ?_⟩
    · rw [length_take, Nat.min_eq_left (Nat.sub_le ..)]
      rcases hholds with rfl | ⟨-, stop, hstop, hlt, htake⟩
      · simp [isCharBoundary]
      · rcases Nat.eq_zero_or_pos hold with rfl | hpos
        · simp [isCharBoundary]
        · exact hboundary hstop hpos (htake ▸ prefix_rfl)
    · exact {
        listed := rfl
        maxStop := h.maxStop
        running := h.running
        text := by
          rw [append_assoc, take_append_drop, h.text_append]
        pending := by
          show (drainUtf8 (d.pending ++ bytes).length (d.pending ++ bytes)).2 = _
          rw [drainUtf8_eq (Nat.le_refl _), h.pending, decode_append fed]
        silent := fun i hi => hsilent _ ((h.starts_iff bytes).mp hi).2
        held := fun k hk => by
          have := hall k (h.grows hk)
          show k ≤ ((d.heldWith bytes).drop _).length
          rw [length_drop]
          omega }

theorem Feeding.finish (h : Feeding stops fed emitted d) :
    emitted ++ d.finish.1 = lossy fed := by
  rw [Detokenizer.finish, fromUtf8Lossy_eq, lossy_eq fed, ← h.text, h.pending, append_assoc]

theorem feed_spec (hstops : ∀ stop ∈ stops, stop ≠ []) (hutf8 : ∀ stop ∈ stops, IsUtf8 stop)
    (h : Feeding stops fed emitted d) (pieces : List Bytes) :
    d.SlicesWhole pieces ∧
    ((d.feed pieces).2 = true ∧ (∃ k ≤ pieces.length,
        (∀ j < k, ∀ i, ¬ Starts stops (decode (fed ++ (pieces.take j).flatten)).1 i) ∧
        ∃ i, IsLeast { i | Starts stops (decode (fed ++ (pieces.take k).flatten)).1 i } i ∧
          emitted ++ (d.feed pieces).1 =
            (decode (fed ++ (pieces.take k).flatten)).1.take i) ∨
      (d.feed pieces).2 = false ∧
        (∀ i, ¬ Starts stops (decode (fed ++ pieces.flatten)).1 i) ∧
        emitted ++ (d.feed pieces).1 = lossy (fed ++ pieces.flatten)) := by
  induction pieces generalizing fed emitted d with
  | nil =>
    refine ⟨trivial, .inr ⟨rfl, ?_, ?_⟩⟩
    · rw [flatten_nil, append_nil]
      exact h.silent
    · rw [flatten_nil, append_nil]
      exact h.finish
  | cons piece pieces ih =>
    obtain ⟨hboundary, hstopped, hgoes⟩ := h.push hstops hutf8 piece
    rw [Detokenizer.SlicesWhole, Detokenizer.feed]
    rcases hpush : d.pushBytes piece with ⟨⟨text, stopped⟩, d'⟩
    rw [hpush] at hboundary hstopped hgoes
    dsimp only at hboundary hstopped hgoes ⊢
    cases stopped with
    | true =>
      rw [if_pos rfl]
      obtain ⟨i, hleast, htext⟩ := hstopped rfl
      refine ⟨⟨hboundary, nofun⟩, .inl ⟨rfl, 1, Nat.succ_pos _, fun j hj => ?_, i, ?_⟩⟩
      · obtain rfl := Nat.lt_one_iff.mp hj
        rw [take_zero, flatten_nil, append_nil]
        exact h.silent
      · rw [take_succ_cons, take_zero, flatten_cons, flatten_nil,
          append_nil]
        exact ⟨hleast, htext⟩
    | false =>
      rw [if_neg Bool.false_ne_true]
      obtain ⟨hslices, hrest⟩ := ih (hgoes rfl)
      refine ⟨⟨hboundary, fun _ => hslices⟩, ?_⟩
      have hfed (rest : List Bytes) : fed ++ (piece :: rest).flatten =
          fed ++ piece ++ rest.flatten := by rw [flatten_cons, append_assoc]
      rcases hrest with ⟨hreported, k, hk, hbefore, i, hleast, htext⟩ | ⟨hsilent, hnone, htext⟩
      · refine .inl ⟨hreported, k + 1, Nat.succ_le_succ hk, fun j hj => ?_, i, ?_⟩
        · cases j with
          | zero =>
            rw [take_zero, flatten_nil, append_nil]
            exact h.silent
          | succ j =>
            rw [take_succ_cons, hfed]
            exact hbefore j (Nat.lt_of_succ_lt_succ hj)
        · rw [take_succ_cons, hfed, ← append_assoc]
          exact ⟨hleast, htext⟩
      · refine .inr ⟨hsilent, ?_, ?_⟩
        · rwa [hfed]
        · rw [hfed, ← append_assoc]
          exact htext

end Feed

/-! ### Stops that do not depend on the cut -/

section Cut

variable {stops : List Bytes} {text more : Bytes} {i : ℕ}

/-- No stop lies within another, with text on both sides. -/
def Apart (stops : List Bytes) : Prop :=
  ∀ inner ∈ stops, ∀ stop ∈ stops, ∀ before after, stop = before ++ inner ++ after →
    before = [] ∨ after = []

/-- The first stop of a text stays the first one, however the text goes on. -/
theorem Apart.isLeast_append (h : Apart stops) (hstops : ∀ stop ∈ stops, stop ≠ [])
    (hleast : IsLeast { i | Starts stops text i } i) (more : Bytes) :
    IsLeast { i | Starts stops (text ++ more) i } i := by
  refine ⟨Starts.append hleast.1 more, fun j hj => ?_⟩
  by_contra hbefore
  have hjlt : j < i := Nat.lt_of_not_le hbefore
  have hilt : i < text.length := Starts.lt hstops hleast.1
  obtain ⟨inner, hinner, hinnerpre⟩ := hleast.1
  obtain ⟨stop, hstop, hpre⟩ := hj
  rcases prefix_drop_append (by omega) hpre with hwithin | ⟨hlt, htake⟩
  · exact hbefore (hleast.2 ⟨stop, hstop, hwithin⟩)
  · -- the later stop lies within this one, which begins before it and ends after the text
    obtain ⟨rest, hrest⟩ := hinnerpre
    have hsplit : stop.take (text.length - j) =
        (text.drop j).take (i - j) ++ (inner ++ rest) := by
      rw [← htake, hrest]
      conv_lhs => rw [← take_append_drop (i - j) (text.drop j)]
      rw [drop_drop, Nat.add_sub_cancel' hjlt.le]
    have hwhole : stop = (text.drop j).take (i - j) ++ inner ++
        (rest ++ stop.drop (text.length - j)) := by
      conv_lhs => rw [← take_append_drop (text.length - j) stop, hsplit]
      simp only [append_assoc]
    rcases h inner hinner stop hstop _ _ hwhole with hnil | hnil
    · have hlength := congrArg List.length hnil
      rw [length_take, length_drop, length_nil] at hlength
      omega
    · have hlength := congrArg List.length (append_eq_nil_iff.mp hnil).2
      rw [length_drop, length_nil] at hlength
      omega

/-- The character that is cut off at the end completes no stop, unless one ends in the replacement
character itself. -/
theorem not_starts_replacement (hutf8 : ∀ stop ∈ stops, IsUtf8 stop)
    (hends : ∀ stop ∈ stops, ¬ replacement <:+ stop) (hstops : ∀ stop ∈ stops, stop ≠ [])
    (hnone : ∀ i, ¬ Starts stops text i) (i : ℕ) : ¬ Starts stops (text ++ replacement) i := by
  rintro ⟨stop, hstop, rest, hrest⟩
  have hstopne := hstops stop hstop
  -- the part of the replacement character that the stop reaches into
  have hwhole : (text ++ replacement).take i ++ stop ++ rest = text ++ replacement := by
    rw [append_assoc, hrest, take_append_drop]
  have hile : i ≤ (text ++ replacement).length := by
    by_contra hlong
    rw [drop_eq_nil_of_le (Nat.le_of_not_le hlong)] at hrest
    exact hstopne (append_eq_nil_iff.mp hrest).1
  have hlength : ((text ++ replacement).take i).length = i := by
    rw [length_take, Nat.min_eq_left hile]
  have hwithin (more : Bytes) (h : text = (text ++ replacement).take i ++ stop ++ more) : False := by
    refine hnone i ⟨stop, hstop, more, ?_⟩
    have hdrop := congrArg (List.drop ((text ++ replacement).take i).length) h
    rw [append_assoc, drop_left, hlength] at hdrop
    exact hdrop.symm
  rcases append_eq_append_iff.mp hwhole with ⟨more, htext, -⟩ | ⟨cut, hcut, hreplacement⟩
  · exact hwithin more htext
  have hcuts : cut = [] ∨ cut = [0xEF] ∨ cut = [0xEF, 0xBF] ∨ cut = replacement := by
    have hprefix : cut <+: replacement := ⟨rest, hreplacement.symm⟩
    have hinits := (mem_inits _ _).mpr hprefix
    simpa [replacement, List.inits] using hinits
  have hends (before : Bytes) (h : stop = before ++ cut) : False := by
    rcases hcuts with rfl | rfl | rfl | rfl
    · exact hwithin [] (by rw [append_nil] at hcut ⊢; exact hcut.symm)
    · exact not_isUtf8_of_cut [0xEF] (.inl rfl) (h ▸ hutf8 stop hstop)
    · exact not_isUtf8_of_cut [0xEF, 0xBF] (.inr rfl) (h ▸ hutf8 stop hstop)
    · exact hends stop hstop ⟨before, h.symm⟩
  rcases append_eq_append_iff.mp hcut with ⟨before, -, h⟩ | ⟨before, -, hinside⟩
  · exact hends before h
  · cases before with
    | nil => exact hends [] hinside.symm
    | cons b before =>
      -- the stop begins in the middle of the character
      have htail : ∀ b' ∈ cut.tail, continuation.Has b' := by
        rcases hcuts with rfl | rfl | rfl | rfl
        · exact forall_mem_nil _
        · exact forall_mem_nil _
        · exact forall_mem_singleton.mpr (by decide)
        · exact forall_mem_cons.mpr ⟨by decide, forall_mem_singleton.mpr (by decide)⟩
      cases hcons : stop with
      | nil => exact hstopne hcons
      | cons b' stop' =>
        refine IsUtf8.head (hcons ▸ hutf8 stop hstop) (htail b' ?_)
        rw [hinside, cons_append, tail_cons, hcons]
        exact mem_append_right _ mem_cons_self

end Cut

/-! ### The text of a stream -/

/-- A Rust string, as its bytes. -/
abbrev Utf8Text := { text : Bytes // IsUtf8 text }

/-- The detokenizer of a request's stop strings. -/
def Detokenizer.ofStops (stops : List Utf8Text) : Detokenizer := .new (stops.map Subtype.val)

/-- **The text that is fed comes out up to the first stop.** The first stop is the one that begins
first in the text of the pieces fed, at the first piece after which there is one. Where no stop lies
within another and none ends in the replacement character, it is the one that begins first in the
whole text, however the text was cut. No push slices inside a character. -/
theorem feed_text (stops : List Utf8Text) (pieces : List Bytes) :
    let d := Detokenizer.ofStops stops
    d.SlicesWhole pieces ∧
    ((d.feed pieces).2 = true ∧ (∃ k ≤ pieces.length,
        (∀ j < k, ∀ i, ¬ Starts d.stops (decode (pieces.take j).flatten).1 i) ∧
        ∃ i, IsLeast { i | Starts d.stops (decode (pieces.take k).flatten).1 i } i ∧
          (d.feed pieces).1 = (decode (pieces.take k).flatten).1.take i) ∨
      (d.feed pieces).2 = false ∧ (∀ i, ¬ Starts d.stops (decode pieces.flatten).1 i) ∧
        (d.feed pieces).1 = fromUtf8Lossy pieces.flatten) ∧
    (Apart d.stops → (∀ stop ∈ d.stops, ¬ replacement <:+ stop) →
      (d.feed pieces).2 = true ∧
          (∃ i, IsLeast { i | Starts d.stops (fromUtf8Lossy pieces.flatten) i } i ∧
            (d.feed pieces).1 = (fromUtf8Lossy pieces.flatten).take i) ∨
        (d.feed pieces).2 = false ∧ (∀ i, ¬ Starts d.stops (fromUtf8Lossy pieces.flatten) i) ∧
          (d.feed pieces).1 = fromUtf8Lossy pieces.flatten) := by
  intro d
  have hlisted : d.stops = (stops.map Subtype.val).filter fun stop => !stop.isEmpty := rfl
  have hmem {stop : Bytes} (h : stop ∈ d.stops) : stop ≠ [] ∧ IsUtf8 stop := by
    rw [hlisted, List.mem_filter, List.mem_map] at h
    obtain ⟨⟨text, -, rfl⟩, hne⟩ := h
    exact ⟨by simpa using hne, text.property⟩
  have hstops : ∀ stop ∈ d.stops, stop ≠ [] := fun stop h => (hmem h).1
  have hutf8 : ∀ stop ∈ d.stops, IsUtf8 stop := fun stop h => (hmem h).2
  have hstart : Feeding d.stops [] [] d := {
    listed := rfl
    maxStop := rfl
    running := rfl
    text := rfl
    pending := rfl
    silent := fun i hi => absurd (hi.lt hstops) (Nat.not_lt_zero i)
    held := fun k h => h.1 }
  obtain ⟨hslices, hrun⟩ := feed_spec hstops hutf8 hstart pieces
  simp only [List.nil_append] at hrun
  rw [← fromUtf8Lossy_eq] at hrun
  refine ⟨hslices, hrun, fun hapart hends => ?_⟩
  have hlossy : fromUtf8Lossy pieces.flatten = (decode pieces.flatten).1 ∨
      fromUtf8Lossy pieces.flatten = (decode pieces.flatten).1 ++ replacement := by
    rw [fromUtf8Lossy_eq, lossy]
    split
    · exact .inl rfl
    · exact .inr rfl
  rcases hrun with ⟨hreported, k, hk, hbefore, i, hleast, htext⟩ | ⟨hsilent, hnone, htext⟩
  · -- the text after the stop does not matter
    have hmore : ∃ more, fromUtf8Lossy pieces.flatten =
        (decode (pieces.take k).flatten).1 ++ more := by
      have hflatten : pieces.flatten = (pieces.take k).flatten ++ (pieces.drop k).flatten := by
        rw [← List.flatten_append, List.take_append_drop]
      have hdecode : (decode pieces.flatten).1 = (decode (pieces.take k).flatten).1 ++
          (decode ((decode (pieces.take k).flatten).2 ++ (pieces.drop k).flatten)).1 := by
        rw [hflatten, decode_append]
      rcases hlossy with hlossy | hlossy
      · exact ⟨_, hlossy.trans hdecode⟩
      · exact ⟨_, by rw [hlossy, hdecode, List.append_assoc]⟩
    obtain ⟨more, hmore⟩ := hmore
    have hi : i < (decode (pieces.take k).flatten).1.length := Starts.lt hstops hleast.1
    refine .inl ⟨hreported, i, ?_, ?_⟩
    · rw [hmore]
      exact hapart.isLeast_append hstops hleast more
    · rw [htext, hmore, List.take_append_of_le_length hi.le]
  · refine .inr ⟨hsilent, ?_, htext⟩
    rcases hlossy with hlossy | hlossy
    · rwa [hlossy]
    · rw [hlossy]
      exact not_starts_replacement hutf8 hends hstops hnone

/-- The stop strings `STOP` and `</end>`. -/
def plainStops : List Utf8Text :=
  [⟨[83, 84, 79, 80], by decide⟩, ⟨[60, 47, 101, 110, 100, 62], by decide⟩]

theorem feed_text_plain : ((Detokenizer.ofStops plainStops).feed [[97, 83, 84], [79, 80, 98]]) =
    ([97], true) ∧
    (Detokenizer.ofStops plainStops).SlicesWhole [[97, 83, 84], [79, 80, 98]] := by
  exact ⟨by decide, (feed_text plainStops [[97, 83, 84], [79, 80, 98]]).1⟩

/-- The stop strings `abcd` and `bc`, of which one lies within the other. -/
def nestedStops : List Utf8Text := [⟨[97, 98, 99, 100], by decide⟩, ⟨[98, 99], by decide⟩]

/-- Fed at once, `abcd` is the first stop of `abcd`; cut before its last byte, `bc` is. -/
theorem feed_nested_cut :
    (Detokenizer.ofStops nestedStops).feed [[97, 98, 99, 100]] = ([], true) ∧
    (Detokenizer.ofStops nestedStops).feed [[97, 98, 99], [100]] = ([97], true) := by
  decide

end Retrograd.Infer
