import Retrograd.Dataset.Targets

/-!
# Offline distillation

A teacher scores a prepared corpus once, its truncated distributions go to a **sidecar**, and a run
reads them back as the targets of its weighted batch. Position, label and width of a row are related
by the pass over a window, which scores all but the last position of the window: what a full-width
row supervises at its last position is a token it does not hold, and that position has no target.

The teacher is a function of the tokens it has read.
-/

namespace Retrograd.Training.Offline

open Logic Dataset.TopK List Option

/-! ### Scoring a corpus -/

/-- The `k` most probable next tokens after a prefix, with their log-probabilities. -/
abbrev Teacher := List Int32 → List (Int32 × UInt32)

/-- Why a batch has not the shape the runtime takes. -/
inductive BatchError where
  | noRows
  | overflow
  | topk (k : ℕ)
  | context
  | shape
  deriving DecidableEq, Repr

inductive OfflineError where
  /-- A suffix needs a prompt and at least one token after it. -/
  | suffix
  | noEntry
  | overflow
  | k (k : ℕ)
  /-- There is no supervised token. -/
  | unsupervised
  | vocabulary (teacher student : UInt32)
  | witnesses
  | sidecar (error : TopKError)
  | check (error : CheckError)
  | batch (error : BatchError)
  deriving DecidableEq, Repr

/-- The entries of a suffix, position after position. -/
structure TopLogprobs where
  k : ℕ
  ids : List Int32
  logprobs : List UInt32

/-- One position's entries, ids and log-probabilities in the same order. -/
def TopLogprobs.row (scored : TopLogprobs) (index : ℕ) : Option (List Int32 × List UInt32) :=
  if index * scored.k + scored.k ≤ scored.ids.length then
    some (blockAt scored.k scored.ids index, blockAt scored.k scored.logprobs index)
  else none

/-- The truncated distribution a teacher puts on every target after a prompt. -/
def topLogprobsSuffix (teacher : Teacher) (tokens : List Int32) (nPrompt k : ℕ) :
    Except OfflineError TopLogprobs :=
  let rows := (List.range (tokens.length - nPrompt)).map fun row =>
    teacher (tokens.take (nPrompt + row))
  if nPrompt = 0 ∨ tokens.length ≤ nPrompt then .error .suffix
  else if k = 0 then .error .noEntry
  else .ok ⟨k, rows.flatMap (·.map Prod.fst), rows.flatMap (·.map Prod.snd)⟩

/-- The last position that is supervised. -/
def rposition (labels : List Int32) : Option ℕ :=
  (labels.reverse.findIdx? fun label => decide (0 ≤ label)).map (labels.length - 1 - ·)

/-- Copies the block of one position of a row, when the position is supervised. -/
def copyBlock (scored : TopLogprobs) (k start : ℕ) (rowLabels : List Int32)
    (arrays : List Int32 × List UInt32) (position : ℕ) : List Int32 × List UInt32 :=
  if rowLabels.getD position ignoreLabel < 0 then arrays
  else ((scored.row position).map fun (rowIds, rowLogprobs) =>
    (writeBlock k arrays.1 (start + position) rowIds,
      writeBlock k arrays.2 (start + position) rowLogprobs)).getD arrays

/-- One teacher-forced pass over a row. -/
def scoreRow (teacher : Teacher) (prepared : PreparedDataset) (k : ℕ)
    (arrays : List Int32 × List UInt32) (row : ℕ) :
    Except OfflineError (List Int32 × List UInt32) :=
  let rowTokens := blockAt prepared.nCtx prepared.tokens row
  let rowLabels := blockAt prepared.nCtx prepared.labels row
  match rposition rowLabels with
  | none => .ok arrays
  | some last =>
    -- the target of position `width - 1` is the token that follows the window
    let width := min (last + 2) rowTokens.length
    if width < 2 then .ok arrays
    else do
      let scored ← topLogprobsSuffix teacher (rowTokens.take width) 1 k
      let scoredPositions := min last (width - 2) + 1
      .ok ((List.range (min scoredPositions rowLabels.length)).foldl
        (copyBlock scored k (row * prepared.nCtx) rowLabels) arrays)

/-- One block for every position of a corpus, absent where there is no target. -/
def scoreCorpus (teacher : Teacher) (prepared : PreparedDataset) (k : ℕ) :
    Except OfflineError (List Int32 × List UInt32) :=
  let entries := prepared.tokens.length * k
  if 2 ^ 64 ≤ entries then .error .overflow
  else (List.range prepared.examples).foldlM (scoreRow teacher prepared k)
    (List.replicate entries ignoreLabel, List.replicate entries negInfinity)

/-! ### The sidecar and the batch -/

/-- What two models must share for the ids of one to be the ids of the other. -/
structure Vocabulary where
  size : UInt32
  /-- The witness sentences as this model tokenizes them. -/
  witnesses : List (List Int32)
  deriving DecidableEq

/-- `distill-teacher`: the file of a corpus. -/
def distillTeacher (student teacherVocabulary : Vocabulary) (teacher : Teacher) (k : ℕ)
    (prepared : PreparedDataset) : Except OfflineError (List UInt8) :=
  if k = 0 ∨ maxK < k then .error (.k k)
  else if prepared.examples = 0 ∨ prepared.supervisedTokens = 0 then .error .unsupervised
  else if teacherVocabulary.size ≠ student.size then
    .error (.vocabulary teacherVocabulary.size student.size)
  else if teacherVocabulary.witnesses ≠ student.witnesses then .error .witnesses
  else do
    let scored ← scoreCorpus teacher prepared k
    let sidecar ← (TopKSidecar.new {
      version := version
      k := .ofNat k
      nRows := .ofNat prepared.tokens.length
      vocabSize := student.size
      tokenizerHash := tokenizerFingerprint student.size student.witnesses
      sourceHash := corpusFingerprint prepared } scored.1 scored.2).mapError .sidecar
    .ok sidecar.write

/-- Fixed-shape training rows, with `nTopk` targets at each position. -/
structure WeightedBatch (R : Type) where
  tokens : List Int32
  labels : List Int32
  weights : List R
  nRows : ℕ
  nCtx : ℕ
  nTopk : ℕ

def WeightedBatch.validate {R : Type} (batch : WeightedBatch R) : Except BatchError Unit :=
  let expected := batch.nRows * batch.nCtx
  let entries := expected * batch.nTopk
  if batch.nRows = 0 ∨ batch.nCtx = 0 then .error .noRows
  else if 2 ^ 64 ≤ expected then .error .overflow
  else if batch.nTopk = 0 ∨ maxK < batch.nTopk then .error (.topk batch.nTopk)
  else if 2 ^ 64 ≤ entries then .error .overflow
  else if 2 ^ 64 ≤ expected * 4 ∨ 2 ^ 64 ≤ entries * 4 then .error .overflow
  else if 2 ^ 32 ≤ batch.nCtx then .error .context
  else if batch.tokens.length ≠ expected ∨ batch.labels.length ≠ entries ∨
      batch.weights.length ≠ entries then .error .shape
  else .ok ()

/-- The corpus and the teacher's distribution over it. -/
structure OfflineBatch (R : Type) where
  batch : WeightedBatch R
  /-- Entries per position. -/
  k : ℕ
  /-- The number of terms the loss has. -/
  supervisedPositions : ℕ

/-- Reads a sidecar, and refuses it unless it describes the corpus' tokens under the student's
vocabulary. -/
def prepare {R : Type} [Number R] (real : UInt32 → R) (student : Vocabulary)
    (prepared : PreparedDataset) (file : List UInt8) : Except OfflineError (OfflineBatch R) :=
  if prepared.examples = 0 ∨ prepared.supervisedTokens = 0 then .error .unsupervised
  else do
    let sidecar ← (TopKSidecar.read file).mapError .sidecar
    (sidecar.checkAgainst prepared student.size
      (tokenizerFingerprint student.size student.witnesses)
      (corpusFingerprint prepared)).mapError .check
    let targets ← (sidecar.weightedTargets real prepared).mapError .check
    let batch : WeightedBatch R := {
      tokens := prepared.tokens
      labels := targets.1
      weights := targets.2
      nRows := prepared.examples
      nCtx := prepared.nCtx
      nTopk := sidecar.k }
    batch.validate.mapError .batch
    .ok { batch, k := sidecar.k, supervisedPositions := prepared.supervisedTokens }

/-! ### What a pass writes -/

/-- A teacher of `k` finite entries at every position, all in the vocabulary. -/
structure IsTeacher (vocabSize : UInt32) (k : ℕ) (teacher : Teacher) : Prop where
  length : ∀ tokens, (teacher tokens).length = k
  known : ∀ tokens, ∀ entry ∈ teacher tokens, 0 ≤ entry.1 ∧ entry.1.toUInt32 < vocabSize
  finite : ∀ tokens, ∀ entry ∈ teacher tokens, finiteBits entry.2

/-- The label of a position of a row. -/
def labelAt (prepared : PreparedDataset) (row position : ℕ) : Int32 :=
  prepared.labels.getD (row * prepared.nCtx + position) ignoreLabel

/-- A supervised position whose next token is in its row. -/
def HasTarget (prepared : PreparedDataset) (row position : ℕ) : Prop :=
  position + 1 < prepared.nCtx ∧ 0 ≤ labelAt prepared row position

instance (prepared : PreparedDataset) (row position : ℕ) :
    Decidable (HasTarget prepared row position) :=
  inferInstanceAs (Decidable (_ ∧ _))

/-- What the teacher gives for a row's tokens up to a position. -/
def taught (teacher : Teacher) (prepared : PreparedDataset) (row position : ℕ) :
    List (Int32 × UInt32) :=
  teacher ((blockAt prepared.nCtx prepared.tokens row).take (position + 1))

variable {teacher : Teacher} {prepared : PreparedDataset} {vocabSize : UInt32} {k : ℕ}
  {arrays : List Int32 × List UInt32}

theorem of_rposition_none {labels : List Int32} (h : rposition labels = none) :
    ∀ label ∈ labels, label < 0 := by
  intro label hlabel
  rw [rposition, map_eq_none_iff, findIdx?_eq_none_iff] at h
  have := h label (mem_reverse.mpr hlabel)
  simpa using this

/-- Nothing is supervised after the last supervised position. -/
theorem of_rposition {labels : List Int32} {last : ℕ} (h : rposition labels = some last) :
    last < labels.length ∧
      ∀ position, last < position → ∀ label, labels[position]? = some label → label < 0 := by
  rw [rposition, map_eq_some_iff] at h
  obtain ⟨index, hindex, rfl⟩ := h
  obtain ⟨hlt, -, hbefore⟩ := findIdx?_eq_some_iff_getElem.mp hindex
  rw [length_reverse] at hlt
  refine ⟨by omega, fun position hposition label hlabel => ?_⟩
  obtain ⟨hin, rfl⟩ := List.getElem?_eq_some_iff.mp hlabel
  -- the position is before the index, counted from the end
  have := hbefore (labels.length - 1 - position) (by omega)
  rw [getElem_reverse] at this
  have hback : labels.length - 1 - (labels.length - 1 - position) = position := by omega
  simp only [hback] at this
  simpa using this

theorem topLogprobsSuffix_eq (hteacher : IsTeacher vocabSize k teacher) (hk : k ≠ 0)
    {tokens : List Int32} (h : 2 ≤ tokens.length) :
    ∃ scored, topLogprobsSuffix teacher tokens 1 k = .ok scored ∧
      ∀ position, position + 1 < tokens.length → scored.row position =
        some ((teacher (tokens.take (position + 1))).map Prod.fst,
          (teacher (tokens.take (position + 1))).map Prod.snd) := by
  rw [topLogprobsSuffix, if_neg (by omega), if_neg hk]
  refine ⟨_, rfl, fun position hposition => ?_⟩
  have hlength {α : Type} (f : Int32 × UInt32 → α) :
      ∀ row ∈ (List.range (tokens.length - 1)).map fun row => teacher (tokens.take (1 + row)),
        (row.map f).length = k := by
    intro row hrow
    obtain ⟨index, -, rfl⟩ := List.mem_map.mp hrow
    rw [length_map, hteacher.length]
  have hget : ((List.range (tokens.length - 1)).map
      fun row => teacher (tokens.take (1 + row)))[position]? =
        some (teacher (tokens.take (position + 1))) := by
    rw [getElem?_map, getElem?_range (by omega), map_some, Nat.add_comm]
  rw [TopLogprobs.row, if_pos]
  · rw [blockAt_flatMap (hlength _) hget, blockAt_flatMap (hlength _) hget]
  · rw [length_flatMap_blocks (hlength _), length_map, length_range, ← Nat.succ_mul]
    exact Nat.mul_le_mul_right k (by omega)

/-- What is copied to a position of the arrays. -/
def copied (scored : TopLogprobs) (start : ℕ) (rowLabels : List Int32) (position : ℕ) :
    Option (List Int32 × List UInt32) :=
  if rowLabels.getD (position - start) ignoreLabel < 0 then none
  else scored.row (position - start)

/-- The two arrays are written side by side. -/
theorem foldl_copyBlock (scored : TopLogprobs) (start : ℕ) (rowLabels : List Int32)
    (positions : List ℕ) :
    positions.foldl (copyBlock scored k start rowLabels) arrays =
      ((positions.map (start + ·)).foldl (fun array position =>
          (((copied scored start rowLabels position).map Prod.fst).map
            (writeBlock k array position)).getD array) arrays.1,
        (positions.map (start + ·)).foldl (fun array position =>
          (((copied scored start rowLabels position).map Prod.snd).map
            (writeBlock k array position)).getD array) arrays.2) := by
  induction positions generalizing arrays with
  | nil => rfl
  | cons position positions ih =>
    have hfirst : copyBlock scored k start rowLabels arrays position =
        ((((copied scored start rowLabels (start + position)).map Prod.fst).map
            (writeBlock k arrays.1 (start + position))).getD arrays.1,
          (((copied scored start rowLabels (start + position)).map Prod.snd).map
            (writeBlock k arrays.2 (start + position))).getD arrays.2) := by
      rw [copyBlock, copied, Nat.add_sub_cancel_left]
      split_ifs
      · rfl
      · cases scored.row position <;> rfl
    rw [foldl_cons, ih, hfirst, map_cons, foldl_cons, foldl_cons]

/-! ### Rows -/

theorem length_row (prepared : PreparedDataset) {row : ℕ} (hrow : row < prepared.examples) :
    (blockAt prepared.nCtx prepared.tokens row).length = prepared.nCtx ∧
      (blockAt prepared.nCtx prepared.labels row).length = prepared.nCtx := by
  have hfits : (row + 1) * prepared.nCtx ≤ prepared.examples * prepared.nCtx :=
    Nat.mul_le_mul_right _ hrow
  exact ⟨length_blockAt (by rwa [prepared.length_tokens]),
    length_blockAt (by rwa [prepared.length_labels])⟩

theorem getD_row (prepared : PreparedDataset) (row : ℕ) {position : ℕ}
    (h : position < prepared.nCtx) :
    (blockAt prepared.nCtx prepared.labels row).getD position ignoreLabel =
      labelAt prepared row position := by
  rw [getD_eq_getElem?_getD, blockAt_getElem? h, labelAt, getD_eq_getElem?_getD]

/-- A position of the corpus is of one row. -/
theorem position_inj {nCtx row row' position position' : ℕ} (h : position < nCtx)
    (h' : position' < nCtx) (heq : row * nCtx + position = row' * nCtx + position') :
    row = row' ∧ position = position' := by
  have hpos : 0 < nCtx := Nat.lt_of_le_of_lt (Nat.zero_le _) h
  have hdiv (row : ℕ) {position : ℕ} (h : position < nCtx) :
      (row * nCtx + position) / nCtx = row := by
    rw [Nat.mul_comm, Nat.mul_add_div hpos, Nat.div_eq_of_lt h, Nat.add_zero]
  have hrow : row = row' := by rw [← hdiv row h, heq, hdiv row' h']
  refine ⟨hrow, ?_⟩
  rw [hrow] at heq
  exact Nat.add_left_cancel heq

theorem position_lt {nCtx examples row position : ℕ} (hrow : row < examples)
    (h : position < nCtx) : row * nCtx + position < examples * nCtx :=
  calc row * nCtx + position < row * nCtx + nCtx := Nat.add_lt_add_left h _
    _ = (row + 1) * nCtx := (Nat.succ_mul row nCtx).symm
    _ ≤ examples * nCtx := Nat.mul_le_mul_right nCtx hrow

/-- The arrays have a block for every position. -/
def Shaped (prepared : PreparedDataset) (k : ℕ) (arrays : List Int32 × List UInt32) : Prop :=
  arrays.1.length = prepared.tokens.length * k ∧ arrays.2.length = prepared.tokens.length * k

/-- What is in the window of a pass over a row is what can have a target. -/
theorem hasTarget_iff {row last : ℕ} (hrow : row < prepared.examples)
    (hlast : rposition (blockAt prepared.nCtx prepared.labels row) = some last) {position : ℕ}
    (h : position < prepared.nCtx) :
    HasTarget prepared row position ↔
      position + 1 < min (last + 2) prepared.nCtx ∧ ¬ labelAt prepared row position < 0 := by
  obtain ⟨-, hlabels⟩ := length_row prepared hrow
  obtain ⟨-, hafter⟩ := of_rposition hlast
  rw [HasTarget, Int32.not_lt]
  refine ⟨fun ⟨hnext, hlabel⟩ => ⟨?_, hlabel⟩, fun ⟨hwindow, hlabel⟩ => ⟨by omega, hlabel⟩⟩
  have hle : position ≤ last := by
    by_contra hgt
    have hmem : position < (blockAt prepared.nCtx prepared.labels row).length := by
      rwa [hlabels]
    have hneg := hafter position (Nat.not_le.mp hgt) _ (getElem?_eq_getElem hmem)
    rw [← getD_row prepared row h, getD_eq_getElem?_getD,
      getElem?_eq_getElem hmem, getD_some] at hlabel
    exact absurd hneg (Int32.not_lt.mpr hlabel)
  omega

/-- What is copied to a position of the window: its own distribution. -/
theorem copied_eq {row width : ℕ} {scored : TopLogprobs} (hwidth : width ≤ prepared.nCtx)
    (hentries : ∀ position, position + 1 < width → scored.row position =
      some ((teacher (((blockAt prepared.nCtx prepared.tokens row).take width).take
          (position + 1))).map Prod.fst,
        (teacher (((blockAt prepared.nCtx prepared.tokens row).take width).take
          (position + 1))).map Prod.snd))
    {position : ℕ} (h : position + 1 < width) :
    copied scored (row * prepared.nCtx) (blockAt prepared.nCtx prepared.labels row)
        (row * prepared.nCtx + position) =
      if labelAt prepared row position < 0 then none
      else some ((taught teacher prepared row position).map Prod.fst,
        (taught teacher prepared row position).map Prod.snd) := by
  rw [copied, Nat.add_sub_cancel_left, getD_row prepared row (by omega), hentries position h,
    take_take, Nat.min_eq_left (by omega), taught]

/-- One array after the supervised positions of a row's window are written. -/
theorem blockAt_foldl_row {α : Type} (f : Int32 × UInt32 → α) (write : ℕ → Option (List α))
    {array : List α} {row n : ℕ} (hteacher : IsTeacher vocabSize k teacher)
    (hrow : row < prepared.examples) (hn : n ≤ prepared.nCtx)
    (harray : array.length = prepared.tokens.length * k)
    (htarget : ∀ position < prepared.nCtx, HasTarget prepared row position ↔
      position < n ∧ ¬ labelAt prepared row position < 0)
    (hwrite : ∀ position < n, write (row * prepared.nCtx + position) =
      if labelAt prepared row position < 0 then none
      else some ((taught teacher prepared row position).map f)) :
    (((List.range n).map (row * prepared.nCtx + ·)).foldl (fun array position =>
        ((write position).map (writeBlock k array position)).getD array) array).length =
      array.length ∧
    ∀ other position, position < prepared.nCtx →
      blockAt k (((List.range n).map (row * prepared.nCtx + ·)).foldl (fun array position =>
          ((write position).map (writeBlock k array position)).getD array) array)
          (other * prepared.nCtx + position) =
        if other = row ∧ HasTarget prepared other position then
          (taught teacher prepared other position).map f
        else blockAt k array (other * prepared.nCtx + position) := by
  have hfit : ∀ position ∈ (List.range n).map (row * prepared.nCtx + ·),
      ∀ block, write position = some block →
        block.length = k ∧ (position + 1) * k ≤ array.length := by
    intro position hposition block hblock
    obtain ⟨index, hindex, rfl⟩ := List.mem_map.mp hposition
    rw [mem_range] at hindex
    rw [hwrite index hindex] at hblock
    split_ifs at hblock
    rw [← some.inj hblock, length_map, taught, hteacher.length, harray,
      prepared.length_tokens]
    exact ⟨rfl, Nat.mul_le_mul_right k (position_lt hrow (Nat.lt_of_lt_of_le hindex hn))⟩
  obtain ⟨hlength, hblock⟩ := foldl_writeBlock write hfit
  refine ⟨hlength, fun other position hposition => (hblock _).trans ?_⟩
  by_cases hwritten : other = row ∧ position < n
  · obtain ⟨rfl, hin⟩ := hwritten
    rw [if_pos (List.mem_map.mpr ⟨position, mem_range.mpr hin, rfl⟩), hwrite position hin]
    simp only [htarget position hposition, hin, true_and]
    split_ifs <;> rfl
  · have hmem : other * prepared.nCtx + position ∉
        (List.range n).map (row * prepared.nCtx + ·) := by
      intro h
      obtain ⟨index, hindex, heq⟩ := List.mem_map.mp h
      rw [mem_range] at hindex
      obtain ⟨rfl, rfl⟩ := position_inj (Nat.lt_of_lt_of_le hindex hn) hposition heq
      exact hwritten ⟨rfl, hindex⟩
    rw [if_neg hmem, if_neg]
    rintro ⟨rfl, h⟩
    exact hwritten ⟨rfl, ((htarget position hposition).mp h).1⟩

/-- The block of a position in each of the arrays, once the rows before some number are scored. -/
def Holds (teacher : Teacher) (prepared : PreparedDataset) (k : ℕ)
    (arrays after : List Int32 × List UInt32) (written : ℕ → ℕ → Prop) : Prop :=
  ∀ row position, position < prepared.nCtx →
    (written row position →
      blockAt k after.1 (row * prepared.nCtx + position) =
          (taught teacher prepared row position).map Prod.fst ∧
        blockAt k after.2 (row * prepared.nCtx + position) =
          (taught teacher prepared row position).map Prod.snd) ∧
    (¬ written row position →
      blockAt k after.1 (row * prepared.nCtx + position) =
          blockAt k arrays.1 (row * prepared.nCtx + position) ∧
        blockAt k after.2 (row * prepared.nCtx + position) =
          blockAt k arrays.2 (row * prepared.nCtx + position))

/-- **A pass over a row** writes the teacher's entries at the positions of the row that have a
target, and touches no other position. -/
theorem scoreRow_eq (hteacher : IsTeacher vocabSize k teacher) (hk : k ≠ 0)
    (hshaped : Shaped prepared k arrays) {row : ℕ} (hrow : row < prepared.examples) :
    ∃ after, scoreRow teacher prepared k arrays row = .ok after ∧ Shaped prepared k after ∧
      Holds teacher prepared k arrays after
        fun other position => other = row ∧ HasTarget prepared other position := by
  obtain ⟨htokens, hlabels⟩ := length_row prepared hrow
  -- a row without targets leaves everything as it is
  have hsame (hnone : ∀ position, ¬ HasTarget prepared row position) :
      Holds teacher prepared k arrays arrays
        fun other position => other = row ∧ HasTarget prepared other position := by
    refine fun other position _ => ⟨fun h => ?_, fun _ => ⟨rfl, rfl⟩⟩
    obtain ⟨rfl, htarget⟩ := h
    exact absurd htarget (hnone position)
  rw [scoreRow]
  cases hlast : rposition (blockAt prepared.nCtx prepared.labels row) with
  | none =>
    refine ⟨arrays, rfl, hshaped, hsame fun position ⟨hposition, hlabel⟩ => ?_⟩
    have hin : position < prepared.nCtx := Nat.lt_of_succ_lt hposition
    have hmem : position < (blockAt prepared.nCtx prepared.labels row).length := by rwa [hlabels]
    rw [← getD_row prepared row hin, getD_eq_getElem?_getD, getElem?_eq_getElem hmem,
      getD_some] at hlabel
    exact absurd (of_rposition_none hlast _ (getElem_mem hmem)) (Int32.not_lt.mpr hlabel)
  | some last =>
    have hin := (of_rposition hlast).1
    dsimp only
    rw [hlabels] at hin
    rw [htokens, hlabels]
    by_cases hwidth : min (last + 2) prepared.nCtx < 2
    · -- the row is one token wide
      rw [if_pos hwidth]
      exact ⟨arrays, rfl, hshaped, hsame fun position ⟨hposition, _⟩ => by omega⟩
    · rw [if_neg hwidth]
      have htake : ((blockAt prepared.nCtx prepared.tokens row).take
          (min (last + 2) prepared.nCtx)).length = min (last + 2) prepared.nCtx := by
        rw [length_take, htokens]
        omega
      obtain ⟨scored, hscored, hentries⟩ :=
        topLogprobsSuffix_eq hteacher hk (htake.symm ▸ Nat.not_lt.mp hwidth)
      rw [htake] at hentries
      rw [hscored]
      obtain ⟨n, hn⟩ : ∃ n, n =
        min (min last (min (last + 2) prepared.nCtx - 2) + 1) prepared.nCtx := ⟨_, rfl⟩
      have hle : n ≤ prepared.nCtx := by omega
      have htarget : ∀ position < prepared.nCtx, HasTarget prepared row position ↔
          position < n ∧ ¬ labelAt prepared row position < 0 := by
        intro position hposition
        rw [hasTarget_iff hrow hlast hposition, and_congr_left_iff]
        intro _
        omega
      have hcopied : ∀ position < n, _ := fun position hposition =>
        copied_eq (Nat.min_le_right _ _) hentries (show position + 1 < _ by omega)
      obtain ⟨hlength₁, hblock₁⟩ := blockAt_foldl_row Prod.fst
        (fun position => (copied scored (row * prepared.nCtx)
          (blockAt prepared.nCtx prepared.labels row) position).map Prod.fst)
        hteacher hrow hle hshaped.1 htarget fun position hposition => by
          rw [hcopied position hposition]
          split_ifs <;> rfl
      obtain ⟨hlength₂, hblock₂⟩ := blockAt_foldl_row Prod.snd
        (fun position => (copied scored (row * prepared.nCtx)
          (blockAt prepared.nCtx prepared.labels row) position).map Prod.snd)
        hteacher hrow hle hshaped.2 htarget fun position hposition => by
          rw [hcopied position hposition]
          split_ifs <;> rfl
      rw [← hn]
      refine ⟨_, congrArg Except.ok (foldl_copyBlock scored _ _ _), ⟨hlength₁.trans hshaped.1, hlength₂.trans hshaped.2⟩,
        fun other position hposition => ⟨fun h => ?_, fun h => ?_⟩⟩
      · have h₁ := hblock₁ other position hposition
        have h₂ := hblock₂ other position hposition
        rw [if_pos h] at h₁ h₂
        exact ⟨h₁, h₂⟩
      · have h₁ := hblock₁ other position hposition
        have h₂ := hblock₂ other position hposition
        rw [if_neg h] at h₁ h₂
        exact ⟨h₁, h₂⟩

/-- **The pass over a corpus** writes the teacher's entries at every position that has a target. -/
theorem scoreCorpus_eq (hteacher : IsTeacher vocabSize k teacher) (hk : k ≠ 0)
    (hsize : prepared.tokens.length * k < 2 ^ 64) :
    ∃ after, scoreCorpus teacher prepared k = .ok after ∧ Shaped prepared k after ∧
      Holds teacher prepared k (List.replicate (prepared.tokens.length * k) ignoreLabel,
        List.replicate (prepared.tokens.length * k) negInfinity) after
        fun row position => row < prepared.examples ∧ HasTarget prepared row position := by
  rw [scoreCorpus, if_neg (Nat.not_le.mpr hsize)]
  generalize hstart : ((List.replicate (prepared.tokens.length * k) ignoreLabel,
    List.replicate (prepared.tokens.length * k) negInfinity) : List Int32 × List UInt32) = start
  have hshaped : Shaped prepared k start := by
    rw [← hstart]
    exact ⟨length_replicate, length_replicate⟩
  -- the rows that are scored are those below a number
  suffices hrun : ∀ rows ≤ prepared.examples, ∃ after,
      (List.range rows).foldlM (scoreRow teacher prepared k) start = .ok after ∧
        Shaped prepared k after ∧ Holds teacher prepared k start after
          fun row position => row < rows ∧ HasTarget prepared row position from
    hrun prepared.examples (Nat.le_refl _)
  intro rows
  induction rows with
  | zero =>
    exact fun _ => ⟨start, rfl, hshaped, fun row position _ =>
      ⟨fun h => absurd h.1 (Nat.not_lt_zero row), fun _ => ⟨rfl, rfl⟩⟩⟩
  | succ rows ih =>
    intro hrows
    obtain ⟨mid, hmid, hmidshaped, hmidholds⟩ := ih (Nat.le_of_succ_le hrows)
    obtain ⟨after, hafter, hshaped', hholds⟩ := scoreRow_eq hteacher hk hmidshaped hrows
    refine ⟨after, ?_, hshaped', fun row position hposition => ⟨fun h => ?_, fun h => ?_⟩⟩
    · rw [range_succ, foldlM_append, hmid]
      change (scoreRow teacher prepared k mid rows >>= pure) = _
      rw [hafter]
      rfl
    · by_cases hlast : row = rows
      · exact (hholds row position hposition).1 ⟨hlast, h.2⟩
      · obtain ⟨h₁, h₂⟩ := (hholds row position hposition).2 fun h' => hlast h'.1
        obtain ⟨h₁', h₂'⟩ := (hmidholds row position hposition).1
          ⟨Nat.lt_of_le_of_ne (Nat.le_of_lt_succ h.1) hlast, h.2⟩
        exact ⟨h₁.trans h₁', h₂.trans h₂'⟩
    · obtain ⟨h₁, h₂⟩ := (hholds row position hposition).2
        fun h' => h ⟨h'.1 ▸ Nat.lt_succ_self rows, h'.2⟩
      obtain ⟨h₁', h₂'⟩ := (hmidholds row position hposition).2
        fun h' => h ⟨Nat.lt_succ_of_lt h'.1, h'.2⟩
      exact ⟨h₁.trans h₁', h₂.trans h₂'⟩

end Retrograd.Training.Offline
