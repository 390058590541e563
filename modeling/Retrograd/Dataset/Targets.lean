import Retrograd.Dataset.TopK
import Retrograd.Logic.Blocks
import Retrograd.Logic.Number

/-!
# Weighted targets

What a sidecar becomes when a run loads it: it is **checked against** the prepared dataset, the
vocabulary and the corpus it was made from, and its log-probabilities become **renormalized
probabilities**, `k` labels and `k` weights for every position of the dataset.

The arithmetic is generic; over the reals the weights of a position are the teacher's probabilities
divided by their sum, since the shift by the largest log-probability cancels.
-/

namespace Retrograd.Dataset.TopK

open Logic List Option

/-! ### The prepared dataset -/

/-- Fixed-size training rows: `labels[i]` is the target for `tokens[i]`, and a negative label marks
a position that carries no loss. -/
structure PreparedDataset where
  nCtx : ℕ
  tokens : List Int32
  labels : List Int32
  examples : ℕ
  supervisedTokens : ℕ
  length_tokens : tokens.length = examples * nCtx
  length_labels : labels.length = examples * nCtx
  supervised_eq : supervisedTokens = labels.countP (0 ≤ ·)

/-- One step of the fingerprints. -/
def mix (hash value : UInt64) : UInt64 := (hash ^^^ value) * 0x00000100000001b3

/-- `id as u32 as u64`. -/
def word (id : Int32) : UInt64 := id.toUInt32.toUInt64

/-- The ids a vocabulary gives a fixed set of sentences, in eight bytes. -/
def tokenizerFingerprint (vocabSize : UInt32) (witnesses : List (List Int32)) : UInt64 :=
  witnesses.foldl (fun hash witness =>
      (witness.map word).foldl mix (mix hash (.ofNat witness.length)))
    (mix 0xcbf29ce484222325 vocabSize.toUInt64)

/-- The prepared token stream, in eight bytes. -/
def corpusFingerprint (dataset : PreparedDataset) : UInt64 :=
  ((dataset.tokens ++ dataset.labels).map word).foldl mix
    (mix (mix 0xcbf29ce484222325 (.ofNat dataset.nCtx)) (.ofNat dataset.examples))

/-- Why a sidecar does not belong to a run. -/
inductive CheckError where
  | positions (sidecar dataset : ℕ)
  | vocabulary (sidecar student : UInt32)
  | tokenizer
  | corpus
  deriving DecidableEq, Repr

/-! ### Targets -/

/-- `f32::is_finite`, of the bits. -/
def finiteBits (bits : UInt32) : Bool := bits &&& 0x7F800000 ≠ 0x7F800000

section

variable {R : Type} [Number R] (real : UInt32 → R)

/-- The largest of some numbers, when there is one. -/
def largest : List R → Option R
  | [] => none
  | first :: rest => some (rest.foldl Number.max first)

/-- An entry that carries a target. -/
def carried (entry : Int32 × UInt32) : Bool := 0 ≤ entry.1 && finiteBits entry.2

/-- The labels and the weights of a position, when it has any: an entry that carries none keeps the
label and the weight the arrays were made with. -/
def targetBlock (entries : List (Int32 × UInt32)) : Option (List (Int32 × R)) := do
  let max ← largest ((entries.filter fun entry => finiteBits entry.2).map fun entry => real entry.2)
  let total := (entries.filter carried).foldl
    (fun total entry => total + Number.exp (real entry.2 - max)) (Number.ofNat 0)
  if Number.isFinite total && Number.lt (Number.ofNat 0) total then
    some (entries.map fun entry =>
      if carried entry then (entry.1, Number.exp (real entry.2 - max) / total)
      else (ignoreLabel, Number.ofNat 0))
  else none

namespace TopKSidecar

def k (sidecar : TopKSidecar) : ℕ := sidecar.header.k.toNat

def rows (sidecar : TopKSidecar) : ℕ := sidecar.header.nRows.toNat

/-- One position's entries, ids and log-probabilities in the same order. -/
def row (sidecar : TopKSidecar) (index : ℕ) : Option (List (Int32 × UInt32)) :=
  if index * sidecar.k + sidecar.k ≤ sidecar.ids.length then
    some ((blockAt sidecar.k sidecar.ids index).zip (blockAt sidecar.k sidecar.logprobs index))
  else none

/-- Refuses a sidecar that does not belong to this dataset, this vocabulary or this corpus. -/
def checkAgainst (sidecar : TopKSidecar) (dataset : PreparedDataset) (vocabSize : UInt32)
    (tokenizerHash sourceHash : UInt64) : Except CheckError Unit :=
  if sidecar.rows ≠ dataset.tokens.length then
    .error (.positions sidecar.rows dataset.tokens.length)
  else if sidecar.header.vocabSize ≠ vocabSize then
    .error (.vocabulary sidecar.header.vocabSize vocabSize)
  else if sidecar.header.tokenizerHash ≠ tokenizerHash then .error .tokenizer
  else if sidecar.header.sourceHash ≠ sourceHash then .error .corpus
  else .ok ()

/-- The targets of a position the dataset supervises. -/
def targetsAt (sidecar : TopKSidecar) (dataset : PreparedDataset) (position : ℕ) :
    Option (List (Int32 × R)) :=
  if dataset.labels.getD position ignoreLabel < 0 then none
  else (sidecar.row position).bind (targetBlock real)

/-- The labels and the weights of the runtime's weighted batch. -/
def weightedTargets (sidecar : TopKSidecar) (dataset : PreparedDataset) :
    Except CheckError (List Int32 × List R) :=
  if sidecar.rows ≠ dataset.tokens.length then
    .error (.positions sidecar.rows dataset.tokens.length)
  else .ok (
    (List.range sidecar.rows).foldl (fun labels position =>
        (((sidecar.targetsAt real dataset position).map (·.map Prod.fst)).map
          (writeBlock sidecar.k labels position)).getD labels)
      (List.replicate sidecar.ids.length ignoreLabel),
    (List.range sidecar.rows).foldl (fun weights position =>
        (((sidecar.targetsAt real dataset position).map (·.map Prod.snd)).map
          (writeBlock sidecar.k weights position)).getD weights)
      (List.replicate sidecar.ids.length (Number.ofNat 0)))

end TopKSidecar

end

/-! ### Renormalization -/

section

variable (real : UInt32 → ℝ) {entries : List (Int32 × UInt32)}

/-- A probability of the teacher's truncated distribution, divided by their sum. -/
noncomputable def renormalized (entries : List (Int32 × UInt32)) (entry : Int32 × UInt32) : ℝ :=
  Real.exp (real entry.2) / (entries.map fun entry => Real.exp (real entry.2)).sum

theorem sum_exp_pos (hne : entries ≠ []) :
    0 < (entries.map fun entry => Real.exp (real entry.2)).sum := by
  refine sum_pos _ (fun value hvalue => ?_) (mt map_eq_nil_iff.mp hne)
  obtain ⟨entry, -, rfl⟩ := List.mem_map.mp hvalue
  exact Real.exp_pos _

/-- The weights of a position sum to one. -/
theorem sum_renormalized (hne : entries ≠ []) :
    (entries.map (renormalized real entries)).sum = 1 := by
  have hpos := sum_exp_pos real hne
  calc (entries.map (renormalized real entries)).sum
      = (entries.map fun entry => Real.exp (real entry.2) *
          (entries.map fun entry => Real.exp (real entry.2)).sum⁻¹).sum :=
        congrArg List.sum (map_congr_left fun _ _ => div_eq_mul_inv _ _)
    _ = (entries.map fun entry => Real.exp (real entry.2)).sum *
          (entries.map fun entry => Real.exp (real entry.2)).sum⁻¹ := sum_map_mul_right ..
    _ = 1 := mul_inv_cancel₀ hpos.ne'

/-- The shift by the largest log-probability cancels. -/
theorem renormalized_shift (max : ℝ) (entry : Int32 × UInt32) :
    Real.exp (real entry.2 - max) / (entries.map fun entry => Real.exp (real entry.2 - max)).sum =
      renormalized real entries entry := by
  have hmax : Real.exp max ≠ 0 := (Real.exp_pos max).ne'
  simp only [renormalized, Real.exp_sub, div_eq_mul_inv]
  rw [sum_map_mul_right, mul_inv, inv_inv, mul_assoc, mul_left_comm (Real.exp max)⁻¹,
    inv_mul_cancel₀ hmax, mul_one]

theorem foldl_add_eq_sum (f : Int32 × UInt32 → ℝ) (start : ℝ) :
    entries.foldl (fun total entry => total + f entry) start = start + (entries.map f).sum := by
  induction entries generalizing start with
  | nil => rw [foldl_nil, map_nil, sum_nil, add_zero]
  | cons entry entries ih => rw [foldl_cons, ih, map_cons, sum_cons, add_assoc]

/-- **The targets of a position the teacher scored** are its ids with their probabilities
renormalized. -/
theorem targetBlock_eq (hne : entries ≠ []) (hcarried : ∀ entry ∈ entries, carried entry) :
    targetBlock real entries =
      some (entries.map fun entry => (entry.1, renormalized real entries entry)) := by
  have hall : entries.filter carried = entries := filter_eq_self.mpr hcarried
  have hfinite : entries.filter (fun entry => finiteBits entry.2) = entries :=
    filter_eq_self.mpr fun entry hentry => (Bool.and_eq_true_iff.mp (hcarried entry hentry)).2
  obtain ⟨max, hmax⟩ : ∃ max, largest (entries.map fun entry => real entry.2) = some max := by
    obtain ⟨first, rest, rfl⟩ := exists_cons_of_ne_nil hne
    exact ⟨_, rfl⟩
  have htotal : entries.foldl (fun total entry => total + Number.exp (real entry.2 - max))
      (Number.ofNat 0) = (entries.map fun entry => Real.exp (real entry.2 - max)).sum := by
    simp only [Number.exp_real, Number.ofNat_real, Nat.cast_zero]
    exact (foldl_add_eq_sum _ _).trans (zero_add _)
  have hpos : 0 < (entries.map fun entry => Real.exp (real entry.2 - max)).sum :=
    sum_exp_pos (fun bits => real bits - max) hne
  rw [targetBlock, hfinite, hmax, hall, bind_eq_bind, bind_some]
  dsimp only
  rw [htotal, if_pos]
  · refine congrArg some (map_congr_left fun entry hentry => ?_)
    rw [if_pos (hcarried entry hentry), Number.exp_real]
    exact congrArg (Prod.mk entry.1) (renormalized_shift real max entry)
  · rw [Number.isFinite_real, Bool.true_and, Number.lt_real, Number.ofNat_real, Nat.cast_zero]
    exact hpos

/-- An absent block has no targets. -/
theorem targetBlock_absent (h : ∀ entry ∈ entries, finiteBits entry.2 = false) :
    targetBlock real entries = none := by
  have hnone : entries.filter (fun entry => finiteBits entry.2) = [] := by
    rw [filter_eq_nil_iff]
    intro entry hentry
    rw [h entry hentry]
    exact Bool.false_ne_true
  rw [targetBlock, hnone]
  rfl

/-- Targets replace a whole block. -/
theorem length_of_targetBlock {targets : List (Int32 × ℝ)}
    (h : targetBlock real entries = some targets) : targets.length = entries.length := by
  rw [targetBlock, bind_eq_bind, bind_eq_some_iff] at h
  obtain ⟨max, -, h⟩ := h
  dsimp only at h
  split_ifs at h
  rw [← some.inj h, length_map]

end

/-! ### The targets of a sidecar -/

namespace TopKSidecar

section

variable (real : UInt32 → ℝ) {sidecar : TopKSidecar} {dataset : PreparedDataset}

theorem length_ids_eq (sidecar : TopKSidecar) : sidecar.ids.length = sidecar.rows * sidecar.k := by
  have h := sidecar.length_ids
  rw [TopKHeader.entries] at h
  split_ifs at h
  exact (some.inj h).symm

theorem fits (sidecar : TopKSidecar) {position : ℕ} (h : position < sidecar.rows) :
    (position + 1) * sidecar.k ≤ sidecar.ids.length := by
  rw [length_ids_eq]
  exact Nat.mul_le_mul_right _ h

/-- Every position has its row. -/
theorem row_eq {position : ℕ} (h : position < sidecar.rows) :
    sidecar.row position = some ((blockAt sidecar.k sidecar.ids position).zip
      (blockAt sidecar.k sidecar.logprobs position)) := by
  rw [row, if_pos]
  rw [← Nat.succ_mul]
  exact sidecar.fits h

theorem length_targetsAt {position : ℕ} (h : position < sidecar.rows) {targets : List (Int32 × ℝ)}
    (htargets : sidecar.targetsAt real dataset position = some targets) :
    targets.length = sidecar.k := by
  rw [targetsAt] at htargets
  split_ifs at htargets
  rw [row_eq h, bind_some] at htargets
  have hfits := sidecar.fits h
  rw [length_of_targetBlock real htargets, length_zip, length_blockAt hfits,
    length_blockAt (by rwa [← length_eq]), Nat.min_self]

/-- **Each position gets its own targets**, and a position without any stays inert. -/
theorem weightedTargets_eq {labels : List Int32} {weights : List ℝ}
    (h : sidecar.weightedTargets real dataset = .ok (labels, weights)) :
    sidecar.rows = dataset.tokens.length ∧ labels.length = sidecar.ids.length ∧
      weights.length = sidecar.ids.length ∧
      ∀ position < sidecar.rows,
        blockAt sidecar.k labels position =
          ((sidecar.targetsAt real dataset position).map (·.map Prod.fst)).getD
            (List.replicate sidecar.k ignoreLabel) ∧
        blockAt sidecar.k weights position =
          ((sidecar.targetsAt real dataset position).map (·.map Prod.snd)).getD
            (List.replicate sidecar.k 0) := by
  rw [weightedTargets] at h
  split_ifs at h with hrows
  have hsame := Except.ok.inj h
  -- every block that is written has its `k` entries, in range
  have hfit {α : Type} (f : Int32 × ℝ → α) (a : α) : ∀ position ∈ List.range sidecar.rows,
      ∀ block, (sidecar.targetsAt real dataset position).map (·.map f) = some block →
        block.length = sidecar.k ∧
          (position + 1) * sidecar.k ≤ (List.replicate sidecar.ids.length a).length := by
    intro position hposition block hblock
    obtain ⟨targets, htargets, rfl⟩ := map_eq_some_iff.mp hblock
    have hlt := mem_range.mp hposition
    rw [length_map, length_targetsAt real hlt htargets, length_replicate]
    exact ⟨rfl, sidecar.fits hlt⟩
  obtain ⟨hlabels, hlabel⟩ := foldl_writeBlock _ (hfit Prod.fst ignoreLabel)
  obtain ⟨hweights, hweight⟩ := foldl_writeBlock _ (hfit Prod.snd (Number.ofNat 0))
  rw [(Prod.mk.inj hsame).1, length_replicate] at hlabels
  rw [(Prod.mk.inj hsame).2, length_replicate] at hweights
  rw [(Prod.mk.inj hsame).1] at hlabel
  rw [(Prod.mk.inj hsame).2] at hweight
  refine ⟨not_not.mp hrows, hlabels, hweights, fun position hposition => ⟨?_, ?_⟩⟩
  · rw [hlabel, if_pos (mem_range.mpr hposition),
      blockAt_replicate (sidecar.fits hposition)]
  · rw [hweight, if_pos (mem_range.mpr hposition),
      blockAt_replicate (sidecar.fits hposition), Number.ofNat_real, Nat.cast_zero]

end

end TopKSidecar

end Retrograd.Dataset.TopK
