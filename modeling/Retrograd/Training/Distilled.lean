import Retrograd.Training.Offline

/-!
# The targets of an offline run

A corpus is scored, its sidecar written, read back and turned into a weighted batch. **Every
supervised position whose next token is in its row carries the teacher's distribution** over what
follows that position, its probabilities renormalized, and nothing else carries anything. The number
of terms the batch reports is counted from the corpus, which also supervises the last position of a
full-width row.
-/

namespace Retrograd.Training.Offline

open Logic Dataset.TopK List Option

variable {teacher : Teacher} {prepared : PreparedDataset} {student teacherVocabulary : Vocabulary}
  {k : ℕ} {file : List UInt8}

/-! ### The file -/

/-- A sidecar that is a teacher's over a corpus. -/
structure IsSidecar (student : Vocabulary) (teacher : Teacher) (k : ℕ) (prepared : PreparedDataset)
    (sidecar : TopKSidecar) : Prop where
  k_ne : k ≠ 0
  k_le : k ≤ maxK
  supervised : prepared.examples ≠ 0 ∧ prepared.supervisedTokens ≠ 0
  k_eq : sidecar.k = k
  rows : sidecar.rows = prepared.tokens.length
  check : sidecar.checkAgainst prepared student.size
    (tokenizerFingerprint student.size student.witnesses) (corpusFingerprint prepared) = .ok ()
  holds : Holds teacher prepared k (List.replicate (prepared.tokens.length * k) ignoreLabel,
    List.replicate (prepared.tokens.length * k) negInfinity) (sidecar.ids, sidecar.logprobs)
    fun row position => row < prepared.examples ∧ HasTarget prepared row position

theorem zip_taught (row position : ℕ) :
    ((taught teacher prepared row position).map Prod.fst).zip
      ((taught teacher prepared row position).map Prod.snd) = taught teacher prepared row position := by
  rw [zip_map', map_id'']
  exact fun _ => rfl

/-- A position is one of a row. -/
theorem exists_row {position : ℕ} (h : position < prepared.tokens.length) :
    position / prepared.nCtx < prepared.examples ∧
      position % prepared.nCtx < prepared.nCtx ∧
        position / prepared.nCtx * prepared.nCtx + position % prepared.nCtx = position := by
  rw [prepared.length_tokens] at h
  have hpos : 0 < prepared.nCtx := Nat.pos_of_ne_zero fun h0 => by
    rw [h0, Nat.mul_zero] at h
    exact Nat.not_lt_zero _ h
  exact ⟨Nat.div_lt_of_lt_mul (Nat.mul_comm prepared.examples _ ▸ h), Nat.mod_lt _ hpos,
    Nat.div_add_mod' _ _⟩

variable {sidecar : TopKSidecar}

/-- The entries of a position: the teacher's, or absent ones. -/
theorem IsSidecar.entries (h : IsSidecar student teacher k prepared sidecar) {row position : ℕ}
    (hrow : row < prepared.examples) (hposition : position < prepared.nCtx) :
    (blockAt k sidecar.ids (row * prepared.nCtx + position)).zip
        (blockAt k sidecar.logprobs (row * prepared.nCtx + position)) =
      if HasTarget prepared row position then taught teacher prepared row position
      else List.replicate k (ignoreLabel, negInfinity) := by
  split_ifs with htarget
  · obtain ⟨hids, hlogprobs⟩ := (h.holds row position hposition).1 ⟨hrow, htarget⟩
    rw [hids, hlogprobs, zip_taught]
  · obtain ⟨hids, hlogprobs⟩ := (h.holds row position hposition).2 fun h' => htarget h'.2
    have hfits : (row * prepared.nCtx + position + 1) * k ≤ prepared.tokens.length * k := by
      rw [prepared.length_tokens]
      exact Nat.mul_le_mul_right k (position_lt hrow hposition)
    rw [hids, hlogprobs, blockAt_replicate hfits, blockAt_replicate hfits, zip_replicate,
      Nat.min_self]

/-- **The sidecar comes back from its file.** -/
theorem IsSidecar.read (h : IsSidecar student teacher k prepared sidecar)
    (hteacher : IsTeacher student.size k teacher) (hversion : sidecar.header.version = version)
    (hvocabulary : sidecar.header.vocabSize = student.size) :
    TopKSidecar.read sidecar.write = .ok sidecar := by
  refine (TopKSidecar.read_write_iff sidecar).mpr ⟨hversion, ?_, ?_, ?_⟩
  · intro h0
    have hk := h.k_eq
    rw [TopKSidecar.k, h0] at hk
    exact h.k_ne hk.symm
  · have hk := h.k_eq
    rw [TopKSidecar.k] at hk
    rw [hk]
    exact h.k_le
  · refine forall_mem_zip (n := prepared.tokens.length) h.k_ne ?_ fun position hposition => ?_
    · rw [TopKSidecar.length_ids_eq, h.rows, h.k_eq]
    · obtain ⟨hrow, hin, heq⟩ := exists_row hposition
      have hentries := h.entries hrow hin
      rw [heq] at hentries
      rw [hentries]
      intro entry hentry
      split_ifs at hentry
      · obtain ⟨hpos, hknown⟩ := hteacher.known _ entry hentry
        exact .inl ⟨hpos, hvocabulary ▸ hknown⟩
      · exact .inr (eq_of_mem_replicate hentry)

/-- What `distill-teacher` writes is read back as the teacher's sidecar. -/
theorem of_distillTeacher (hteacher : IsTeacher student.size k teacher)
    (h : distillTeacher student teacherVocabulary teacher k prepared = .ok file) :
    ∃ sidecar, TopKSidecar.read file = .ok sidecar ∧
      IsSidecar student teacher k prepared sidecar := by
  rw [distillTeacher] at h
  split_ifs at h with hk hsupervised hsize hwitnesses
  rw [not_or, Nat.not_lt] at hk
  rw [not_or] at hsupervised
  obtain ⟨arrays, harrays, h⟩ := ok_of_bind h
  obtain ⟨sidecar, hsidecar, h⟩ := ok_of_bind h
  have hfit : prepared.tokens.length * k < 2 ^ 64 := by
    rw [scoreCorpus] at harrays
    split_ifs at harrays with hfit
    exact Nat.not_le.mp hfit
  obtain ⟨after, hafter, -, hholds⟩ := scoreCorpus_eq hteacher hk.1 hfit
  obtain rfl : arrays = after := Except.ok.inj (harrays.symm.trans hafter)
  obtain ⟨hheader, hids, hlogprobs⟩ := TopKSidecar.of_new (ok_of_mapError hsidecar)
  -- the shape of the header is that of the corpus
  have hlength : prepared.tokens.length < 2 ^ 64 :=
    Nat.lt_of_le_of_lt (Nat.le_mul_of_pos_right _ (Nat.pos_of_ne_zero hk.1)) hfit
  have hsmall : k < 2 ^ 32 := Nat.lt_of_le_of_lt hk.2 (by decide)
  have hkeq : sidecar.k = k := by
    rw [TopKSidecar.k, hheader]
    exact Nat.mod_eq_of_lt hsmall
  have hrows : sidecar.rows = prepared.tokens.length := by
    rw [TopKSidecar.rows, hheader]
    exact Nat.mod_eq_of_lt hlength
  have hcheck : sidecar.checkAgainst prepared student.size
      (tokenizerFingerprint student.size student.witnesses)
      (corpusFingerprint prepared) = .ok () := by
    rw [TopKSidecar.checkAgainst, if_neg (not_not.mpr hrows), hheader,
      if_neg (not_not.mpr rfl), if_neg (not_not.mpr rfl), if_neg (not_not.mpr rfl)]
  have hsidecar' : IsSidecar student teacher k prepared sidecar :=
    ⟨hk.1, hk.2, hsupervised, hkeq, hrows, hcheck, by rw [hids, hlogprobs]; exact hholds⟩
  refine ⟨sidecar, ?_, hsidecar'⟩
  rw [← Except.ok.inj h]
  exact hsidecar'.read hteacher (by rw [hheader]) (by rw [hheader])

/-! ### The batch -/

/-- The batch carries, at every position that has a target, the teacher's ids for the row's tokens
up to it with their probabilities renormalized, and nothing anywhere else. -/
structure IsDistilled (real : UInt32 → ℝ) (teacher : Teacher) (prepared : PreparedDataset) (k : ℕ)
    (batch : WeightedBatch ℝ) : Prop where
  tokens : batch.tokens = prepared.tokens
  nTopk : batch.nTopk = k
  labels : batch.labels.length = prepared.tokens.length * k
  weights : batch.weights.length = prepared.tokens.length * k
  carried : ∀ row < prepared.examples, ∀ position, HasTarget prepared row position →
    blockAt k batch.labels (row * prepared.nCtx + position) =
        (taught teacher prepared row position).map Prod.fst ∧
      blockAt k batch.weights (row * prepared.nCtx + position) =
        (taught teacher prepared row position).map
          (renormalized real (taught teacher prepared row position)) ∧
      (blockAt k batch.weights (row * prepared.nCtx + position)).sum = 1
  inert : ∀ row < prepared.examples, ∀ position < prepared.nCtx,
    ¬ HasTarget prepared row position →
    blockAt k batch.labels (row * prepared.nCtx + position) = List.replicate k ignoreLabel ∧
      blockAt k batch.weights (row * prepared.nCtx + position) = List.replicate k 0

/-- The positions that carry an entry. -/
def carrying {R : Type} (batch : WeightedBatch R) : ℕ :=
  (List.range (batch.nRows * batch.nCtx)).countP fun position =>
    (blockAt batch.nTopk batch.labels position).any (0 ≤ ·)

/-- The targets of a position are the teacher's, renormalized. -/
theorem IsSidecar.targetsAt (real : UInt32 → ℝ) (h : IsSidecar student teacher k prepared sidecar)
    (hteacher : IsTeacher student.size k teacher) {row position : ℕ}
    (hrow : row < prepared.examples) (hposition : position < prepared.nCtx) :
    sidecar.targetsAt real prepared (row * prepared.nCtx + position) =
      if HasTarget prepared row position then
        some ((taught teacher prepared row position).map fun entry =>
          (entry.1, renormalized real (taught teacher prepared row position) entry))
      else none := by
  have hlt : row * prepared.nCtx + position < sidecar.rows := by
    rw [h.rows, prepared.length_tokens]
    exact position_lt hrow hposition
  have hrowat := TopKSidecar.row_eq hlt
  rw [h.k_eq, h.entries hrow hposition] at hrowat
  rw [TopKSidecar.targetsAt, hrowat, bind_some]
  change (if labelAt prepared row position < 0 then none else _) = _
  by_cases htarget : HasTarget prepared row position
  · rw [if_neg (Int32.not_lt.mpr htarget.2), if_pos htarget, if_pos htarget]
    have hlength := hteacher.length
      ((blockAt prepared.nCtx prepared.tokens row).take (position + 1))
    refine targetBlock_eq real (fun hnil => ?_) fun entry hentry => ?_
    · rw [taught] at hnil
      rw [hnil] at hlength
      exact h.k_ne hlength.symm
    · exact Bool.and_eq_true_iff.mpr
        ⟨decide_eq_true (hteacher.known _ entry hentry).1, hteacher.finite _ entry hentry⟩
  · rw [if_neg htarget, if_neg htarget]
    split_ifs
    · rfl
    · refine targetBlock_absent real fun entry hentry => ?_
      rw [eq_of_mem_replicate hentry]
      rfl

variable {real : UInt32 → ℝ}

theorem IsSidecar.distilled {labels : List Int32} {weights : List ℝ}
    (h : IsSidecar student teacher k prepared sidecar)
    (hteacher : IsTeacher student.size k teacher)
    (htargets : sidecar.weightedTargets real prepared = .ok (labels, weights)) :
    IsDistilled real teacher prepared k {
      tokens := prepared.tokens
      labels := labels
      weights := weights
      nRows := prepared.examples
      nCtx := prepared.nCtx
      nTopk := sidecar.k } := by
  obtain ⟨-, hlabels, hweights, hblocks⟩ := TopKSidecar.weightedTargets_eq real htargets
  rw [TopKSidecar.length_ids_eq, h.rows, h.k_eq] at hlabels hweights
  have hblock {row position : ℕ} (hrow : row < prepared.examples)
      (hposition : position < prepared.nCtx) := hblocks (row * prepared.nCtx + position) (by
    rw [h.rows, prepared.length_tokens]
    exact position_lt hrow hposition)
  refine ⟨rfl, h.k_eq, hlabels, hweights, fun row hrow position htarget => ?_,
    fun row hrow position hposition htarget => ?_⟩
  · have hposition : position < prepared.nCtx := Nat.lt_of_succ_lt htarget.1
    obtain ⟨hlabel, hweight⟩ := hblock hrow hposition
    rw [h.k_eq, h.targetsAt real hteacher hrow hposition, if_pos htarget, map_some,
      getD_some, List.map_map] at hlabel hweight
    have hlength : (taught teacher prepared row position).length = k := hteacher.length _
    have hsum : ((taught teacher prepared row position).map
        (renormalized real (taught teacher prepared row position))).sum = 1 := by
      refine sum_renormalized real fun hnil => h.k_ne ?_
      rw [← hlength, hnil, length_nil]
    exact ⟨hlabel, hweight, (congrArg List.sum hweight).trans hsum⟩
  · obtain ⟨hlabel, hweight⟩ := hblock hrow hposition
    rw [h.k_eq, h.targetsAt real hteacher hrow hposition, if_neg htarget] at hlabel hweight
    exact ⟨hlabel, hweight⟩

/-! ### The number of terms -/

/-- Two counts, one of fewer things, agree when they count the same things. -/
private theorem countP_eq_iff {α : Type} {p q : α → Bool} {l : List α}
    (hsub : ∀ a ∈ l, p a → q a) : l.countP q = l.countP p ↔ ∀ a ∈ l, q a → p a := by
  induction l with
  | nil => exact ⟨fun _ a ha => absurd ha not_mem_nil, fun _ => rfl⟩
  | cons a l ih =>
    rw [forall_mem_cons] at hsub ⊢
    have ih := ih hsub.2
    have hle : l.countP p ≤ l.countP q := countP_mono_left hsub.2
    rw [countP_cons, countP_cons]
    by_cases hp : p a
    · rw [if_pos hp, if_pos (hsub.1 hp), Nat.add_right_cancel_iff, ih]
      exact ⟨fun h => ⟨fun _ => hp, h⟩, fun h => h.2⟩
    · rw [if_neg hp, Nat.add_zero]
      by_cases hq : q a
      · rw [if_pos hq]
        refine ⟨fun h => by omega, fun h => absurd (h.1 hq) hp⟩
      · rw [if_neg hq, Nat.add_zero, ih]
        exact ⟨fun h => ⟨fun hq' => absurd hq' hq, h⟩, fun h => h.2⟩

theorem IsDistilled.any_iff {batch : WeightedBatch ℝ}
    (h : IsDistilled real teacher prepared k batch) (hteacher : IsTeacher student.size k teacher)
    (hk : k ≠ 0) {row position : ℕ} (hrow : row < prepared.examples)
    (hposition : position < prepared.nCtx) :
    (blockAt k batch.labels (row * prepared.nCtx + position)).any (0 ≤ ·) =
      decide (HasTarget prepared row position) := by
  by_cases htarget : HasTarget prepared row position
  · rw [(h.carried row hrow position htarget).1, decide_eq_true htarget, List.any_eq_true]
    have hlength := hteacher.length
      ((blockAt prepared.nCtx prepared.tokens row).take (position + 1))
    obtain ⟨entry, hentry⟩ := exists_mem_of_ne_nil (taught teacher prepared row position)
      fun hnil => by
        rw [taught] at hnil
        rw [hnil] at hlength
        exact hk hlength.symm
    exact ⟨entry.1, List.mem_map_of_mem hentry, decide_eq_true (hteacher.known _ entry hentry).1⟩
  · rw [(h.inert row hrow position hposition htarget).1, decide_eq_false htarget,
      List.any_eq_false]
    intro id hid
    rw [eq_of_mem_replicate hid]
    decide

/-- The corpus counts the positions it supervises. -/
theorem supervised_eq_countP (prepared : PreparedDataset) :
    prepared.supervisedTokens = (List.range prepared.labels.length).countP
      fun position => 0 ≤ prepared.labels.getD position ignoreLabel := by
  have hmap : prepared.labels =
      (List.range prepared.labels.length).map (prepared.labels.getD · ignoreLabel) := by
    refine ext_getElem (by rw [length_map, length_range]) fun index h _ => ?_
    rw [getElem_map, getElem_range, getD_eq_getElem?_getD,
      getElem?_eq_getElem h, getD_some]
  rw [prepared.supervised_eq]
  conv_lhs => rw [hmap]
  rw [countP_map]
  rfl

/-- **The reported count** is the number of positions that carry an entry exactly when no row
supervises its last position. -/
theorem IsDistilled.count_iff {batch : WeightedBatch ℝ}
    (h : IsDistilled real teacher prepared k batch) (hteacher : IsTeacher student.size k teacher)
    (hk : k ≠ 0) (hrows : batch.nRows = prepared.examples) (hctx : batch.nCtx = prepared.nCtx) :
    prepared.supervisedTokens = carrying batch ↔
      ∀ row < prepared.examples, 0 < prepared.nCtx →
        labelAt prepared row (prepared.nCtx - 1) < 0 := by
  have hany {position : ℕ} (hposition : position ∈ List.range prepared.labels.length) :
      (blockAt batch.nTopk batch.labels position).any (0 ≤ ·) =
        decide (HasTarget prepared (position / prepared.nCtx) (position % prepared.nCtx)) := by
    rw [mem_range, prepared.length_labels, ← prepared.length_tokens] at hposition
    obtain ⟨hrow, hin, heq⟩ := exists_row hposition
    rw [← h.any_iff hteacher hk hrow hin, h.nTopk, heq]
  have hlabel (position : ℕ) : prepared.labels.getD position ignoreLabel =
      labelAt prepared (position / prepared.nCtx) (position % prepared.nCtx) := by
    rw [labelAt, Nat.div_add_mod']
  rw [supervised_eq_countP, carrying, hrows, hctx, ← prepared.length_labels, countP_eq_iff]
  · constructor
    · intro hsame row hrow hpos
      refine Int32.not_le.mp fun hlast => ?_
      have hin : prepared.nCtx - 1 < prepared.nCtx := Nat.sub_lt hpos Nat.one_pos
      have hmem : row * prepared.nCtx + (prepared.nCtx - 1) ∈
          List.range prepared.labels.length := by
        rw [mem_range, prepared.length_labels]
        exact position_lt hrow hin
      have htarget := hsame _ hmem (decide_eq_true hlast)
      rw [h.nTopk, h.any_iff hteacher hk hrow hin] at htarget
      have := (of_decide_eq_true htarget).1
      omega
    · intro hlast position hposition hsupervised
      rw [hany hposition]
      have hlabelled := of_decide_eq_true hsupervised
      rw [hlabel] at hlabelled
      rw [mem_range, prepared.length_labels, ← prepared.length_tokens] at hposition
      obtain ⟨hrow, hin, -⟩ := exists_row hposition
      refine decide_eq_true ⟨?_, hlabelled⟩
      by_contra hend
      have hposition' : position % prepared.nCtx = prepared.nCtx - 1 := by omega
      rw [hposition'] at hlabelled
      exact Int32.not_lt.mpr hlabelled (hlast _ hrow (Nat.zero_lt_of_lt hin))
  · intro position hposition hcarried
    rw [hany hposition] at hcarried
    rw [hlabel]
    exact decide_eq_true (of_decide_eq_true hcarried).2

/-! ### Preparing the run -/

/-- What `prepare` returns is the teacher's distribution over the corpus, with the corpus' own
count. -/
theorem distilled_of_prepare {result : OfflineBatch ℝ}
    (hteacher : IsTeacher student.size k teacher)
    (hfile : distillTeacher student teacherVocabulary teacher k prepared = .ok file)
    (h : prepare real student prepared file = .ok result) :
    IsDistilled real teacher prepared k result.batch ∧
      (result.supervisedPositions = carrying result.batch ↔
        ∀ row < prepared.examples, 0 < prepared.nCtx →
          labelAt prepared row (prepared.nCtx - 1) < 0) := by
  obtain ⟨sidecar, hread, hsidecar⟩ := of_distillTeacher hteacher hfile
  rw [prepare] at h
  split_ifs at h with hsupervised
  obtain ⟨read, hread', h⟩ := ok_of_bind h
  obtain rfl : sidecar = read := Except.ok.inj (hread.symm.trans (ok_of_mapError hread'))
  obtain ⟨⟨⟩, -, h⟩ := ok_of_bind h
  obtain ⟨⟨labels, weights⟩, htargets, h⟩ := ok_of_bind h
  obtain ⟨⟨⟩, -, h⟩ := ok_of_bind h
  rw [← Except.ok.inj h]
  have hdistilled := hsidecar.distilled hteacher (ok_of_mapError htargets)
  exact ⟨hdistilled, hdistilled.count_iff hteacher hsidecar.k_ne rfl rfl⟩

/-- A corpus with a supervised token that fits the machine is scored and prepared. -/
theorem exists_prepared (real : UInt32 → ℝ) (hteacher : IsTeacher student.size k teacher)
    (hk : k ≠ 0) (hmax : k ≤ maxK) (hsupervised : prepared.supervisedTokens ≠ 0)
    (hctx : prepared.nCtx < 2 ^ 32) (hfit : prepared.tokens.length * k * 4 < 2 ^ 64) :
    ∃ file result, distillTeacher student student teacher k prepared = .ok file ∧
      prepare real student prepared file = .ok result := by
  have hlabels : prepared.labels.length ≠ 0 := fun h0 => hsupervised <| by
    rw [prepared.supervised_eq, length_eq_zero_iff.mp h0, countP_nil]
  rw [prepared.length_labels] at hlabels
  have hexamples : prepared.examples ≠ 0 := fun h0 => hlabels (by rw [h0, Nat.zero_mul])
  have hwidth : prepared.nCtx ≠ 0 := fun h0 => hlabels (by rw [h0, Nat.mul_zero])
  have hnone : ¬ (prepared.examples = 0 ∨ prepared.supervisedTokens = 0) :=
    not_or.mpr ⟨hexamples, hsupervised⟩
  have hfit' : prepared.tokens.length * k < 2 ^ 64 :=
    Nat.lt_of_le_of_lt (Nat.le_mul_of_pos_right _ (by decide)) hfit
  obtain ⟨arrays, harrays, hshaped, -⟩ := scoreCorpus_eq hteacher hk hfit'
  have hlength : prepared.tokens.length < 2 ^ 64 :=
    Nat.lt_of_le_of_lt (Nat.le_mul_of_pos_right _ (Nat.pos_of_ne_zero hk)) hfit'
  have hsmall : k < 2 ^ 32 := Nat.lt_of_le_of_lt hmax (by decide)
  -- the arrays have the shape the header declares
  obtain ⟨header, hheader⟩ : ∃ header : TopKHeader, header = {
      version := version
      k := .ofNat k
      nRows := .ofNat prepared.tokens.length
      vocabSize := student.size
      tokenizerHash := tokenizerFingerprint student.size student.witnesses
      sourceHash := corpusFingerprint prepared } := ⟨_, rfl⟩
  have hentries : header.entries = some (prepared.tokens.length * k) := by
    have hrows : header.nRows.toNat = prepared.tokens.length := by
      rw [hheader]
      exact Nat.mod_eq_of_lt hlength
    have hk' : header.k.toNat = k := by
      rw [hheader]
      exact Nat.mod_eq_of_lt hsmall
    rw [TopKHeader.entries, hrows, hk', if_pos hfit']
  have hnew := TopKSidecar.new_eq ⟨header, arrays.1, arrays.2, hshaped.1 ▸ hentries,
    hshaped.2 ▸ hentries⟩
  have hfile : distillTeacher student student teacher k prepared =
      .ok (TopKSidecar.write ⟨header, arrays.1, arrays.2, hshaped.1 ▸ hentries,
        hshaped.2 ▸ hentries⟩) := by
    rw [distillTeacher, if_neg (not_or.mpr ⟨hk, Nat.not_lt.mpr hmax⟩), if_neg hnone,
      if_neg (not_not.mpr rfl), if_neg (not_not.mpr rfl), harrays, ← hheader]
    change ((TopKSidecar.new header arrays.1 arrays.2).mapError OfflineError.sidecar >>= _) = _
    rw [hnew]
    rfl
  obtain ⟨sidecar, hread, hsidecar⟩ := of_distillTeacher hteacher hfile
  obtain ⟨labels, weights, htargets⟩ : ∃ labels weights,
      sidecar.weightedTargets real prepared = .ok (labels, weights) := by
    rw [TopKSidecar.weightedTargets, if_neg (not_not.mpr hsidecar.rows)]
    exact ⟨_, _, rfl⟩
  have hdistilled := hsidecar.distilled hteacher htargets
  have hvalid : (WeightedBatch.mk prepared.tokens labels weights prepared.examples prepared.nCtx
      sidecar.k).validate = .ok () := by
    have hshape := hdistilled.labels
    have hshape' := hdistilled.weights
    dsimp only at hshape hshape'
    rw [prepared.length_tokens] at hfit hshape hshape'
    have hle : prepared.examples * prepared.nCtx ≤ prepared.examples * prepared.nCtx * k :=
      Nat.le_mul_of_pos_right _ (Nat.pos_of_ne_zero hk)
    rw [WeightedBatch.validate, hsidecar.k_eq, hshape, hshape', prepared.length_tokens,
      if_neg (not_or.mpr ⟨hexamples, hwidth⟩), if_neg (by dsimp only; omega),
      if_neg (not_or.mpr ⟨hk, Nat.not_lt.mpr hmax⟩), if_neg (by dsimp only; omega),
      if_neg (by dsimp only; omega), if_neg (Nat.not_le.mpr hctx), if_neg (by simp)]
  refine ⟨_, { batch := ⟨prepared.tokens, labels, weights, prepared.examples, prepared.nCtx,
    sidecar.k⟩, k := sidecar.k, supervisedPositions := prepared.supervisedTokens }, hfile, ?_⟩
  rw [prepare, if_neg hnone, hread]
  change ((sidecar.checkAgainst prepared student.size _ _).mapError OfflineError.check >>= _) = _
  rw [hsidecar.check]
  change ((sidecar.weightedTargets real prepared).mapError OfflineError.check >>= _) = _
  rw [htargets]
  change ((WeightedBatch.validate ⟨prepared.tokens, labels, weights, prepared.examples,
    prepared.nCtx, sidecar.k⟩).mapError OfflineError.batch >>= _) = _
  rw [hvalid]
  rfl

/-- **Offline targets sit at their positions.** What `distill-teacher` writes and `prepare` reads
carries the teacher's renormalized distribution at every supervised position whose next token is in
its row, and nothing anywhere else; the reported number of terms is the number of positions that
carry an entry exactly when no row supervises its last position. A corpus with a supervised token
that fits the machine is scored and prepared. -/
theorem prepared_targets (real : UInt32 → ℝ) (hteacher : IsTeacher student.size k teacher) :
    (∀ file result, distillTeacher student teacherVocabulary teacher k prepared = .ok file →
      prepare real student prepared file = .ok result →
      ((IsDistilled real teacher prepared k result.batch ∧
          result.supervisedPositions = carrying result.batch) ↔
        ∀ row < prepared.examples, 0 < prepared.nCtx →
          labelAt prepared row (prepared.nCtx - 1) < 0) ∧
      IsDistilled real teacher prepared k result.batch) ∧
    (k ≠ 0 → k ≤ maxK → prepared.supervisedTokens ≠ 0 → prepared.nCtx < 2 ^ 32 →
      prepared.tokens.length * k * 4 < 2 ^ 64 → ∃ file result,
        distillTeacher student student teacher k prepared = .ok file ∧
          prepare real student prepared file = .ok result) := by
  refine ⟨fun file result hfile hresult => ?_, exists_prepared real hteacher⟩
  obtain ⟨hdistilled, hcount⟩ := distilled_of_prepare hteacher hfile hresult
  exact ⟨⟨fun h => hcount.mp h.2, fun h => ⟨hdistilled, hcount.mpr h⟩⟩, hdistilled⟩

/-- The bits of `-1.0`. -/
def minusOne : UInt32 := 0xBF800000

/-- A teacher that is certain of one token. -/
def certain : Teacher := fun _ => [(3, minusOne)]

theorem isTeacher_certain : IsTeacher 8 1 certain where
  length _ := rfl
  known _ entry hentry := by
    rw [mem_singleton.mp hentry]
    decide
  finite _ entry hentry := by
    rw [mem_singleton.mp hentry]
    decide

/-- The students' tokenizer. -/
def eight : Vocabulary := ⟨8, []⟩

/-- A chat row, its tail padded. -/
def chatRow : PreparedDataset := ⟨2, [1, 2], [2, -1], 1, 1, rfl, rfl, rfl⟩

/-- A full-width text row. -/
def textRow : PreparedDataset := ⟨2, [1, 2], [2, 3], 1, 2, rfl, rfl, rfl⟩

/-- A chat row does not supervise its last position. -/
theorem prepared_targets_chat : ∃ file result,
    distillTeacher eight eight certain 1 chatRow = .ok file ∧
      prepare (fun _ => (-1 : ℝ)) eight chatRow file = .ok result ∧
      result.supervisedPositions = carrying result.batch := by
  have h := @prepared_targets certain chatRow eight eight 1 (fun _ => -1) isTeacher_certain
  obtain ⟨file, result, hfile, hresult⟩ :=
    h.2 (by decide) (by decide) (by decide) (by decide) (by decide)
  refine ⟨file, result, hfile, hresult, ((h.1 file result hfile hresult).1.mpr ?_).2⟩
  intro row hrow _
  obtain rfl : row = 0 := Nat.lt_one_iff.mp hrow
  decide

/-- A full-width text row supervises its last position, which carries nothing. -/
theorem prepared_text : ∃ file result,
    distillTeacher eight eight certain 1 textRow = .ok file ∧
      prepare (fun _ => (-1 : ℝ)) eight textRow file = .ok result ∧
      result.supervisedPositions ≠ carrying result.batch := by
  obtain ⟨file, result, hfile, hresult⟩ := @exists_prepared certain textRow eight 1 (fun _ => -1)
    isTeacher_certain (by decide) (by decide) (by decide) (by decide) (by decide)
  refine ⟨file, result, hfile, hresult, fun h => ?_⟩
  have hlast := (distilled_of_prepare isTeacher_certain hfile hresult).2.mp h 0 Nat.one_pos
    (by decide)
  exact absurd hlast (by decide)

end Retrograd.Training.Offline
