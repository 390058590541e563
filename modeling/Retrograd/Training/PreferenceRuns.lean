import Retrograd.Training.Preference

/-!
# A preference run performs its plan, from any boundary

The **plan** of a run is the list of its steps, epoch after epoch, each with its own pairs and reference
rows. A run performs the whole plan, and a run resumed from the boundary of a step performs what follows
that step: what was never stored is derived to be the same.
-/

namespace Retrograd.Training.Preference

open Logic List

/-! ### The plan of a run -/

/-- One step of the plan. -/
structure PlannedStep where
  epoch : ℕ
  chunk : ℕ × ℕ
  /-- The first step of its epoch. -/
  first : Bool
  /-- The last step of its epoch. -/
  last : Bool
  rows : List Row

/-- Where a run that has taken this step resumes. -/
def PlannedStep.boundary (step : PlannedStep) : Boundary :=
  if step.last then ⟨step.epoch + 1, 0, none⟩ else ⟨step.epoch, step.chunk.2, none⟩

/-- A pair by its number, with its row of the reference table. -/
def rowAt (prepared : PreparedPreference) (reference : Option ReferenceTable) (pair : ℕ) :
    Option Row :=
  (prepared.pairs[pair]?).bind fun found =>
    match reference with
    | none => some (found, none)
    | some table => (table.train[pair]?).map fun row => (found, some row)

/-- The planned step of a chunk. -/
def plannedStep (prepared : PreparedPreference) (reference : Option ReferenceTable) (epoch : ℕ)
    (entry : (ℕ × ℕ) × ℕ) : PlannedStep where
  epoch := epoch
  chunk := entry.1
  first := entry.2 = 0
  last := entry.2 = (prepared.planEpoch epoch).2.length - 1
  rows := (slice (prepared.planEpoch epoch).1 entry.1).filterMap (rowAt prepared reference)

def epochPlan (prepared : PreparedPreference) (reference : Option ReferenceTable) (epoch : ℕ) :
    List PlannedStep :=
  (prepared.planEpoch epoch).2.zipIdx.map (plannedStep prepared reference epoch)

def plan (prepared : PreparedPreference) (reference : Option ReferenceTable) : List PlannedStep :=
  (List.range prepared.epochs).flatMap (epochPlan prepared reference)

section Perform

variable {σ : Type} (engine : Engine σ) (prepared : PreparedPreference)

/-- An epoch's totals start over with its first step. -/
def Loop.reset (loop : Loop) : Loop := { loop with epochTotals := {} }

/-- Takes one step of a plan; the flag is false when a callback asked to stop. -/
def PlannedStep.act (step : PlannedStep) (loop : Loop) : OutM σ (Bool × Loop) :=
  trainRows engine prepared step.epoch step.chunk step.last step.rows
    (if step.first then loop.reset else loop)

/-- Takes one step after another, until a callback asks to stop. -/
def perform : List PlannedStep → Loop → OutM σ (Bool × Loop)
  | [], loop => pure (true, loop)
  | step :: steps, loop => do
    let (keep, loop) ← step.act engine prepared loop
    if keep then perform steps loop else pure (false, loop)

variable {engine prepared}

theorem perform_append (steps later : List PlannedStep) (loop : Loop) :
    perform engine prepared (steps ++ later) loop =
      (perform engine prepared steps loop >>= fun (keep, loop) =>
        if keep then perform engine prepared later loop else pure (false, loop)) := by
  induction steps generalizing loop with
  | nil => simp [perform]
  | cons step steps ih =>
    rw [cons_append, perform, perform, bind_assoc]
    congr 1
    funext ⟨keep, loop⟩
    cases keep with
    | true => simp [ih]
    | false => simp

end Perform

/-! ### The rows of a step -/

variable {prepared : PreparedPreference} {reference : Option ReferenceTable}

/-- The table has a row for every pair. -/
def Aligned (prepared : PreparedPreference) (reference : Option ReferenceTable) : Prop :=
  ∀ table, reference = some table → table.train.length = prepared.pairs.length

theorem rowOf_ok (haligned : Aligned prepared reference) {pair : ℕ}
    (hpair : pair < prepared.pairs.length) :
    ∃ row, rowAt prepared reference pair = some row ∧ rowOf prepared reference pair = .ok row := by
  have hfound := getElem?_eq_getElem hpair
  cases reference with
  | none =>
    refine ⟨(prepared.pairs[pair], none), ?_, ?_⟩
    · rw [rowAt, hfound]
      rfl
    · rw [rowOf, indexed, hfound]
      rfl
  | some table =>
    have hrow : table.train[pair]? = some (table.train.get ⟨pair, haligned table rfl ▸ hpair⟩) :=
      getElem?_eq_getElem _
    refine ⟨(prepared.pairs[pair], some (table.train.get ⟨pair, haligned table rfl ▸ hpair⟩)), ?_, ?_⟩
    · rw [rowAt, hfound]
      change (table.train[pair]?).map _ = _
      rw [hrow]
      rfl
    · rw [rowOf, indexed, hfound]
      change (indexed table.train pair >>= _) = _
      rw [indexed, hrow]
      rfl

/-- The rows of a step are those of its pairs, one for each. -/
theorem mapM_rowOf (haligned : Aligned prepared reference) {pairs : List ℕ}
    (hpairs : ∀ pair ∈ pairs, pair < prepared.pairs.length) :
    pairs.mapM (rowOf prepared reference) = .ok (pairs.filterMap (rowAt prepared reference)) ∧
      (pairs.filterMap (rowAt prepared reference)).map some =
        pairs.map (rowAt prepared reference) := by
  induction pairs with
  | nil => exact ⟨rfl, rfl⟩
  | cons pair pairs ih =>
    obtain ⟨row, hat, hof⟩ := rowOf_ok haligned (hpairs pair (.head _))
    obtain ⟨hmapM, hmap⟩ := ih fun pair hpair => hpairs pair (.tail _ hpair)
    rw [mapM_cons, hof, hmapM, filterMap_cons, hat]
    exact ⟨rfl, by rw [map_cons, hmap, map_cons, hat]⟩

theorem mem_planEpoch_lt (epoch : ℕ) (chunk : ℕ × ℕ) {pair : ℕ}
    (hpair : pair ∈ slice (prepared.planEpoch epoch).1 chunk) : pair < prepared.pairs.length := by
  have hmem : pair ∈ (prepared.planEpoch epoch).1 :=
    mem_of_mem_drop (mem_of_mem_take hpair)
  exact mem_range.mp ((epochOrder_perm ..).mem_iff.mp hmem)

theorem planEpoch_chunked (epoch : ℕ) :
    Chunked (prepared.planEpoch epoch).1 prepared.costs prepared.layout.accumulationPeriod
      (chunkCap prepared.pairsPerStep) (prepared.planEpoch epoch).2 :=
  chunkPairs_chunked ..

theorem length_planEpoch (prepared : PreparedPreference) (epoch : ℕ) :
    (prepared.planEpoch epoch).1.length = prepared.pairs.length := by
  exact (epochOrder_perm ..).length_eq.trans length_range

theorem planEpoch_tiles (prepared : PreparedPreference) (epoch : ℕ) :
    Tiles 0 prepared.pairs.length (prepared.planEpoch epoch).2 :=
  length_planEpoch prepared epoch ▸ (planEpoch_chunked epoch).tiles

theorem pairs_pos (prepared : PreparedPreference) : 0 < prepared.pairs.length :=
  length_pos_of_ne_nil prepared.nonempty

/-! ### Cursors -/

variable {chunks : List (ℕ × ℕ)} {stop cursor : ℕ}

/-- The end of a chunk is the start of the next one. -/
theorem resumeChunk_next (h : Tiles 0 stop chunks) {i : ℕ} {chunk : ℕ × ℕ}
    (hchunk : chunks[i]? = some chunk) (hlast : i + 1 < chunks.length) :
    resumeChunk chunks chunk.2 = .ok (i + 1) := by
  have hpos : chunk.2 ≠ 0 :=
    Nat.ne_of_gt (Nat.zero_lt_of_lt (h.lt_of_mem (mem_of_getElem? hchunk)))
  have hnext := getElem?_eq_getElem hlast
  have hstart := h.start_succ hchunk hnext
  have hfind : chunks.findIdx? (fun other => decide (other.1 = chunk.2)) = some (i + 1) := by
    refine findIdx?_eq_some_iff_getElem.mpr ⟨hlast, decide_eq_true hstart, fun j hj => ?_⟩
    have hlt := h.starts_lt (getElem?_eq_getElem (hj.trans hlast)) hnext hj
    rw [decide_eq_true_iff]
    omega
  rw [resumeChunk, if_neg hpos, hfind]

/-- The number of pairs is past every chunk. -/
theorem resumeChunk_stop (h : Tiles 0 stop chunks) (hstop : 0 < stop) :
    resumeChunk chunks stop = .ok chunks.length := by
  have hfind : chunks.findIdx? (fun other => decide (other.1 = stop)) = none := by
    refine findIdx?_eq_none_iff.mpr fun other hother => decide_eq_false ?_
    have hlt := h.lt_of_mem hother
    have hle := h.le_of_mem hother
    omega
  rw [resumeChunk, if_neg (by omega), hfind]
  exact if_pos (h.getLast? hstop)

/-- Any other cursor is refused. -/
theorem resumeChunk_refuses (h : Tiles 0 stop chunks) (hstop : 0 < stop)
    (hstart : ∀ chunk ∈ chunks, chunk.1 ≠ cursor) (hend : cursor ≠ stop) :
    ∃ message, resumeChunk chunks cursor = .error (.checkpoint message) := by
  have hzero : cursor ≠ 0 := by
    obtain ⟨first, hfirst, hfst⟩ := Option.map_eq_some_iff.mp (h.head? hstop)
    exact fun heq => hstart first (mem_of_head? hfirst) (hfst.trans heq.symm)
  have hfind : chunks.findIdx? (fun other => decide (other.1 = cursor)) = none :=
    findIdx?_eq_none_iff.mpr fun other hother => decide_eq_false (hstart other hother)
  have hlast : chunks.getLast?.map Prod.snd ≠ some cursor := by
    rw [h.getLast? hstop]
    exact fun heq => hend (Option.some.inj heq).symm
  rw [resumeChunk, if_neg hzero, hfind]
  exact ⟨_, if_neg hlast⟩

/-! ### A run performs its plan -/

section Runs

variable {σ : Type} {engine : Engine σ} {loop : Loop}

theorem check_ok {α : Type} (a : α) : (check (.ok a) : OutM σ α) = pure a := rfl

theorem check_error_bind {α β : Type} (error : Error) (f : α → OutM σ β) :
    check (.error error) >>= f = throw error := rfl

/-- The steps of chunks, the first of which may be the first of its epoch. -/
theorem runChunks_eq (haligned : Aligned prepared reference) (epoch : ℕ)
    {entries : List ((ℕ × ℕ) × ℕ)} (hlater : ∀ entry ∈ entries, entry.2 ≠ 0) :
    runChunks engine prepared reference epoch ((prepared.planEpoch epoch).2.length - 1)
        (prepared.planEpoch epoch).1 entries loop =
      perform engine prepared (entries.map (plannedStep prepared reference epoch)) loop := by
  induction entries generalizing loop with
  | nil => rfl
  | cons entry entries ih =>
    have hrows := (mapM_rowOf haligned fun pair hpair =>
      mem_planEpoch_lt epoch entry.1 hpair).1
    have hfirst : (plannedStep prepared reference epoch entry).first = false :=
      decide_eq_false (hlater entry (.head _))
    rw [runChunks, hrows, check_ok, pure_bind, map_cons, perform, PlannedStep.act, hfirst]
    congr 1
    funext ⟨keep, loop⟩
    dsimp only
    rw [ih fun entry hentry => hlater entry (.tail _ hentry)]

/-- The steps of an epoch from a chunk on, which start with no totals. -/
theorem runChunks_drop (engine : Engine σ) (loop : Loop) (haligned : Aligned prepared reference) (epoch first : ℕ) :
    runChunks engine prepared reference epoch ((prepared.planEpoch epoch).2.length - 1)
        (prepared.planEpoch epoch).1 ((prepared.planEpoch epoch).2.zipIdx.drop first) loop.reset =
      perform engine prepared ((epochPlan prepared reference epoch).drop first) loop.reset := by
  rw [epochPlan, ← map_drop]
  cases hentries : (prepared.planEpoch epoch).2.zipIdx.drop first with
  | nil => rfl
  | cons entry entries =>
    have hlater : ∀ later ∈ entries, later.2 ≠ 0 := by
      intro later hmem
      obtain ⟨j, hj⟩ := mem_iff_getElem?.mp hmem
      have hat : ((prepared.planEpoch epoch).2.zipIdx.drop first)[j + 1]? = some later := by
        rw [hentries, getElem?_cons_succ, hj]
      rw [getElem?_drop, getElem?_zipIdx] at hat
      obtain ⟨_, _, rfl⟩ := Option.map_eq_some_iff.mp hat
      dsimp only
      omega
    have hrows := (mapM_rowOf haligned fun pair hpair =>
      mem_planEpoch_lt epoch entry.1 hpair).1
    have hreset : (if (plannedStep prepared reference epoch entry).first = true then
        loop.reset.reset else loop.reset) = loop.reset := ite_self _
    rw [runChunks, hrows, check_ok, pure_bind, map_cons, perform, PlannedStep.act, hreset]
    congr 1
    funext ⟨keep, loop⟩
    dsimp only
    rw [runChunks_eq haligned epoch hlater]

/-- A whole epoch starts with no totals by itself. -/
theorem perform_epochPlan_reset (epoch : ℕ) (later : List PlannedStep) :
    perform engine prepared (epochPlan prepared reference epoch ++ later) loop.reset =
      perform engine prepared (epochPlan prepared reference epoch ++ later) loop := by
  cases hchunks : (prepared.planEpoch epoch).2 with
  | nil =>
    have htiles := planEpoch_tiles prepared epoch
    rw [hchunks] at htiles
    have hhead := htiles.head? (pairs_pos prepared)
    cases hhead
  | cons chunk chunks =>
    have hplan : epochPlan prepared reference epoch =
        plannedStep prepared reference epoch (chunk, 0) ::
          (chunks.zipIdx 1).map (plannedStep prepared reference epoch) := by
      rw [epochPlan, hchunks]
      rfl
    rw [hplan, cons_append, perform, perform, PlannedStep.act, PlannedStep.act]
    rfl

/-- The epochs from one on. -/
def laterPlan (prepared : PreparedPreference) (reference : Option ReferenceTable) (epoch : ℕ) :
    List PlannedStep :=
  (List.range' epoch (prepared.epochs - epoch)).flatMap (epochPlan prepared reference)

variable {start cursor : ℕ}

theorem runEpochs_later (haligned : Aligned prepared reference) {epochs : List ℕ}
    (hlater : ∀ epoch ∈ epochs, start < epoch) :
    runEpochs engine prepared reference start cursor epochs loop =
      perform engine prepared (epochs.flatMap (epochPlan prepared reference)) loop := by
  induction epochs generalizing loop with
  | nil => rfl
  | cons epoch epochs ih =>
    have hlt := hlater epoch (.head _)
    rw [runEpochs, if_neg (by omega), if_neg (by omega), pure_bind, flatMap_cons,
      ← perform_epochPlan_reset, perform_append]
    have hchunks := runChunks_drop engine loop haligned epoch 0
    change (runChunks engine prepared reference epoch _ _ _ loop.reset >>= _) = _
    rw [hchunks, drop_zero]
    congr 1
    funext ⟨keep, loop⟩
    dsimp only
    rw [ih fun epoch hepoch => hlater epoch (.tail _ hepoch)]

/-- The epochs before the first are passed over. -/
theorem runEpochs_skip (engine : Engine σ) (prepared : PreparedPreference)
    (reference : Option ReferenceTable) (cursor : ℕ) (loop : Loop) {start : ℕ} {skipped : List ℕ}
    (epochs : List ℕ) (hskipped : ∀ epoch ∈ skipped, epoch < start) :
    runEpochs engine prepared reference start cursor (skipped ++ epochs) loop =
      runEpochs engine prepared reference start cursor epochs loop := by
  induction skipped with
  | nil => rfl
  | cons epoch skipped ih =>
    rw [cons_append, runEpochs, if_pos (hskipped epoch (.head _)),
      ih fun epoch hepoch => hskipped epoch (.tail _ hepoch)]

/-- **A run from a cursor**: the rest of its first epoch's steps, and those of the epochs after it. -/
theorem runEpochs_eq (engine : Engine σ) (loop : Loop) (haligned : Aligned prepared reference)
    {start : ℕ} (cursor : ℕ)
    (hstart : start < prepared.epochs) :
    runEpochs engine prepared reference start cursor (List.range prepared.epochs) loop.reset =
      (check (resumeChunk (prepared.planEpoch start).2 cursor) >>= fun first =>
        perform engine prepared ((epochPlan prepared reference start).drop first ++
          laterPlan prepared reference (start + 1)) loop.reset) := by
  have hrange : List.range prepared.epochs =
      List.range start ++ start :: List.range' (start + 1) (prepared.epochs - (start + 1)) := by
    have hlength : prepared.epochs = start + (prepared.epochs - (start + 1) + 1) := by omega
    conv_lhs => rw [hlength]
    rw [← range'_succ, range_eq_range', range_eq_range', ← range'_append_1,
      Nat.zero_add]
  rw [hrange, runEpochs_skip _ _ _ _ _ _ fun epoch hepoch => mem_range.mp hepoch, runEpochs,
    if_neg (lt_irrefl _), if_pos rfl]
  congr 1
  funext first
  change (runChunks engine prepared reference start _ _ _ loop.reset >>= _) = _
  rw [runChunks_drop engine loop haligned, perform_append]
  congr 1
  funext ⟨keep, loop⟩
  dsimp only
  have hlater : ∀ epoch ∈ List.range' (start + 1) (prepared.epochs - (start + 1)), start < epoch :=
    fun epoch hepoch => (mem_range'_1.mp hepoch).1
  rw [runEpochs_later haligned hlater]
  rfl

/-! ### Where a step of the plan stands -/

theorem laterPlan_succ {start : ℕ} (hstart : start < prepared.epochs) :
    laterPlan prepared reference start =
      epochPlan prepared reference start ++ laterPlan prepared reference (start + 1) := by
  have hlength : prepared.epochs - start = prepared.epochs - (start + 1) + 1 := by omega
  rw [laterPlan, hlength, range'_succ, flatMap_cons]
  rfl

theorem laterPlan_of_le {start : ℕ} (hstart : prepared.epochs ≤ start) :
    laterPlan prepared reference start = [] := by
  rw [laterPlan, Nat.sub_eq_zero_of_le hstart]
  rfl

theorem plan_eq_laterPlan : plan prepared reference = laterPlan prepared reference 0 := by
  rw [plan, laterPlan, range_eq_range', Nat.sub_zero]

/-- What follows a step is the rest of its epoch, and the epochs after it. -/
theorem laterPlan_split {count start : ℕ} {before after : List PlannedStep} {step : PlannedStep}
    (hcount : prepared.epochs - start = count)
    (hplan : laterPlan prepared reference start = before ++ step :: after) :
    ∃ epoch < prepared.epochs, ∃ i, (epochPlan prepared reference epoch)[i]? = some step ∧
      after = (epochPlan prepared reference epoch).drop (i + 1) ++
        laterPlan prepared reference (epoch + 1) := by
  induction count generalizing start before with
  | zero =>
    rw [laterPlan_of_le (by omega)] at hplan
    simp at hplan
  | succ count ih =>
    have hstart : start < prepared.epochs := by omega
    rw [laterPlan_succ hstart, append_eq_append_iff] at hplan
    rcases hplan with ⟨rest, _, hlater⟩ | ⟨rest, hepoch, hafter⟩
    · exact ih (by omega) hlater
    · cases rest with
      | nil => exact @ih (start + 1) [] (by omega) hafter.symm
      | cons first rest =>
        obtain ⟨rfl, hrest⟩ := cons.inj hafter
        have hdrop : (before ++ step :: rest).drop (before.length + 1) = rest := by simp
        refine ⟨start, hstart, before.length, ?_, ?_⟩
        · rw [hepoch, getElem?_append_right le_rfl, Nat.sub_self]
          rfl
        · rw [hepoch, hdrop]
          exact hrest

/-- What a step of an epoch trains. -/
theorem epochPlan_getElem? {epoch i : ℕ} {step : PlannedStep}
    (hstep : (epochPlan prepared reference epoch)[i]? = some step) :
    ∃ chunk, (prepared.planEpoch epoch).2[i]? = some chunk ∧
      step = plannedStep prepared reference epoch (chunk, i) := by
  rw [epochPlan, getElem?_map, getElem?_zipIdx] at hstep
  obtain ⟨entry, hentry, rfl⟩ := Option.map_eq_some_iff.mp hstep
  obtain ⟨chunk, hchunk, rfl⟩ := Option.map_eq_some_iff.mp hentry
  exact ⟨chunk, hchunk, by rw [Nat.zero_add]⟩

theorem length_epochPlan (epoch : ℕ) :
    (epochPlan prepared reference epoch).length = (prepared.planEpoch epoch).2.length := by
  rw [epochPlan, length_map, length_zipIdx]

/-! ### The whole run -/

variable {config : PreferenceConfig}

/-- A run that performs the given steps. -/
def performs (engine : Engine σ) (prepared : PreparedPreference) (config : PreferenceConfig)
    (steps : List PlannedStep) : OutM σ TrainMetrics := do
  let loop ← openLoop engine config
  let (_, loop) ← perform engine prepared steps loop
  pure loop.finalMetrics

theorem aligned_of_check (h : checkReference prepared config reference = .ok ()) :
    Aligned prepared reference := by
  rintro table rfl
  by_contra hlength
  rw [checkReference] at h
  split_ifs at h with huses hshort
  exact hshort (.inl hlength)

/-- A run from a boundary within the epochs resumes its epoch at the cursor. -/
theorem runResumed_eq (hcheck : checkReference prepared config reference = .ok ())
    {resume : Option Boundary} (hresume : startOf resume = .ok (start, cursor))
    (hstart : start < prepared.epochs) : runResumed engine prepared config reference resume =
      (openLoop engine config >>= fun loop =>
        check (resumeChunk (prepared.planEpoch start).2 cursor) >>= fun first =>
          perform engine prepared ((epochPlan prepared reference start).drop first ++
            laterPlan prepared reference (start + 1)) loop >>= fun result =>
              pure result.2.finalMetrics) := by
  rw [runResumed, hcheck, check_ok, pure_bind, hresume, check_ok, pure_bind, openLoop]
  simp only [bind_assoc, pure_bind]
  congr 1
  funext globalStep
  generalize hloop : ({ globalStep, drift := ⟨none, config.logpsDropWarn.toFloat, false⟩ } : Loop) =
    loop
  have hreset : loop.reset = loop := hloop ▸ rfl
  rw [← hreset, runEpochs_eq engine loop (aligned_of_check hcheck) cursor hstart, bind_assoc]

theorem runResumed_of_first (hcheck : checkReference prepared config reference = .ok ())
    {resume : Option Boundary} {start cursor first : ℕ}
    (hresume : startOf resume = .ok (start, cursor)) (hstart : start < prepared.epochs)
    (hfirst : resumeChunk (prepared.planEpoch start).2 cursor = .ok first) :
    runResumed engine prepared config reference resume =
      performs engine prepared config ((epochPlan prepared reference start).drop first ++
        laterPlan prepared reference (start + 1)) := by
  rw [runResumed_eq hcheck hresume hstart, hfirst]
  rfl

/-- A run past the last epoch has nothing to do. -/
theorem runResumed_done (hcheck : checkReference prepared config reference = .ok ())
    {resume : Option Boundary} (hresume : startOf resume = .ok (start, cursor))
    (hstart : prepared.epochs ≤ start) :
    runResumed engine prepared config reference resume = performs engine prepared config [] := by
  rw [runResumed, hcheck, check_ok, pure_bind, hresume, check_ok, pure_bind]
  have hskip (loop : Loop) : runEpochs engine prepared reference start cursor
      (List.range prepared.epochs) loop = pure (true, loop) := by
    have hskipped := runEpochs_skip engine prepared reference cursor loop [] fun epoch hepoch =>
      (mem_range.mp hepoch).trans_le hstart
    rw [append_nil] at hskipped
    exact hskipped
  simp only [hskip]
  rfl

/-- **A run from the boundary of a step** performs what follows the step. -/
theorem runResumed_boundary (hcheck : checkReference prepared config reference = .ok ())
    {before after : List PlannedStep} {step : PlannedStep}
    (hplan : plan prepared reference = before ++ step :: after) :
    runResumed engine prepared config reference (some step.boundary) =
      performs engine prepared config after := by
  rw [plan_eq_laterPlan] at hplan
  obtain ⟨epoch, hepoch, i, hstep, rfl⟩ := laterPlan_split rfl hplan
  obtain ⟨chunk, hchunk, rfl⟩ := epochPlan_getElem? hstep
  have hlt : i < (prepared.planEpoch epoch).2.length := (List.getElem?_eq_some_iff.mp hchunk).1
  have hbound := prepared.epochs_lt
  by_cases hlast : i = (prepared.planEpoch epoch).2.length - 1
  · have hboundary : (plannedStep prepared reference epoch (chunk, i)).boundary =
        ⟨epoch + 1, 0, none⟩ := if_pos (decide_eq_true hlast)
    have hresume : startOf (some ⟨epoch + 1, 0, none⟩) = .ok (epoch + 1, 0) := by
      rw [startOf, if_neg]
      dsimp only
      omega
    have hrest : (epochPlan prepared reference epoch).drop (i + 1) = [] :=
      drop_eq_nil_of_le (by rw [length_epochPlan]; omega)
    rw [hboundary, hrest, nil_append]
    by_cases hnext : epoch + 1 < prepared.epochs
    · rw [runResumed_of_first hcheck hresume hnext rfl, drop_zero, laterPlan_succ hnext]
    · rw [runResumed_done hcheck hresume (Nat.le_of_not_lt hnext),
        laterPlan_of_le (Nat.le_of_not_lt hnext)]
  · have hboundary : (plannedStep prepared reference epoch (chunk, i)).boundary =
        ⟨epoch, chunk.2, none⟩ := if_neg (by simpa [plannedStep] using hlast)
    have hresume : startOf (some ⟨epoch, chunk.2, none⟩) = .ok (epoch, chunk.2) := by
      rw [startOf, if_neg]
      dsimp only
      omega
    rw [hboundary, runResumed_of_first hcheck hresume hepoch
      (resumeChunk_next (planEpoch_tiles prepared epoch) hchunk (by omega))]

/-! ### The scheduler and the callback -/

/-- What the engine does with its step counter: an advance adds to it, a step reports it, and a callback
leaves it alone. -/
structure Counts (engine : Engine σ) (position : σ → ℕ) : Prop where
  advance (steps : ℕ) (s : σ) : wp (ask (engine.advanceSchedulerSteps steps))
    (fun reached s' => position s' = position s + steps ∧ reached = position s') (fun _ _ => True) s
  step (rows : List Row) (horizon : ℕ) (s : σ) : wp (ask (engine.step rows horizon))
    (fun result s' => result.1.globalStep = position s') (fun _ _ => True) s
  onProgress (progress : Progress) (s : σ) : wp (ask (engine.onProgress progress))
    (fun _ s' => position s' = position s) (fun _ _ => True) s

variable {s : σ}

theorem Counts.countStep {position : σ → ℕ} (h : Counts engine position) {globalStep reached : ℕ}
    (hreached : reached = position s) : wp (countStep engine globalStep reached)
      (fun global s' => position s' = globalStep + 1 ∧ global = position s') (fun _ _ => True) s := by
  rw [Preference.countStep]
  dsimp only
  split_ifs with hback hmany
  · trivial
  · trivial
  · refine wp_mono (h.advance _ s) (fun global s' hadvance => ?_) fun _ _ _ => trivial
    exact ⟨by omega, hadvance.2⟩

theorem Counts.report {position : σ → ℕ} (h : Counts engine position) (epoch : ℕ) (chunk : ℕ × ℕ)
    (atEpochEnd : Bool) {metrics : TrainMetrics} (totals : Totals)
    (hglobal : metrics.globalStep = position s) :
    wp (report engine epoch chunk atEpochEnd metrics totals loop)
      (fun result s' => position s' = position s ∧ result.2.globalStep = position s')
      (fun _ _ => True) s := by
  rw [Preference.report, wp_bind]
  refine wp_mono (h.onProgress _ s) (fun keepGoing s₁ hreport => ?_) fun _ _ _ => trivial
  cases atEpochEnd with
  | false => exact ⟨hreport, hglobal.trans hreport.symm⟩
  | true =>
    change wp (ask (engine.onProgress _) >>= _) _ _ s₁
    rw [wp_bind]
    refine wp_mono (h.onProgress _ s₁) (fun keepEpoch s₂ hepoch => ?_) fun _ _ _ => trivial
    have hsame : position s₂ = position s := hepoch.trans hreport
    exact ⟨hsame, hglobal.trans hsame.symm⟩

/-- A step moves the scheduler by one, whether the runtime took it or skipped it. -/
theorem Counts.act {position : σ → ℕ} (h : Counts engine position) (step : PlannedStep)
    (hloop : loop.globalStep = position s) : wp (step.act engine prepared loop)
      (fun result s' => position s' = position s + 1 ∧ result.2.globalStep = position s')
      (fun _ _ => True) s := by
  rw [PlannedStep.act]
  have hglobal : (if step.first then loop.reset else loop).globalStep = position s := by
    split_ifs <;> exact hloop
  generalize (if step.first then loop.reset else loop) = loop at hglobal
  rw [trainRows, wp_bind]
  refine wp_mono (h.step step.rows prepared.totalSteps s) (fun result s₁ hstep => ?_)
    fun _ _ _ => trivial
  obtain ⟨metrics, totals⟩ := result
  dsimp only at hstep ⊢
  rw [wp_bind]
  refine wp_mono (h.countStep hstep) (fun global s₂ hcount => ?_) fun _ _ _ => trivial
  refine wp_mono (h.report _ _ _ _ hcount.2) (fun result s₃ hreport => ?_) fun _ _ _ => trivial
  exact ⟨by omega, hreport.2⟩

/-- A plan whose steps are all taken moves the scheduler by their number. -/
theorem Counts.perform {position : σ → ℕ} (h : Counts engine position) (steps : List PlannedStep)
    (hloop : loop.globalStep = position s) : wp (perform engine prepared steps loop)
      (fun result s' => result.1 = true →
        position s' = position s + steps.length ∧ result.2.globalStep = position s')
      (fun _ _ => True) s := by
  induction steps generalizing loop s with
  | nil => exact fun _ => ⟨rfl, hloop⟩
  | cons step steps ih =>
    rw [Preference.perform, wp_bind]
    refine wp_mono (h.act step hloop) (fun result s₁ hact => ?_) fun _ _ _ => trivial
    obtain ⟨keep, loop₁⟩ := result
    cases keep with
    | false => exact fun hkeep => absurd hkeep Bool.false_ne_true
    | true =>
      refine wp_mono (ih hact.2) (fun result s₂ hrest hkeep => ?_) fun _ _ _ => trivial
      obtain ⟨hposition, hglobal⟩ := hrest hkeep
      have hfirst := hact.1
      rw [length_cons]
      exact ⟨by omega, hglobal⟩

/-- Two engines that differ at most in what the callback answers to other boundaries. -/
structure SameOn (boundaries : List Boundary) (engine engine' : Engine σ) : Prop where
  advance : engine'.advanceSchedulerSteps = engine.advanceSchedulerSteps
  step : engine'.step = engine.step
  onProgress (progress : Progress)
    (h : ∀ boundary, progress.boundary = some boundary → boundary ∈ boundaries) :
    engine'.onProgress progress = engine.onProgress progress

variable {boundaries : List Boundary} {engine' : Engine σ}

/-- The boundary a step emits is its own. -/
theorem SameOn.act (h : SameOn boundaries engine engine') {step : PlannedStep}
    (hstep : step.boundary ∈ boundaries) :
    step.act engine' prepared loop = step.act engine prepared loop := by
  have hcount (globalStep reached : ℕ) :
      countStep engine' globalStep reached = countStep engine globalStep reached := by
    rw [countStep, countStep, h.advance]
  have hreport (metrics : TrainMetrics) (totals : Totals) (loop : Loop)
      (hepoch : metrics.epoch = step.epoch + 1) (hopen : metrics.epochComplete = false) :
      report engine' step.epoch step.chunk step.last metrics totals loop =
        report engine step.epoch step.chunk step.last metrics totals loop := by
    rw [PlannedStep.boundary] at hstep
    rw [report, report]
    cases hlast : step.last with
    | false =>
      rw [hlast] at hstep
      dsimp only
      rw [h.onProgress _ fun boundary hboundary => ?_]
      · rfl
      · obtain rfl := Option.some.inj hboundary
        exact hstep
    | true =>
      rw [hlast] at hstep
      dsimp only
      rw [h.onProgress _ fun boundary hboundary => by cases hboundary]
      congr 1
      funext keepGoing
      change (ask (engine'.onProgress _) >>= _) = (ask (engine.onProgress _) >>= _)
      rw [h.onProgress _ fun boundary hboundary => ?_]
      have hnext : (⟨metrics.epoch, 0, none⟩ : Boundary) = boundary := Option.some.inj hboundary
      rw [← hnext, hepoch]
      exact hstep
  rw [PlannedStep.act, PlannedStep.act, trainRows, trainRows, h.step]
  congr 1
  funext result
  simp only [hcount]
  congr 1
  funext globalStep
  exact hreport _ _ _ rfl rfl

theorem SameOn.perform (h : SameOn boundaries engine engine') {steps : List PlannedStep}
    (hsteps : ∀ step ∈ steps, step.boundary ∈ boundaries) :
    perform engine' prepared steps loop = perform engine prepared steps loop := by
  induction steps generalizing loop with
  | nil => rfl
  | cons step steps ih =>
    rw [Preference.perform, Preference.perform, h.act (hsteps step (.head _))]
    congr 1
    funext ⟨keep, loop⟩
    dsimp only
    rw [ih fun step hstep => hsteps step (.tail _ hstep)]

/-! ### What the plan holds -/

theorem foldl_saturatingAdd (counts : List ℕ) (sum : ℕ) :
    counts.foldl saturatingAdd (min sum u64Max) = min (sum + counts.sum) u64Max := by
  induction counts generalizing sum with
  | nil => rfl
  | cons count counts ih =>
    rw [foldl_cons, saturatingAdd_min, ih, sum_cons, Nat.add_assoc]

theorem totalSteps_eq (prepared : PreparedPreference) (reference : Option ReferenceTable) :
    prepared.totalSteps = min (plan prepared reference).length u64Max := by
  have hlength : (plan prepared reference).length =
      ((List.range prepared.epochs).map fun epoch => (prepared.planEpoch epoch).2.length).sum := by
    rw [plan, length_flatMap]
    congr 1
    exact map_congr_left fun epoch _ => length_epochPlan epoch
  rw [PreparedPreference.totalSteps, hlength]
  have hfold := foldl_saturatingAdd
    ((List.range prepared.epochs).map fun epoch => (prepared.planEpoch epoch).2.length) 0
  rwa [Nat.zero_min, Nat.zero_add] at hfold

/-- Where a step of the plan comes from: a chunk of its epoch, with the rows of that chunk's pairs. -/
structure PlannedStep.From (prepared : PreparedPreference) (reference : Option ReferenceTable)
    (step : PlannedStep) : Prop where
  epoch : step.epoch < prepared.epochs
  chunk : step.chunk ∈ (prepared.planEpoch step.epoch).2
  rows : step.rows.map some =
    (slice (prepared.planEpoch step.epoch).1 step.chunk).map (rowAt prepared reference)

theorem plan_from (haligned : Aligned prepared reference) {step : PlannedStep}
    (hstep : step ∈ plan prepared reference) : step.From prepared reference := by
  obtain ⟨epoch, hepoch, hmem⟩ := mem_flatMap.mp hstep
  obtain ⟨entry, hentry, rfl⟩ := mem_map.mp hmem
  refine ⟨mem_range.mp hepoch, ?_, ?_⟩
  · exact mem_of_getElem? (mem_zipIdx_iff_getElem?.mp hentry)
  · exact (mapM_rowOf haligned fun pair hpair => mem_planEpoch_lt epoch entry.1 hpair).2

/-- The plan of a prepared run: every epoch's order is a permutation of the pairs, its chunks cut the
order, and the horizon counts the plan's steps up to `u64::MAX`. -/
structure Covers (prepared : PreparedPreference) (reference : Option ReferenceTable) : Prop where
  order (epoch : ℕ) : (prepared.planEpoch epoch).1.Perm (List.range prepared.pairs.length)
  chunks (epoch : ℕ) : Chunked (prepared.planEpoch epoch).1 prepared.costs
    prepared.layout.accumulationPeriod (chunkCap prepared.pairsPerStep) (prepared.planEpoch epoch).2
  steps : (plan prepared reference).map (fun step => (step.epoch, step.chunk)) =
    (List.range prepared.epochs).flatMap fun epoch =>
      (prepared.planEpoch epoch).2.map fun chunk => (epoch, chunk)
  rows (step : PlannedStep) (h : step ∈ plan prepared reference) : step.From prepared reference
  total : prepared.totalSteps = min (plan prepared reference).length u64Max

/-- What a run does with its plan, from its start and from the boundary of any step; which boundaries it
emits; and which cursors it refuses. -/
structure Resumes (engine : Engine σ) (prepared : PreparedPreference) (config : PreferenceConfig)
    (reference : Option ReferenceTable) : Prop where
  fresh : runResumed engine prepared config reference none =
    performs engine prepared config (plan prepared reference)
  resumed (before after : List PlannedStep) (step : PlannedStep)
    (h : plan prepared reference = before ++ step :: after) :
    runResumed engine prepared config reference (some step.boundary) =
      performs engine prepared config after
  emitted (engine' : Engine σ)
    (h : SameOn ((plan prepared reference).map PlannedStep.boundary) engine engine')
    (resume : Option Boundary) :
    runResumed engine' prepared config reference resume =
      runResumed engine prepared config reference resume
  positions (position : σ → ℕ) (h : Counts engine position) (steps : List PlannedStep) (loop : Loop)
    (s : σ) (hloop : loop.globalStep = position s) :
    wp (perform engine prepared steps loop)
      (fun result s' => result.1 = true → position s' = position s + steps.length)
      (fun _ _ => True) s
  whole (epoch : ℕ) (h : epoch < prepared.epochs) (kl : Option Float32) :
    runResumed engine prepared config reference (some ⟨epoch, prepared.pairs.length, kl⟩) =
      performs engine prepared config (laterPlan prepared reference (epoch + 1))
  refused (boundary : Boundary) (h : boundary.completedIterations < prepared.epochs)
    (hstart : ∀ chunk ∈ (prepared.planEpoch boundary.completedIterations).2,
      chunk.1 ≠ boundary.cursor)
    (hstop : boundary.cursor ≠ prepared.pairs.length) :
    ∃ message, runResumed engine prepared config reference (some boundary) =
      (openLoop engine config >>= fun _ => throw (.checkpoint message))

theorem covers (prepared : PreparedPreference) (haligned : Aligned prepared reference) :
    Covers prepared reference where
  order epoch := epochOrder_perm ..
  chunks epoch := planEpoch_chunked epoch
  steps := by
    rw [plan, map_flatMap]
    refine flatMap_congr fun epoch _ => ?_
    rw [epochPlan, map_map]
    conv_rhs => rw [← zipIdx_map_fst 0 (prepared.planEpoch epoch).2, map_map]
    rfl
  rows step h := plan_from haligned h
  total := totalSteps_eq prepared reference

theorem mem_plan {start first : ℕ} (hstart : start < prepared.epochs) {step : PlannedStep}
    (hstep : step ∈ (epochPlan prepared reference start).drop first ++
      laterPlan prepared reference (start + 1)) : step ∈ plan prepared reference := by
  rcases mem_append.mp hstep with hepoch | hlater
  · exact mem_flatMap.mpr ⟨start, mem_range.mpr hstart, mem_of_mem_drop hepoch⟩
  · obtain ⟨epoch, hepoch, hmem⟩ := mem_flatMap.mp hlater
    have hlt := mem_range'_1.mp hepoch
    exact mem_flatMap.mpr ⟨epoch, mem_range.mpr (by omega), hmem⟩

theorem SameOn.openLoop (h : SameOn boundaries engine engine') :
    openLoop engine' config = openLoop engine config := by
  rw [Preference.openLoop, Preference.openLoop, h.advance]

/-- A run asks its callback nothing but the boundaries of its plan. -/
theorem SameOn.runResumed
    (h : SameOn ((plan prepared reference).map PlannedStep.boundary) engine engine')
    (hcheck : checkReference prepared config reference = .ok ()) (resume : Option Boundary) :
    runResumed engine' prepared config reference resume =
      runResumed engine prepared config reference resume := by
  cases hresume : startOf resume with
  | error error =>
    simp only [Preference.runResumed, hcheck, hresume, check_ok, pure_bind, check_error_bind]
  | ok begin =>
    obtain ⟨start, cursor⟩ := begin
    by_cases hstart : start < prepared.epochs
    · rw [runResumed_eq hcheck hresume hstart, runResumed_eq hcheck hresume hstart, h.openLoop]
      congr 1
      funext loop
      congr 1
      funext first
      rw [h.perform fun step hstep => mem_map_of_mem (mem_plan hstart hstep)]
    · rw [runResumed_done hcheck hresume (Nat.le_of_not_lt hstart),
        runResumed_done hcheck hresume (Nat.le_of_not_lt hstart), performs, performs, h.openLoop]
      simp only [Preference.perform]

theorem startOf_some (boundary : Boundary) (h : boundary.completedIterations < prepared.epochs) :
    startOf (some boundary) = .ok (boundary.completedIterations, boundary.cursor) := by
  have hbound := prepared.epochs_lt
  rw [startOf, if_neg (by omega)]

/-- An engine that takes every step, and counts. -/
def countingEngine : Engine ℕ where
  advanceSchedulerSteps steps s := (.ok (s + steps), s + steps)
  step _ _ s := (.ok ({ globalStep := s + 1 }, {}), s + 1)
  onProgress _ s := (.ok true, s)

def onePair : Pair := ⟨1, ⟨[1, 2], [false, true], []⟩, ⟨[1, 3], [false, true], []⟩⟩

def twoPairs : PreparedPreference where
  pairs := [onePair, onePair]
  eval := []
  costs := [1, 1]
  layout := ⟨8, 8, 0, 8, 8, 2, .auto, 1, .lockstep, 1, 8⟩
  shuffle := false
  seed := 0
  pairsPerStep := some 1
  epochs := 2
  costed := rfl
  nonempty := by simp
  epochs_lt := by decide

def referenceFree : PreferenceConfig := ⟨"orpo", false, 1⟩

end Runs

end Retrograd.Training.Preference
