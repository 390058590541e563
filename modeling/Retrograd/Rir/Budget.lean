import Retrograd.Rir.Races
import Mathlib.Algebra.Order.BigOperators.Group.List
import Mathlib.Order.Lattice.Nat

/-!
# The budget of a plan

The scratch alive at the busiest pass of a prepared plan is what the budget says, and no pass binds
more.
-/

namespace Retrograd.Rir.Dispatch

open Logic List

variable {plan : DispatchPlan} {manifests : List Manifest} {args : List PlanArg} {axes : Shape}
  {recorded : List Recorded} {size : Scratch → ℕ}

/-- The bytes of every scratch. -/
def Sized (plan : DispatchPlan) (axes : Shape) (size : Scratch → ℕ) : Prop :=
  ∀ s ∈ plan.scratch, scratchBytes plan axes s = .ok (size s)

/-- The total size of the scratches that are alive at a pass. -/
def aliveTotal (plan : DispatchPlan) (size : Scratch → ℕ) (pass : ℕ) : ℕ :=
  ((plan.scratch.filter fun s => s.AliveAt pass).map size).sum

/-- The total size of the scratches that a pass binds. -/
def boundTotal (plan : DispatchPlan) (size : Scratch → ℕ) (pass : Pass) : ℕ :=
  ((plan.scratch.filter fun s =>
    pass.bindings.any fun d => d.source == .scratch s.name).map size).sum

theorem foldlM_addLive {pass live : ℕ} {scratch : List Scratch}
    (hsized : ∀ s ∈ scratch, scratchBytes plan axes s = .ok (size s)) (hlive : live < 2 ^ 64) :
    scratch.foldlM (addLive plan axes pass) live =
      if live + ((scratch.filter fun s => s.AliveAt pass).map size).sum < 2 ^ 64 then
        .ok (live + ((scratch.filter fun s => s.AliveAt pass).map size).sum)
      else .error (.budgetOverflow plan.name) := by
  induction scratch generalizing live with
  | nil => exact (if_pos hlive).symm
  | cons s scratch ih =>
    obtain ⟨hs, hrest⟩ := forall_mem_cons.mp hsized
    rw [foldlM_cons, addLive]
    by_cases halive : s.AliveAt pass
    · have hkeep : (s :: scratch).filter (fun s => s.AliveAt pass) =
          s :: scratch.filter fun s => s.AliveAt pass :=
        filter_cons_of_pos (decide_eq_true halive)
      rw [if_neg (not_not.mpr halive), hs, hkeep, map_cons, sum_cons, ← Nat.add_assoc]
      change ((if live + size s < 2 ^ 64 then Except.ok (live + size s)
        else Except.error (PlanError.budgetOverflow plan.name)) >>= _) = _
      by_cases hsum : live + size s < 2 ^ 64
      · rw [if_pos hsum]
        exact ih hrest hsum
      · rw [if_neg hsum, if_neg (by omega)]
        rfl
    · rw [if_pos halive, filter_cons_of_neg (by simpa using halive)]
      exact ih hrest hlive

theorem liveBytes_eq (hsized : Sized plan axes size) (pass : ℕ) :
    liveBytes plan axes pass =
      if aliveTotal plan size pass < 2 ^ 64 then .ok (aliveTotal plan size pass)
      else .error (.budgetOverflow plan.name) := by
  have h := @foldlM_addLive plan axes size pass 0 plan.scratch hsized (by decide)
  rw [Nat.zero_add] at h
  exact h

private theorem foldlM_raisePeak (hsized : Sized plan axes size) (n : ℕ) :
    (List.range n).foldlM (raisePeak plan axes) 0 =
      if ∀ pass < n, aliveTotal plan size pass < 2 ^ 64 then
        .ok ((Finset.range n).sup (aliveTotal plan size))
      else .error (.budgetOverflow plan.name) := by
  induction n with
  | zero => exact (if_pos fun pass h => absurd h (Nat.not_lt_zero pass)).symm
  | succ n ih =>
    rw [range_succ, foldlM_append, ih]
    by_cases hall : ∀ pass < n, aliveTotal plan size pass < 2 ^ 64
    · rw [if_pos hall]
      change (raisePeak plan axes _ n >>= pure) = _
      rw [bind_pure, raisePeak, liveBytes_eq hsized]
      by_cases hlast : aliveTotal plan size n < 2 ^ 64
      · have hevery : ∀ pass < n + 1, aliveTotal plan size pass < 2 ^ 64 := fun pass hpass =>
          (Nat.lt_succ_iff_lt_or_eq.mp hpass).elim (hall pass) fun heq => heq ▸ hlast
        rw [if_pos hlast, if_pos hevery, Finset.range_add_one, Finset.sup_insert, sup_comm]
        rfl
      · rw [if_neg hlast, if_neg fun hevery => hlast (hevery n (Nat.lt_succ_self n))]
        rfl
    · rw [if_neg hall, if_neg fun hevery => hall fun pass hpass =>
        hevery pass (Nat.lt_succ_of_lt hpass)]
      rfl

/-- **The budget** is the largest total alive at one pass, and overflows when one of these does. -/
theorem peakScratchBytes_eq (hsized : Sized plan axes size) :
    plan.peakScratchBytes axes =
      if ∀ pass < plan.passes.length, aliveTotal plan size pass < 2 ^ 64 then
        .ok ((Finset.range plan.passes.length).sup (aliveTotal plan size))
      else .error (.budgetOverflow plan.name) :=
  foldlM_raisePeak hsized _

/-- A prepared plan has a size for every scratch. -/
theorem exists_sized (hprepared : Prepared plan manifests args axes recorded) :
    ∃ size, Sized plan axes size := by
  have hsize : ∀ s ∈ plan.scratch, ∃ size, scratchBytes plan axes s = .ok size := by
    intro s hs
    obtain ⟨size, h⟩ := hprepared.sizes s hs
    obtain ⟨elements, helements, h⟩ := ok_of_bind h
    have heval := ok_of_mapError helements
    rw [scratchBytes, heval]
    cases hbytes : checkedMul elements s.dtype.sizeBytes with
    | none =>
      rw [hbytes] at h
      cases h
    | some bytes =>
      refine ⟨bytes, ?_⟩
      simp only [Except.mapError, bind, Except.bind, hbytes]
  choose! size hsized using hsize
  exact ⟨size, hsized⟩

/-- A scratch is alive at the passes that bind it. -/
theorem aliveAt_of_binds (hbuilt : Built plan manifests) {i k : ℕ} {d : Binding} {m : Rir.Binding}
    (h : Binds plan manifests i k d m) {s : Scratch} (hs : s ∈ plan.scratch)
    (hsource : d.source = .scratch s.name) : s.AliveAt i := by
  obtain ⟨found, hfound, huse⟩ := h.scratchUse hbuilt hsource
  -- names are distinct, so the scratch that is found is this one
  have hname := find?_some hfound
  obtain rfl : found = s := inj_on_of_nodup_map hbuilt.distinct
    (mem_of_find?_eq_some hfound) hs (eq_of_beq hname)
  refine ⟨huse.produced, ?_⟩
  cases haccess : m.access with
  | read => exact (huse.read haccess).2
  | write =>
    rw [huse.write haccess]
    exact (hbuilt.lifetime found hs).1

/-- No pass binds more than what is alive. -/
theorem boundTotal_le (hbuilt : Built plan manifests) {i : ℕ} {pass : Pass}
    (hpass : plan.passes[i]? = some pass) : boundTotal plan size pass ≤ aliveTotal plan size i := by
  have hlt : i < manifests.length := by
    rw [hbuilt.length]
    exact (List.getElem?_eq_some_iff.mp hpass).1
  have hmanifest : manifests[i]? = some manifests[i] := getElem?_eq_getElem hlt
  have hsub : ((plan.scratch.filter fun s =>
      pass.bindings.any fun d => d.source == .scratch s.name)).Sublist
        (plan.scratch.filter fun s => s.AliveAt i) := by
    have himp : ∀ s ∈ plan.scratch, (pass.bindings.any fun d => d.source == .scratch s.name) →
        s.AliveAt i := by
      intro s hs hany
      obtain ⟨d, hd, hsource⟩ := any_eq_true.mp hany
      obtain ⟨k, hk⟩ := getElem?_of_mem hd
      have hkm : k < manifests[i].bindings.length := by
        rw [← (hbuilt.pass i pass _ hpass hmanifest).length]
        exact (List.getElem?_eq_some_iff.mp hk).1
      exact aliveAt_of_binds hbuilt ⟨pass, manifests[i], hpass, hmanifest, hk,
        getElem?_eq_getElem hkm⟩ hs (eq_of_beq hsource)
    have hfilter : (plan.scratch.filter fun s =>
        pass.bindings.any fun d => d.source == .scratch s.name) =
          (plan.scratch.filter fun s => s.AliveAt i).filter fun s =>
            pass.bindings.any fun d => d.source == .scratch s.name := by
      rw [filter_filter]
      refine filter_congr fun s hs => ?_
      cases hany : pass.bindings.any fun d => d.source == .scratch s.name with
      | false => rfl
      | true => exact (decide_eq_true (himp s hs hany)).symm
    rw [hfilter]
    exact filter_sublist
  exact (hsub.map size).sum_le_sum fun _ _ => Nat.zero_le _

/-! ### The plan as a whole -/

/-- What a plan promises of every submission. -/
structure RaceFree (plan : DispatchPlan) (manifests : List Manifest) (recorded : List Recorded) :
    Prop where
  apart : BuffersApart plan manifests recorded
  /-- Whatever the passes compute, they leave what they leave one after the other. -/
  outputs : ∀ {C V : Type} (kernel : ℕ → Kernel ℕ C V), Kernels manifests recorded kernel →
    ∀ (runs : ℕ) (m m' : ℕ → C → V), Executes kernel [] (commands recorded runs) m m' ↔
      m' = (inOrder kernel (List.range plan.passes.length))^[max runs 1] m

theorem raceFree_iff (hbuilt : Built plan manifests)
    (hprepared : Prepared plan manifests args axes recorded) :
    RaceFree plan manifests recorded ↔ OutputsApart plan manifests := by
  constructor
  · exact fun h => (buffersApart_iff hbuilt hprepared).mp h.apart
  · intro houtputs
    have hapart := (buffersApart_iff hbuilt hprepared).mpr houtputs
    refine ⟨hapart, fun kernel hkernels runs m m' => ?_⟩
    rw [executes_iff (separated_commands hprepared
      (fun p n hopen => hkernels.conflictFree hbuilt hprepared hapart hopen) runs),
      nil_append, inOrder_commands, hprepared.length_recorded hbuilt]

/-- **A prepared plan** has no race exactly when a barrier stands between any two passes that write
one argument. It reads a scratch after its producer and up to its last reader, and its budget is the
largest total of the scratches alive at one pass, which is at least what any pass binds. -/
theorem prepared_spec (hbuild : build plan manifests = .ok ⟨⟩)
    (hprepare : prepare plan manifests args axes = .ok recorded) :
    (RaceFree plan manifests recorded ↔ OutputsApart plan manifests) ∧
    (∀ i k d m name, Binds plan manifests i k d m → d.source = .scratch name → m.access = .read →
      ∃ s, plan.findScratch name = some s ∧ s.producedBy < i ∧ i ≤ s.lastReadBy) ∧
    ∃ size, Sized plan axes size ∧
      plan.peakScratchBytes axes =
        (if ∀ pass < plan.passes.length, aliveTotal plan size pass < 2 ^ 64 then
          .ok ((Finset.range plan.passes.length).sup (aliveTotal plan size))
        else .error (.budgetOverflow plan.name)) ∧
      ∀ i pass, plan.passes[i]? = some pass →
        boundTotal plan size pass ≤ aliveTotal plan size i := by
  have hbuilt := built_of_build hbuild
  have hprepared := prepared_of_prepare hprepare
  refine ⟨raceFree_iff hbuilt hprepared, fun i k d m name hbinds hsource haccess => ?_, ?_⟩
  · obtain ⟨s, hs, huse⟩ := hbinds.scratchUse hbuilt hsource
    obtain ⟨hne, hlast⟩ := huse.read haccess
    exact ⟨s, hs, Nat.lt_of_le_of_ne huse.produced (Ne.symm hne), hlast⟩
  · obtain ⟨size, hsized⟩ := exists_sized hprepared
    exact ⟨size, hsized, peakScratchBytes_eq hsized,
      fun i pass hpass => boundTotal_le hbuilt hpass⟩

/-! ### One output, two passes -/

/-- A pass over one output. -/
def fill (barrier : Barrier) : Pass :=
  ⟨"fill", [("col", .constant 1)], [⟨"y", .arg "y", [.constant 1]⟩], barrier⟩

/-- Two passes over one output, the second behind a barrier or not. -/
def twice (barrier : Barrier) : DispatchPlan :=
  ⟨1, "fill_twice", .vulkan, [], [fill .none, fill barrier]⟩

def fillManifest : Manifest where
  schemaVersion := 9
  name := "fill"
  backend := .vulkan
  bindings := [⟨"y", 0, .f32, .write, [some "col"]⟩]
  pushConstants := [⟨"n_col", .u32, 0⟩, ⟨"y_nb0", .u32, 4⟩]
  parallelMapping := .invocation
  dispatch := [⟨"col", 64⟩]
  flat := []
  workgroup := (64, 1, 1)

/-- One output of one float. -/
def oneOutput : List PlanArg := [⟨"y", .output 4⟩]

theorem exists_prepare_twice (barrier : Barrier) : ∃ recorded, prepare (twice barrier)
    [fillManifest, fillManifest] oneOutput (fun _ => none) = .ok recorded ∧
      recorded.map Recorded.buffers = [[0], [0]] := by
  have h : ∀ barrier, (prepare (twice barrier) [fillManifest, fillManifest] oneOutput
      fun _ => none).map (List.map Recorded.buffers) = .ok [[0], [0]] := by
    intro barrier
    cases barrier <;> decide +kernel
  have hbarrier := h barrier
  cases hprepare : prepare (twice barrier) [fillManifest, fillManifest] oneOutput fun _ => none with
  | error e =>
    rw [hprepare] at hbarrier
    cases hbarrier
  | ok recorded =>
    rw [hprepare] at hbarrier
    exact ⟨recorded, rfl, Except.ok.inj hbarrier⟩

/-- Behind a barrier the second pass follows the first. -/
theorem prepared_twice : build (twice .full) [fillManifest, fillManifest] = .ok ⟨⟩ ∧
    ∃ recorded, prepare (twice .full) [fillManifest, fillManifest] oneOutput (fun _ => none) =
      .ok recorded ∧ (RaceFree (twice .full) [fillManifest, fillManifest] recorded ↔
        OutputsApart (twice .full) [fillManifest, fillManifest]) := by
  have hbuild : build (twice .full) [fillManifest, fillManifest] = .ok ⟨⟩ := by decide +kernel
  obtain ⟨recorded, hprepare, -⟩ := exists_prepare_twice .full
  exact ⟨hbuild, recorded, hprepare, (prepared_spec hbuild hprepare).1⟩

/-- Without a barrier two passes write one output. -/
theorem race_twice : build (twice .none) [fillManifest, fillManifest] = .ok ⟨⟩ ∧
    ∃ recorded, prepare (twice .none) [fillManifest, fillManifest] oneOutput (fun _ => none) =
      .ok recorded ∧ ¬ RaceFree (twice .none) [fillManifest, fillManifest] recorded := by
  obtain ⟨recorded, hprepare, hbuffers⟩ := exists_prepare_twice .none
  refine ⟨by decide +kernel, recorded, hprepare, fun hfree => ?_⟩
  have huse : ∀ i < 2, Uses [fillManifest, fillManifest] recorded .write i 0 := by
    intro i hi
    have hbuffer : ∃ r, recorded[i]? = some r ∧ r.buffers = [0] := by
      refine Option.map_eq_some_iff.mp ?_
      rw [← List.getElem?_map, hbuffers]
      rcases i with _ | _ | i
      · rfl
      · rfl
      · omega
    obtain ⟨r, hr, hzero⟩ := hbuffer
    refine ⟨fillManifest, r, 0, _, ?_, hr, rfl, rfl, by rw [hzero]; rfl⟩
    rcases i with _ | _ | i
    · rfl
    · rfl
    · omega
  obtain ⟨k, hlow, hhigh, pass, hpass, hbarrier⟩ :=
    hfree.apart 0 1 0 _ _ Nat.zero_lt_one (huse 0 (by decide)) (huse 1 (by decide)) (.inl rfl)
  obtain rfl : k = 1 := by omega
  obtain rfl := Option.some.inj hpass
  cases hbarrier

end Retrograd.Rir.Dispatch
