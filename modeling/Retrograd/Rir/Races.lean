import Retrograd.Logic.Overlap
import Retrograd.Rir.Prepared

/-!
# Races of a plan

The passes of a prepared plan over its buffers. A scratch is written by its producer alone and read
behind a barrier, and an argument is either read or written. What is left is two passes that write
**one argument**: with a barrier between any two of these, the passes of every submission leave what
they leave one after the other.
-/

namespace Retrograd.Rir.Dispatch

open Logic List Option

variable {plan : DispatchPlan} {manifests : List Manifest} {args : List PlanArg} {axes : Shape}
  {recorded : List Recorded}

/-- Pass `i` has a binding of this access with buffer `b`. -/
def Uses (manifests : List Manifest) (recorded : List Recorded) (access : Access) (i b : ℕ) :
    Prop :=
  ∃ (manifest : Manifest) (r : Recorded) (k : ℕ) (m : Rir.Binding), manifests[i]? = some manifest ∧
    recorded[i]? = some r ∧ manifest.bindings[k]? = some m ∧ m.access = access ∧
    r.buffers[k]? = some b

/-- The same binding in the plan. -/
theorem Uses.binds (hprepared : Prepared plan manifests args axes recorded) {access : Access}
    {i b : ℕ} (h : Uses manifests recorded access i b) :
    ∃ k d m, Binds plan manifests i k d m ∧ m.access = access ∧
      BufferOf plan args d.source b ∧ Directed args m b := by
  obtain ⟨manifest, r, k, m, hmanifest, hr, hm, haccess, hb⟩ := h
  obtain ⟨⟨pass, manifest'⟩, hzip, hpass⟩ := forall₂_getElem? hprepared.passes hr
  obtain ⟨hp, hmanifest'⟩ := getElem?_zip_eq_some.mp hzip
  obtain rfl := some.inj (hmanifest.symm.trans hmanifest')
  obtain ⟨⟨d, m'⟩, hdm, hbuffer, hdirected⟩ := forall₂_getElem? hpass.buffers hb
  obtain ⟨hd, hm'⟩ := getElem?_zip_eq_some.mp hdm
  obtain rfl := some.inj (hm.symm.trans hm')
  exact ⟨k, d, m, ⟨pass, manifest, hp, hmanifest, hd, hm⟩, haccess, hbuffer, hdirected⟩

/-- Every binding of the plan has its buffer. -/
theorem Binds.uses (hprepared : Prepared plan manifests args axes recorded) {i k : ℕ} {d : Binding}
    {m : Rir.Binding} (h : Binds plan manifests i k d m) :
    ∃ b, Uses manifests recorded m.access i b ∧ BufferOf plan args d.source b := by
  obtain ⟨pass, manifest, hp, hmanifest, hd, hm⟩ := h
  have hzip : (plan.passes.zip manifests)[i]? = some (pass, manifest) :=
    getElem?_zip_eq_some.mpr ⟨hp, hmanifest⟩
  have hdm : (pass.bindings.zip manifest.bindings)[k]? = some (d, m) :=
    getElem?_zip_eq_some.mpr ⟨hd, hm⟩
  obtain ⟨r, hr, hpass⟩ := forall₂_getElem?_left hprepared.passes hzip
  obtain ⟨b, hb, hbuffer, -⟩ := forall₂_getElem?_left hpass.buffers hdm
  exact ⟨b, ⟨manifest, r, k, m, hmanifest, hr, hm, rfl, hb⟩, hbuffer⟩

theorem Binds.scratchUse (hbuilt : Built plan manifests) {i k : ℕ} {d : Binding} {m : Rir.Binding}
    (h : Binds plan manifests i k d m) {name : String} (hname : d.source = .scratch name) :
    ∃ s, plan.findScratch name = some s ∧ ScratchUse plan i m s := by
  obtain ⟨pass, manifest, hp, hmanifest, hd, hm⟩ := h
  exact (hbuilt.pass i pass manifest hp hmanifest).use d m name (mem_zip hd hm) hname

/-- Pass `i` writes an argument. -/
def WritesArg (plan : DispatchPlan) (manifests : List Manifest) (i : ℕ) (name : String) : Prop :=
  ∃ k d m, Binds plan manifests i k d m ∧ d.source = .arg name ∧ m.access = .write

/-- Between two passes that write one argument there is a barrier. -/
def OutputsApart (plan : DispatchPlan) (manifests : List Manifest) : Prop :=
  ∀ i j name, i < j → WritesArg plan manifests i name → WritesArg plan manifests j name →
    ∃ k, i < k ∧ k ≤ j ∧ BarrierAt plan k

/-- Between two passes that use one buffer, one of which writes it, there is a barrier. -/
def BuffersApart (plan : DispatchPlan) (manifests : List Manifest) (recorded : List Recorded) :
    Prop :=
  ∀ i j b access access', i < j → Uses manifests recorded access i b →
    Uses manifests recorded access' j b → access = .write ∨ access' = .write →
    ∃ k, i < k ∧ k ≤ j ∧ BarrierAt plan k

/-- **The only conflicts** are the ones of outputs. -/
theorem buffersApart_iff (hbuilt : Built plan manifests)
    (hprepared : Prepared plan manifests args axes recorded) :
    BuffersApart plan manifests recorded ↔ OutputsApart plan manifests := by
  constructor
  · intro hapart i j name hij hi hj
    obtain ⟨k, d, m, hbinds, hsource, haccess⟩ := hi
    obtain ⟨k', d', m', hbinds', hsource', haccess'⟩ := hj
    obtain ⟨b, huse, hbuffer⟩ := hbinds.uses hprepared
    obtain ⟨b', huse', hbuffer'⟩ := hbinds'.uses hprepared
    rw [hsource] at hbuffer
    rw [hsource'] at hbuffer'
    obtain ⟨a, ha, hname⟩ := hbuffer
    obtain ⟨a', ha', hname'⟩ := hbuffer'
    -- the names of the arguments are distinct
    have hlt : b < (args.map PlanArg.name).length := by
      rw [length_map]
      exact (List.getElem?_eq_some_iff.mp ha).1
    have hb : b = b' := (getElem?_inj hlt hprepared.names).mp <| by
      rw [getElem?_map, getElem?_map, ha, ha', map_some, map_some, hname,
        hname']
    exact hapart i j b _ _ hij huse (hb ▸ huse') (.inl haccess)
  · intro houtputs i j b access access' hij huse huse' hwrite
    obtain ⟨k, d, m, hbinds, rfl, hbuffer, hdirected⟩ := huse.binds hprepared
    obtain ⟨k', d', m', hbinds', rfl, hbuffer', hdirected'⟩ := huse'.binds hprepared
    have hsame := source_unique hbuffer hbuffer'
    cases hsource : d.source with
    | arg name =>
      rw [hsource] at hbuffer hsame
      obtain ⟨a, ha, -⟩ := hbuffer
      -- the argument has one direction, so both write it
      have hboth : m.access = .write ∧ m'.access = .write := by
        rw [hdirected a ha, hdirected' a ha, and_self]
        exact hwrite.elim (hdirected a ha).mp (hdirected' a ha).mp
      exact houtputs i j name hij ⟨k, d, m, hbinds, hsource, hboth.1⟩
        ⟨k', d', m', hbinds', hsame.symm, hboth.2⟩
    | scratch name =>
      rw [hsource] at hsame
      obtain ⟨s, hs, hi⟩ := hbinds.scratchUse hbuilt hsource
      obtain ⟨s', hs', hj⟩ := hbinds'.scratchUse hbuilt hsame.symm
      obtain rfl := some.inj (hs.symm.trans hs')
      -- only the producer writes it, and nobody uses it before
      exact ⟨j, hij, le_rfl, hj.behind (hi.produced.trans_lt hij)⟩

/-- No pass reads what it writes. -/
theorem not_uses_both (hbuilt : Built plan manifests)
    (hprepared : Prepared plan manifests args axes recorded) {i b : ℕ}
    (hread : Uses manifests recorded .read i b) : ¬ Uses manifests recorded .write i b := by
  intro hwrite
  obtain ⟨k, d, m, hbinds, haccess, hbuffer, hdirected⟩ := hread.binds hprepared
  obtain ⟨k', d', m', hbinds', haccess', hbuffer', hdirected'⟩ := hwrite.binds hprepared
  have hsame := source_unique hbuffer hbuffer'
  cases hsource : d.source with
  | arg name =>
    rw [hsource] at hbuffer
    obtain ⟨a, ha, -⟩ := hbuffer
    have hm := (hdirected a ha).mpr ((hdirected' a ha).mp haccess')
    rw [haccess] at hm
    cases hm
  | scratch name =>
    rw [hsource] at hsame
    obtain ⟨s, hs, hi⟩ := hbinds.scratchUse hbuilt hsource
    obtain ⟨s', hs', hi'⟩ := hbinds'.scratchUse hbuilt hsame.symm
    obtain rfl := some.inj (hs.symm.trans hs')
    exact (hi.read haccess).1 (hi'.write haccess')

/-! ### Submissions -/

/-- The kernels of the passes: each reads and writes the buffers of its bindings. -/
structure Kernels (manifests : List Manifest) (recorded : List Recorded) {C V : Type}
    (kernel : ℕ → Kernel ℕ C V) : Prop where
  reads : ∀ i, (kernel i).reads = {b | Uses manifests recorded .read i b}
  writes : ∀ i, (kernel i).writes = {b | Uses manifests recorded .write i b}

theorem Kernels.conflictFree {C V : Type} {kernel : ℕ → Kernel ℕ C V}
    (hkernels : Kernels manifests recorded kernel) (hbuilt : Built plan manifests)
    (hprepared : Prepared plan manifests args axes recorded)
    (hapart : BuffersApart plan manifests recorded) {p n : ℕ}
    (hopen : ∀ k, p < k → k < p + n → ¬ BarrierAt plan k) :
    ConflictFree kernel (List.range' p n) := by
  refine ⟨fun i _ => Set.disjoint_left.mpr fun b hread hwrite => ?_, ?_⟩
  · rw [hkernels.reads] at hread
    rw [hkernels.writes] at hwrite
    exact not_uses_both hbuilt hprepared hread hwrite
  · refine (pairwise_lt_range' 1 Nat.one_pos).imp_of_mem ?_
    intro i j hi hj hij hconflict
    rw [mem_range'_1] at hi hj
    have hbarrier : ∃ k, i < k ∧ k ≤ j ∧ BarrierAt plan k := by
      obtain ⟨b, ⟨hwrite, hread | hwrite'⟩ | ⟨hread, hwrite⟩⟩ := hconflict
      · rw [hkernels.writes] at hwrite
        rw [hkernels.reads] at hread
        exact hapart i j b _ _ hij hwrite hread (.inl rfl)
      · rw [hkernels.writes] at hwrite hwrite'
        exact hapart i j b _ _ hij hwrite hwrite' (.inl rfl)
      · rw [hkernels.reads] at hread
        rw [hkernels.writes] at hwrite
        exact hapart i j b _ _ hij hread hwrite (.inr rfl)
    obtain ⟨k, hik, hkj, hk⟩ := hbarrier
    exact hopen k (by omega) (by omega) hk

theorem Prepared.length_recorded (hbuilt : Built plan manifests)
    (hprepared : Prepared plan manifests args axes recorded) :
    recorded.length = plan.passes.length := by
  rw [← hprepared.passes.length_eq, length_zip, hbuilt.length, Nat.min_self]

theorem Prepared.barrierAt (hprepared : Prepared plan manifests args axes recorded) {i : ℕ}
    {r : Recorded} (hr : recorded[i]? = some r) (h : BarrierAt plan i) : r.barrier = .full := by
  obtain ⟨⟨pass, manifest⟩, hzip, hpass⟩ := forall₂_getElem? hprepared.passes hr
  obtain ⟨pass', hp, hfull⟩ := h
  rw [some.inj ((getElem?_zip_eq_some.mp hzip).1.symm.trans hp)] at hpass
  exact hpass.barrier.trans hfull

section

variable {C V : Type} {kernel : ℕ → Kernel ℕ C V}

/-- The passes of one run from the `s`-th on, with those since the last barrier pending. -/
theorem separated_runFrom (hprepared : Prepared plan manifests args axes recorded)
    (hfree : ∀ p n, (∀ k, p < k → k < p + n → ¬ BarrierAt plan k) →
      ConflictFree kernel (List.range' p n))
    {rest : List (Bool × ℕ)}
    (hrest : ∀ pending, ConflictFree kernel pending → Separated kernel pending rest)
    {run s p : ℕ} {tail : List Recorded} (htail : tail = recorded.drop s) (hps : p ≤ s)
    (hopen : ∀ k, p < k → k < s → ¬ BarrierAt plan k) :
    Separated kernel (List.range' p (s - p)) (runFrom run s tail ++ rest) := by
  have hpending : ConflictFree kernel (List.range' p (s - p)) :=
    hfree p (s - p) fun k hpk hks => hopen k hpk (by omega)
  induction tail generalizing s p with
  | nil => exact hrest _ hpending
  | cons r tail ih =>
    have hr : recorded[s]? = some r := by
      rw [← head?_drop, ← htail]
      rfl
    have htail' : tail = recorded.drop (s + 1) := by
      rw [← tail_drop, ← htail]
      rfl
    have hone : List.range' s 1 = [s] := rfl
    cases hflag : (r.barrier == .full || (s == 0 && decide (0 < run))) with
    | false =>
      -- the pass joins the pending ones
      have hopen' : ∀ k, p < k → k < s + 1 → ¬ BarrierAt plan k := by
        intro k hpk hks hk
        rcases Nat.lt_succ_iff_lt_or_eq.mp hks with hlt | rfl
        · exact hopen k hpk hlt hk
        · have hfull := hprepared.barrierAt hr hk
          rw [hfull] at hflag
          cases hflag
      have hjoin : List.range' p (s - p) ++ [s] = List.range' p (s + 1 - p) := by
        have hsplit : List.range' p (s - p) ++ List.range' (p + 1 * (s - p)) 1 =
            List.range' p (s - p + 1) := range'_append
        rw [Nat.one_mul, Nat.add_sub_cancel' hps, hone] at hsplit
        rw [hsplit, Nat.sub_add_comm hps]
      change Separated kernel _ ((_, s) :: (runFrom run (s + 1) tail ++ rest))
      rw [hflag]
      change Separated kernel (List.range' p (s - p) ++ [s]) _
      rw [hjoin]
      exact ih htail' (by omega) hopen' (hfree p _ fun k hpk hks => hopen' k hpk (by omega))
    | true =>
      change Separated kernel _ ((_, s) :: (runFrom run (s + 1) tail ++ rest))
      rw [hflag]
      have hnone : ∀ k, s < k → k < s + 1 → ¬ BarrierAt plan k := fun k hsk hks => by omega
      have hnext := ih htail' (Nat.le_succ s) hnone
        (hfree s _ fun k hsk hks => hnone k hsk (by omega))
      rw [Nat.add_sub_cancel_left, hone] at hnext
      exact ⟨hpending, hnext⟩

/-- Later runs start behind a barrier. -/
theorem separated_runs (hprepared : Prepared plan manifests args axes recorded)
    (hfree : ∀ p n, (∀ k, p < k → k < p + n → ¬ BarrierAt plan k) →
      ConflictFree kernel (List.range' p n)) (n : ℕ) {run : ℕ} (hrun : 0 < run) :
    ∀ pending, ConflictFree kernel pending → Separated kernel pending
      ((List.range' run n).flatMap fun run => runFrom run 0 recorded) := by
  induction n generalizing run with
  | zero => exact fun pending hpending => hpending
  | succ n ih =>
    intro pending hpending
    rw [range'_succ, flatMap_cons]
    have hlater := ih (Nat.succ_pos run)
    cases hrecorded : recorded with
    | nil =>
      rw [hrecorded] at hlater
      exact hlater pending hpending
    | cons r tail =>
      have htail : tail = recorded.drop 1 := by rw [hrecorded]; rfl
      have hfirst : Separated kernel (List.range' 0 (1 - 0)) (runFrom run 1 tail ++
          (List.range' (run + 1) n).flatMap fun run => runFrom run 0 recorded) :=
        separated_runFrom hprepared hfree hlater htail (Nat.zero_le 1) fun k hk hks => by omega
      rw [hrecorded] at hfirst
      have hflag : (r.barrier == .full || (0 == 0 && decide (0 < run))) = true := by
        rw [decide_eq_true hrun]
        exact Bool.or_true _
      change Separated kernel pending ((_, 0) :: _)
      rw [hflag]
      exact ⟨hpending, hfirst⟩

theorem separated_commands (hprepared : Prepared plan manifests args axes recorded)
    (hfree : ∀ p n, (∀ k, p < k → k < p + n → ¬ BarrierAt plan k) →
      ConflictFree kernel (List.range' p n)) (runs : ℕ) :
    Separated kernel [] (commands recorded runs) := by
  obtain ⟨n, hn⟩ : ∃ n, max runs 1 = n + 1 := ⟨max runs 1 - 1, by omega⟩
  rw [commands, hn, range_eq_range', range'_succ, flatMap_cons]
  exact separated_runFrom hprepared hfree (separated_runs hprepared hfree n Nat.one_pos)
    (drop_zero).symm le_rfl (fun k hk hks => by omega)

theorem map_snd_runFrom (run i : ℕ) (recorded : List Recorded) :
    (runFrom run i recorded).map Prod.snd = List.range' i recorded.length := by
  induction recorded generalizing i with
  | nil => rfl
  | cons r recorded ih => rw [runFrom, map_cons, ih, length_cons, range'_succ]

/-- The runs of a submission in order are one run that is repeated. -/
theorem inOrder_commands (recorded : List Recorded) (runs : ℕ) (m : ℕ → C → V) :
    inOrder kernel ((commands recorded runs).map Prod.snd) m =
      (inOrder kernel (List.range recorded.length))^[max runs 1] m := by
  rw [commands, map_flatMap]
  simp only [map_snd_runFrom]
  rw [← range_eq_range']
  have hrepeat : ∀ (xs : List ℕ) (m : ℕ → C → V),
      inOrder kernel (xs.flatMap fun _ => List.range recorded.length) m =
        (inOrder kernel (List.range recorded.length))^[xs.length] m := by
    intro xs
    induction xs with
    | nil => exact fun m => rfl
    | cons x xs ih =>
      intro m
      rw [flatMap_cons, inOrder, foldl_append]
      exact ih _
  rw [hrepeat, length_range]

end

end Retrograd.Rir.Dispatch
