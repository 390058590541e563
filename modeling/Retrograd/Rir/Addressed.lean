import Mathlib.Algebra.Order.BigOperators.Group.List
import Retrograd.Rir.Encode

/-!
# What a dispatch addresses

A dispatch that is encoded has its constants where the manifest declares them and a grid with a
place for every index tuple. Its index tuples stay **inside** the buffers as long as the byte counts
fit a machine word; a count that wraps is too small for the tuples it stands for.
-/

namespace Retrograd.Rir

open Logic List Option

variable {m : Manifest} {values : Values} {b : Binding}

/-! ### The constant block -/

/-- A constant stands at its own four bytes. -/
def Written (values : Values) (block : List UInt8) (p : PushConstant) : Prop :=
  ∃ value, values.scalars p.name = some value ∧
    value.bytes p.ty = some (field block p.offset.toNat 4)

theorem Scalar.length_bytes {value : Scalar} {ty : PushType} {bits : List UInt8}
    (h : value.bytes ty = some bits) : bits.length = 4 := by
  rcases value with n | n | bits' <;> rcases ty with _ | _ | _ <;>
    first
    | (cases h; exact length_leBytes ..)
    | cases h

theorem of_constantBytes {p : PushConstant} {bits : List UInt8}
    (h : constantBytes values p = .ok bits) :
    ∃ value, values.scalars p.name = some value ∧ value.bytes p.ty = some bits := by
  obtain ⟨⟨⟩, -, h⟩ := ok_of_bind h
  cases hbits : (values.scalars p.name).bind (Scalar.bytes p.ty) with
  | none =>
    rw [hbits] at h
    cases h
  | some found =>
    rw [hbits] at h
    obtain rfl := Except.ok.inj h
    exact bind_eq_some_iff.mp hbits

/-- Writing some constants into a block that has room for them. -/
theorem foldlM_writeConstant {constants : List PushConstant} {out out' : List UInt8}
    (haligned : ∀ p ∈ constants, p.offset.toNat % 4 = 0)
    (hdistinct : (constants.map PushConstant.offset).Nodup)
    (hroom : ∀ p ∈ constants, p.offset.toNat + 4 ≤ out.length)
    (h : constants.foldlM (writeConstant values) out = .ok out') :
    out'.length = out.length ∧ (∀ p ∈ constants, Written values out' p) ∧
      ∀ offset, offset % 4 = 0 → (∀ p ∈ constants, p.offset.toNat ≠ offset) →
        field out' offset 4 = field out offset 4 := by
  induction constants generalizing out with
  | nil =>
    obtain rfl := Except.ok.inj h
    exact ⟨rfl, fun p hp => absurd hp not_mem_nil, fun _ _ _ => rfl⟩
  | cons p constants ih =>
    obtain ⟨next, hwrite, hrest⟩ := ok_of_bind h
    obtain ⟨bits, hbits, hwrite⟩ := ok_of_bind hwrite
    obtain rfl := Except.ok.inj hwrite
    obtain ⟨value, hvalue, hbytes⟩ := of_constantBytes hbits
    have hfour := Scalar.length_bytes hbytes
    have hin : p.offset.toNat + bits.length ≤ out.length := by
      rw [hfour]
      exact hroom p mem_cons_self
    obtain ⟨hfresh, hdistinct⟩ := nodup_cons.mp hdistinct
    have hlength := length_overwrite hin
    obtain ⟨hlength', hwritten, hframe⟩ := ih (fun q hq => haligned q (mem_cons_of_mem _ hq))
      hdistinct (fun q hq => hlength ▸ hroom q (mem_cons_of_mem _ hq)) hrest
    refine ⟨hlength'.trans hlength, forall_mem_cons.mpr ⟨⟨value, hvalue, ?_⟩, hwritten⟩,
      fun offset hoffset hother => ?_⟩
    · -- the later constants leave the bytes of this one alone
      have hothers : ∀ q ∈ constants, q.offset.toNat ≠ p.offset.toNat := fun q hq heq =>
        hfresh (List.mem_map.mpr ⟨q, hq, UInt32.toNat_inj.mp heq⟩)
      rw [hbytes, hframe _ (haligned p mem_cons_self) hothers]
      have hown := field_overwrite hin
      rw [hfour] at hown
      rw [hown]
    · obtain ⟨hp, hothers⟩ := forall_mem_cons.mp hother
      rw [hframe offset hoffset hothers]
      -- two aligned offsets that differ are four bytes apart
      have hmod := haligned p mem_cons_self
      exact field_overwrite_beside hin (by omega)

theorem le_pushSize {p : PushConstant} (hp : p ∈ m.pushConstants)
    (hbound : p.offset.toNat ≤ 65532) : p.offset.toNat + 4 ≤ pushSize m := by
  have hfold : ∀ (constants : List PushConstant) (size : ℕ),
      size ≤ constants.foldl (fun size p => max size ((p.offset.toNat + 4) % 2 ^ 32)) size ∧
      (p ∈ constants → p.offset.toNat + 4 ≤
        constants.foldl (fun size p => max size ((p.offset.toNat + 4) % 2 ^ 32)) size) := by
    intro constants
    induction constants with
    | nil => exact fun size => ⟨le_rfl, fun h => absurd h not_mem_nil⟩
    | cons q constants ih =>
      intro size
      obtain ⟨hle, hmem⟩ := ih (max size ((q.offset.toNat + 4) % 2 ^ 32))
      refine ⟨(Nat.le_max_left _ _).trans hle, fun h => ?_⟩
      rcases mem_cons.mp h with rfl | h
      · have hfits : (p.offset.toNat + 4) % 2 ^ 32 = p.offset.toNat + 4 :=
          Nat.mod_eq_of_lt (by omega)
        rw [foldl_cons, hfits]
        rw [hfits] at hle
        exact (Nat.le_max_right _ _).trans hle
      · exact hmem h
  exact (hfold m.pushConstants 0).2 hp

theorem written_of_pushBytes (hm : Executable m) {block : List UInt8}
    (h : pushBytes m values = .ok block) :
    ∀ p ∈ m.pushConstants, p.offset.toNat + 4 ≤ block.length ∧ Written values block p := by
  have hroom : ∀ p ∈ m.pushConstants,
      p.offset.toNat + 4 ≤ (List.replicate (pushSize m) (0 : UInt8)).length := by
    intro p hp
    rw [length_replicate]
    exact le_pushSize hp (hm.aligned p hp).2
  obtain ⟨hlength, hwritten, -⟩ := foldlM_writeConstant (fun p hp => (hm.aligned p hp).1)
    hm.distinct hroom h
  exact fun p hp => ⟨hlength ▸ hroom p hp, hwritten p hp⟩

/-! ### The grid -/

/-- The value of an axis extent or a stride. -/
def Values.number (values : Values) (name : String) : ℕ :=
  match values.scalars name with
  | some (.u32 n) => n.toNat
  | _ => 0

theorem Values.number_of_extent {name : String} {n : UInt32} (h : values.extent name = .ok n) :
    values.number name = n.toNat := by
  obtain ⟨⟨⟩, -, h⟩ := ok_of_bind h
  rw [number]
  rcases hvalue : values.scalars name with _ | (n' | n' | bits)
  · rw [hvalue] at h
    cases h
  · rw [hvalue] at h
    obtain rfl := Except.ok.inj h
    rfl
  · rw [hvalue] at h
    cases h
  · rw [hvalue] at h
    cases h

/-- Every index tuple has a workgroup: on the grid by its own part of every axis, flattened by a
point whose digits are the parts. -/
def Covers (m : Manifest) (values : Values) (groups : List ℕ) : Prop :=
  groups.length = 3 ∧
  (∀ (d : ℕ) (g : GridAxis), m.dispatch[d]? = some g → ∀ i < values.number (extentName g.axis),
    i / g.perWorkgroup.toNat < groups.getD d 0) ∧
  (m.flat ≠ [] → ∀ index : List ℕ,
    List.Forall₂ (fun i f => i < values.number (extentName f.axis)) index m.flat →
    ∃ point, digits (m.flat.map fun f => divCeil (values.number (extentName f.axis))
        f.perIndex.toNat) point = List.zipWith (fun i f => i / f.perIndex.toNat) index m.flat ∧
      point / pointsPerGroup m < groups.getD 0 0)

variable {d : ℕ}

theorem gridGroups_spec {axes : List GridAxis} {groups groups' : List ℕ}
    (haxes : ∀ g ∈ axes, 0 < g.perWorkgroup.toNat) (hroom : d + axes.length ≤ groups.length)
    (h : gridGroups values d groups axes = .ok groups') : groups'.length = groups.length ∧
      (∀ k g, axes[k]? = some g → ∀ i < values.number (extentName g.axis),
        i / g.perWorkgroup.toNat < groups'.getD (d + k) 0) ∧
      ∀ k < d, groups'.getD k 0 = groups.getD k 0 := by
  induction axes generalizing d groups with
  | nil =>
    obtain rfl := Except.ok.inj h
    exact ⟨rfl, fun k g hk => by simp at hk, fun _ _ => rfl⟩
  | cons g axes ih =>
    obtain ⟨n, hn, hrest⟩ := ok_of_bind h
    rw [length_cons] at hroom
    obtain ⟨hlength, hcovered, hframe⟩ := ih (fun g hg => haxes g (mem_cons_of_mem _ hg))
      (by rw [length_set]; omega) hrest
    refine ⟨hlength.trans (length_set ..), fun k g' hk i hi => ?_, fun k hk => ?_⟩
    · cases k with
      | zero =>
        obtain rfl := some.inj hk
        rw [Nat.add_zero, hframe d (Nat.lt_succ_self d), getD_eq_getElem?_getD,
          getElem?_set_self (by omega), getD_some]
        rw [Values.number_of_extent hn] at hi
        exact div_lt_divCeil _ hi (haxes g mem_cons_self)
      | succ k =>
        rw [← Nat.add_assoc, Nat.add_right_comm]
        exact hcovered k g' hk i hi
    · rw [hframe k (Nat.lt_succ_of_lt hk), getD_eq_getElem?_getD,
        getElem?_set_ne (Nat.ne_of_gt hk), ← getD_eq_getElem?_getD]

theorem flatTotal_spec {axes : List FlatAxis} {total total' : ℕ}
    (h : axes.foldlM (flatTotal values) total = .ok total') :
    total' = total * (axes.map fun f =>
      divCeil (values.number (extentName f.axis)) f.perIndex.toNat).prod := by
  induction axes generalizing total with
  | nil =>
    obtain rfl := Except.ok.inj h
    rw [map_nil, prod_nil, Nat.mul_one]
  | cons f axes ih =>
    obtain ⟨next, hnext, hrest⟩ := ok_of_bind h
    obtain ⟨n, hn, hnext⟩ := ok_of_bind hnext
    dsimp only at hnext
    split_ifs at hnext
    · obtain rfl := Except.ok.inj hnext
      rw [ih hrest, map_cons, prod_cons, Values.number_of_extent hn, Nat.mul_assoc]
    · cases hnext

theorem pointsPerGroup_pos (hm : Executable m) : 0 < pointsPerGroup m := by
  rw [pointsPerGroup]
  cases m.parallelMapping
  · exact Nat.one_pos
  · exact hm.workgroup

theorem covers_of_groups (hm : Executable m) {grid : List ℕ} (h : groups m values = .ok grid) :
    Covers m values grid := by
  rw [groups] at h
  split_ifs at h with hflat
  · rw [flatGroups] at h
    obtain ⟨total, htotal, h⟩ := ok_of_bind h
    dsimp only at h
    split_ifs at h
    · obtain rfl := Except.ok.inj h
      refine ⟨rfl, fun d g hg => ?_, fun _ index hindex => ?_⟩
      · rw [hm.oneGeometry hflat] at hg
        cases hg
      · have hparts : Forall₂ (· < ·)
            (List.zipWith (fun i f => i / f.perIndex.toNat) index m.flat)
            (m.flat.map fun f => divCeil (values.number (extentName f.axis)) f.perIndex.toNat) := by
          have hper := hm.perIndex
          revert hper
          generalize m.flat = axes at hindex
          intro hper
          induction hindex with
          | nil => exact .nil
          | @cons i f index axes hi _ ih =>
            obtain ⟨hf, hper⟩ := forall_mem_cons.mp hper
            exact .cons (div_lt_divCeil _ hi hf) (ih hper)
        obtain ⟨point, hpoint, hdigits⟩ := exists_digits hparts
        refine ⟨point, hdigits, ?_⟩
        rw [flatTotal_spec htotal, Nat.one_mul]
        exact div_lt_divCeil _ hpoint (pointsPerGroup_pos hm)
    · cases h
  · obtain ⟨hlength, hcovered, -⟩ := gridGroups_spec hm.perWorkgroup
      (by simpa using hm.threeAxes) h
    refine ⟨hlength, fun d g hg i hi => ?_, fun hne => absurd hne hflat⟩
    simpa using hcovered d g hg i hi

/-! ### The addressed bytes -/

/-- What every described dimension adds to the bound. -/
def termsFrom (b : Binding) (values : Values) : ℕ → List (Option String) → List ℕ
  | d, some axis :: rest =>
    (units b d (values.number (extentName axis)) - 1) * values.number (strideName b d) ::
      termsFrom b values (d + 1) rest
  | _, _ => []

def terms (b : Binding) (values : Values) : List ℕ := termsFrom b values 0 b.extents

/-- The stride units an index is from the front of its dimension. -/
def unitIndex (b : Binding) (d i : ℕ) : ℕ := if d = 0 then i / b.dtype.elementsPerUnit else i

/-- The byte an index tuple addresses, counted from the `d`-th dimension on. -/
def addressFrom (b : Binding) (values : Values) (index : ℕ → ℕ) : ℕ → List (Option String) → ℕ
  | d, some _ :: rest =>
    unitIndex b d (index d) * values.number (strideName b d) +
      addressFrom b values index (d + 1) rest
  | _, _ => 0

/-- The byte an index tuple addresses: the sum of index times stride. -/
def address (b : Binding) (values : Values) (index : ℕ → ℕ) : ℕ :=
  addressFrom b values index 0 b.extents

/-- The index of every described dimension is below the extent of its axis. -/
def InExtents (values : Values) (index : ℕ → ℕ) (d : ℕ) (extents : List (Option String)) : Prop :=
  ∀ k axis, extents[k]? = some (some axis) → index (d + k) < values.number (extentName axis)

variable {index : ℕ → ℕ}

theorem InExtents.tail {slot : Option String} {rest : List (Option String)}
    (h : InExtents values index d (slot :: rest)) : InExtents values index (d + 1) rest := by
  intro k axis hk
  have hsucc := h (k + 1) axis hk
  rwa [← Nat.add_assoc, Nat.add_right_comm] at hsucc

variable {extents : List (Option String)}

theorem addressFrom_le (h : InExtents values index d extents) :
    addressFrom b values index d extents ≤ (termsFrom b values d extents).sum := by
  induction extents generalizing d with
  | nil => exact Nat.zero_le _
  | cons slot rest ih =>
    cases slot with
    | none => exact Nat.zero_le _
    | some axis =>
      have hi : index d < values.number (extentName axis) := h 0 axis rfl
      have hunit : unitIndex b d (index d) ≤ units b d (values.number (extentName axis)) - 1 := by
        rw [unitIndex, units]
        split_ifs
        · have hlt := div_lt_divCeil b.dtype.elementsPerUnit hi b.dtype.elementsPerUnit_pos
          omega
        · omega
      rw [addressFrom, termsFrom, sum_cons]
      exact Nat.add_le_add (Nat.mul_le_mul_right _ hunit) (ih h.tail)

/-- The last index of every axis addresses the bound. -/
theorem addressFrom_last
    (h : ∀ k axis, extents[k]? = some (some axis) → 0 < values.number (extentName axis) ∧ index (d + k) = values.number (extentName axis) - 1) :
    addressFrom b values index d extents = (termsFrom b values d extents).sum := by
  induction extents generalizing d with
  | nil => rfl
  | cons slot rest ih =>
    cases slot with
    | none => rfl
    | some axis =>
      obtain ⟨hpos, hlast⟩ := h 0 axis rfl
      have hunit : unitIndex b d (index d) = units b d (values.number (extentName axis)) - 1 := by
        rw [unitIndex, units, ← Nat.add_zero d, hlast]
        split_ifs
        · exact pred_div _ hpos b.dtype.elementsPerUnit_pos
        · rfl
      rw [addressFrom, termsFrom, sum_cons, hunit, ih fun k axis hk => ?_]
      have hsucc := h (k + 1) axis hk
      rwa [← Nat.add_assoc, Nat.add_right_comm] at hsucc

/-- The loop counts the sum of the terms in words that wrap. -/
theorem requiredFrom_eq {d need need' : ℕ} (hneed : need < 2 ^ 64)
    (h : requiredFrom b values d need extents = .ok (some need')) :
    need' = (need + (termsFrom b values d extents).sum) % 2 ^ 64 := by
  induction extents generalizing d need with
  | nil =>
    obtain rfl := some.inj (Except.ok.inj h)
    exact (Nat.mod_eq_of_lt hneed).symm
  | cons slot rest ih =>
    cases slot with
    | none => cases h
    | some axis =>
      obtain ⟨n, hn, h⟩ := ok_of_bind h
      obtain ⟨stride, hstride, h⟩ := ok_of_bind h
      rw [ih (Nat.mod_lt _ (by norm_num)) h, termsFrom, sum_cons, Values.number_of_extent hn,
        Values.number_of_extent hstride]
      generalize (units b d n.toNat - 1) * stride.toNat = term
      omega

/-! ### Overflow -/

/-- No step of the loop over the dimensions of a binding leaves the machine word. -/
def NoOverflow (b : Binding) (values : Values) : Prop :=
  (∀ term ∈ terms b values, term < 2 ^ 64) ∧
    ∀ k, b.dtype.sizeBytes + ((terms b values).take k).sum < 2 ^ 64

/-- What a binding can be addressed at fits a machine word. -/
def Fits (b : Binding) (values : Values) : Prop :=
  b.dtype.sizeBytes + (terms b values).sum < 2 ^ 64

theorem noOverflow_iff : NoOverflow b values ↔ Fits b values := by
  constructor
  · intro h
    have hall := h.2 (terms b values).length
    rwa [take_length] at hall
  · intro h
    rw [Fits] at h
    refine ⟨fun term hterm => ?_, fun k => ?_⟩
    · have hle := single_le_sum (fun _ _ => Nat.zero_le _) term hterm
      omega
    · have hsum := congrArg List.sum (take_append_drop k (terms b values))
      rw [sum_append] at hsum
      omega

/-- Every dimension of a binding is described. -/
def Described (b : Binding) : Prop := ∀ slot ∈ b.extents, slot.isSome

instance (b : Binding) : Decidable (Described b) :=
  inferInstanceAs (Decidable (∀ slot ∈ b.extents, slot.isSome))

theorem exists_requiredFrom {d need : ℕ} {r : Option ℕ} (hall : ∀ slot ∈ extents, slot.isSome)
    (h : requiredFrom b values d need extents = .ok r) : ∃ need', r = some need' := by
  induction extents generalizing d need with
  | nil => exact ⟨need, (Except.ok.inj h).symm⟩
  | cons slot rest ih =>
    obtain ⟨axis, rfl⟩ := isSome_iff_exists.mp (hall slot mem_cons_self)
    obtain ⟨n, -, h⟩ := ok_of_bind h
    obtain ⟨stride, -, h⟩ := ok_of_bind h
    exact ih (fun slot hslot => hall slot (mem_cons_of_mem _ hslot)) h

theorem DType.sizeBytes_lt (dtype : DType) : dtype.sizeBytes < 2 ^ 64 := by
  have hsize : dtype.sizeBytes ≤ 256 := by
    rcases dtype with _ | _ | _ | _ | _ | _ | format
    case quant => rcases format <;> decide
    all_goals decide
  exact hsize.trans_lt (by decide)

/-- A buffer that passes has as many bytes as the wrapped count. -/
theorem le_len_of_checkBound {a : Arg} (hb : Described b)
    (h : checkBound values (b, a) = .ok ⟨⟩) :
    (b.dtype.sizeBytes + (terms b values).sum) % 2 ^ 64 ≤ a.len := by
  obtain ⟨r, hr, h⟩ := ok_of_bind h
  obtain ⟨need, rfl⟩ := exists_requiredFrom hb hr
  dsimp only at h
  split_ifs at h with hlen
  cases h
  rw [terms, ← requiredFrom_eq b.dtype.sizeBytes_lt hr]
  exact Nat.not_lt.mp hlen

/-! ### A dispatch that is encoded -/

/-- What an encoded dispatch promises to the device. -/
structure Sound (m : Manifest) (values : Values) (args : List Arg) (block : List UInt8)
    (grid : List ℕ) : Prop where
  /-- No sum of the encoding left its machine word. -/
  exactOffsets : ∀ p ∈ m.pushConstants, p.offset.toNat + 4 < 2 ^ 32
  exactBounds : ∀ b ∈ m.bindings, NoOverflow b values
  block : ∀ p ∈ m.pushConstants, p.offset.toNat + 4 ≤ block.length ∧ Written values block p
  covers : Covers m values grid
  inside : ∀ b a, (b, a) ∈ m.bindings.zip args → Described b → ∀ index : ℕ → ℕ,
    InExtents values index 0 b.extents → address b values index + b.dtype.sizeBytes ≤ a.len

/-- **An encoded dispatch stays in its buffers** exactly when what every binding can be addressed at
fits a machine word. Where it does not fit and no axis is empty, the last index tuple addresses
bytes that no buffer has. -/
theorem encodeDispatch_sound {deserialize : String → Except String Manifest} {text : String}
    {m : Manifest} (hm : fromJson deserialize text = .ok m) (args : List Arg) (values : Values)
    {block : List UInt8} {grid : List ℕ}
    (h : encodeDispatch m args values = .ok (block, grid)) :
    (Sound m values args block grid ↔ ∀ b ∈ m.bindings, Fits b values) ∧
    ∀ b ∈ m.bindings, Described b → ¬ Fits b values →
      (∀ axis, some axis ∈ b.extents → 0 < values.number (extentName axis)) →
      ∃ index, InExtents values index 0 b.extents ∧
        2 ^ 64 ≤ address b values index + b.dtype.sizeBytes := by
  have hexec := executable_of_fromJson hm
  rw [encodeDispatch] at h
  split_ifs at h with hcount
  obtain ⟨⟨⟩, -, h⟩ := ok_of_bind h
  obtain ⟨grid', hgrid, h⟩ := ok_of_bind h
  obtain ⟨block', hblock, h⟩ := ok_of_bind h
  obtain ⟨⟨⟩, hbounds, h⟩ := ok_of_bind h
  obtain ⟨rfl, rfl⟩ := Prod.mk.inj (Except.ok.inj h)
  refine ⟨⟨fun hsound b hb => noOverflow_iff.mp (hsound.exactBounds b hb), fun hfits => ?_⟩,
    fun b _ hdescribed hwraps hpos => ?_⟩
  · refine ⟨fun p hp => ?_, fun b hb => noOverflow_iff.mpr (hfits b hb),
      written_of_pushBytes hexec hblock, covers_of_groups hexec hgrid,
      fun b a hba hdescribed index hindex => ?_⟩
    · have hoffset := (hexec.aligned p hp).2
      omega
    · have hle := addressFrom_le (b := b) hindex
      have hlen := le_len_of_checkBound hdescribed (forM_ok_iff.mp hbounds _ hba)
      rw [Nat.mod_eq_of_lt (hfits b (List.of_mem_zip hba).1)] at hlen
      rw [address]
      rw [terms] at hlen
      omega
  · -- the last index of every axis
    let index : ℕ → ℕ := fun d =>
      ((b.extents[d]?.bind id).elim 0 fun axis => values.number (extentName axis)) - 1
    have hlast : ∀ k axis, b.extents[k]? = some (some axis) →
        0 < values.number (extentName axis) ∧
          index (0 + k) = values.number (extentName axis) - 1 := by
      intro k axis hk
      refine ⟨hpos axis (List.mem_of_getElem? hk), ?_⟩
      simp only [index, Nat.zero_add, hk]
      rfl
    refine ⟨index, fun k axis hk => ?_, ?_⟩
    · obtain ⟨hn, heq⟩ := hlast k axis hk
      omega
    · rw [Fits] at hwraps
      rw [address, addressFrom_last hlast, ← terms]
      omega

/-! ### Two dispatches of one kernel -/

/-- A kernel over one buffer of floats with four axes. -/
def fourAxes : Manifest where
  schemaVersion := 9
  name := "sum_axes"
  backend := .vulkan
  bindings := [⟨"x", 0, .f32, .read, [some "a", some "b", some "c", some "d"]⟩]
  pushConstants := [⟨"n_a", .u32, 0⟩, ⟨"n_b", .u32, 4⟩, ⟨"n_c", .u32, 8⟩, ⟨"n_d", .u32, 12⟩,
    ⟨"x_nb0", .u32, 16⟩, ⟨"x_nb1", .u32, 20⟩, ⟨"x_nb2", .u32, 24⟩, ⟨"x_nb3", .u32, 28⟩]
  parallelMapping := .invocation
  dispatch := [⟨"a", 64⟩]
  flat := []
  workgroup := (64, 1, 1)

/-- The same extent for every axis and the same stride for every dimension. -/
def uniform (extent stride : UInt32) : Values where
  scalars := fun name =>
    if name ∈ ["n_a", "n_b", "n_c", "n_d"] then some (.u32 extent)
    else if name ∈ ["x_nb0", "x_nb1", "x_nb2", "x_nb3"] then some (.u32 stride)
    else none
  unrepresentable := fun _ => none

theorem fromJson_fourAxes : fromJson (fun _ => .ok fourAxes) "" = .ok fourAxes := by decide +kernel

/-- Two elements an axis: sixteen of them, in a buffer of that size. -/
theorem encodeDispatch_small : ∃ block, encodeDispatch fourAxes [.input 20] (uniform 2 4) =
    .ok (block, [1, 1, 1]) ∧
      (Sound fourAxes (uniform 2 4) [.input 20] block [1, 1, 1] ↔
        ∀ b ∈ fourAxes.bindings, Fits b (uniform 2 4)) := by
  have h : encodeDispatch fourAxes [.input 20] (uniform 2 4) =
      .ok ([2, 0, 0, 0, 2, 0, 0, 0, 2, 0, 0, 0, 2, 0, 0, 0,
        4, 0, 0, 0, 4, 0, 0, 0, 4, 0, 0, 0, 4, 0, 0, 0], [1, 1, 1]) := by
    decide +kernel
  exact ⟨_, h, (encodeDispatch_sound fromJson_fourAxes [.input 20] (uniform 2 4) h).1⟩

/-- Four terms of a quarter of the machine word each wrap to nothing, and four bytes pass. -/
theorem encodeDispatch_wraps : ∃ block grid,
    encodeDispatch fourAxes [.input 4] (uniform 2147483649 2147483648) = .ok (block, grid) ∧
      ¬ Sound fourAxes (uniform 2147483649 2147483648) [.input 4] block grid := by
  have h : encodeDispatch fourAxes [.input 4] (uniform 2147483649 2147483648) =
      .ok ([1, 0, 0, 128, 1, 0, 0, 128, 1, 0, 0, 128, 1, 0, 0, 128,
        0, 0, 0, 128, 0, 0, 0, 128, 0, 0, 0, 128, 0, 0, 0, 128], [33554433, 1, 1]) := by
    decide +kernel
  refine ⟨_, _, h, fun hsound => ?_⟩
  have hindex : InExtents (uniform 2147483649 2147483648) (fun _ => 1) 0
      [some "a", some "b", some "c", some "d"] := by
    intro k axis hk
    have hmem := List.mem_of_getElem? hk
    simp only [List.mem_cons, Option.some.injEq, List.not_mem_nil, or_false] at hmem
    change 1 < (uniform 2147483649 2147483648).number (extentName axis)
    rcases hmem with rfl | rfl | rfl | rfl <;> decide +kernel
  -- the tuple of ones addresses four strides
  have hinside := hsound.inside _ (.input 4) List.mem_cons_self (by decide) _ hindex
  revert hinside
  decide +kernel

end Retrograd.Rir
