import Mathlib.Data.Nat.Log
import Retrograd.Logic.RoundUp

/-!
# Magic-number division and the flattened grid

A flattened dispatch runs one invocation per point of the product of its axes and recovers the axis
indices from the linear one. The device divides by multiplying: `fastdiv_magic` is computed on the
host, `fastdiv` is what every emitter prints. **Below `2^31` the quotients are exact**
(`fastdiv_exact`), and so the device walks the same tuples as the interpreter's plain division,
**each of them once** (`flat_enumerates`).
-/

namespace Retrograd.Lower

open Logic List

/-- The loop of `fastdiv_magic`: the least `l` from here on with `d ≤ 2^l`, at most 32. -/
def ceilLog2 (d : UInt64) : ℕ → UInt32 → UInt32
  | 0, l => l
  | fuel + 1, l => if l < 32 ∧ (1 : UInt64) <<< l.toUInt64 < d then ceilLog2 d fuel (l + 1) else l

/-- `fastdiv_magic`: the multiplier and the shift of a division by `d`. It panics outside
`1 ..= 2^31`. -/
def fastdivMagic (d : UInt32) : Option (UInt32 × UInt32) :=
  if d = 0 ∨ (1 : UInt32) <<< 31 < d then none
  else
    let l := ceilLog2 d.toUInt64 32 0
    let mp := ((1 : UInt64) <<< 32 * ((1 : UInt64) <<< l.toUInt64 - d.toUInt64)) / d.toUInt64 + 1
    some (mp.toUInt32, l)

/-- `fastdiv`: the quotient the emitters print. -/
def fastdiv (n mp shift : UInt32) : UInt32 :=
  let hi := ((n.toUInt64 * mp.toUInt64) >>> 32).toUInt32
  (hi + n) >>> shift

/-- `rir_fastmod`. -/
def fastmod (n mp shift d : UInt32) : UInt32 := n - fastdiv n mp shift * d

/-! ### Exactness -/

section Exact

variable {d : UInt32}

private theorem toNat_one_shiftLeft {l : UInt32} (h : l.toNat < 64) :
    ((1 : UInt64) <<< l.toUInt64).toNat = 2 ^ l.toNat := by
  have hlt : 2 ^ l.toNat < 2 ^ 64 := Nat.pow_lt_pow_right (by decide) h
  simp only [UInt64.toNat_shiftLeft, UInt32.toNat_toUInt64, UInt64.toNat_one,
    Nat.mod_eq_of_lt h, Nat.one_shiftLeft]
  exact Nat.mod_eq_of_lt hlt

/-- The loop ends at the ceiling of the logarithm. -/
private theorem ceilLog2_spec (hd : d.toNat ≤ 2 ^ 31) (fuel : ℕ) {l : UInt32}
    (hfuel : 32 ≤ fuel + l.toNat) (hl : l.toNat ≤ Nat.clog 2 d.toNat) :
    (ceilLog2 d.toUInt64 fuel l).toNat = Nat.clog 2 d.toNat := by
  have hclog : Nat.clog 2 d.toNat ≤ 31 := Nat.clog_le_of_le_pow hd
  induction fuel generalizing l with
  | zero => omega
  | succ fuel ih =>
    have hshift := toNat_one_shiftLeft (l := l) (by omega)
    have hcond : (l < 32 ∧ (1 : UInt64) <<< l.toUInt64 < d.toUInt64) ↔
        l.toNat < Nat.clog 2 d.toNat := by
      rw [UInt64.lt_iff_toNat_lt, hshift, UInt32.toNat_toUInt64, UInt32.lt_iff_toNat_lt,
        Nat.lt_clog_iff_pow_lt (by decide)]
      constructor
      · exact fun h => h.2
      · refine fun h => ⟨?_, h⟩
        have := (Nat.lt_clog_iff_pow_lt (b := 2) (by decide)).mpr h
        show l.toNat < 32
        omega
    unfold ceilLog2
    split
    · next h =>
      have hlt := hcond.mp h
      have hsucc : (l + 1).toNat = l.toNat + 1 := by
        rw [UInt32.toNat_add, UInt32.toNat_one, Nat.mod_eq_of_lt (by omega)]
      exact ih (by omega) (by omega)
    · next h =>
      have := mt hcond.mpr h
      omega

/-- The multiplier and the shift, with nothing lost to truncation or overflow. -/
theorem fastdivMagic_spec (hpos : 0 < d.toNat) (hd : d.toNat ≤ 2 ^ 31) : ∃ mp l,
    fastdivMagic d = some (mp, l) ∧ l.toNat = Nat.clog 2 d.toNat ∧
      2 ^ 32 * (2 ^ l.toNat - d.toNat) < 2 ^ 64 ∧
      mp.toNat = multiplier (2 ^ 32) (2 ^ l.toNat) d.toNat := by
  generalize hl : ceilLog2 d.toUInt64 32 0 = l
  have hlog : l.toNat = Nat.clog 2 d.toNat := by
    rw [← hl]
    exact ceilLog2_spec hd 32 (by decide) (Nat.zero_le _)
  have hclog : l.toNat ≤ 31 := hlog ▸ Nat.clog_le_of_le_pow hd
  have hle : d.toNat ≤ 2 ^ l.toNat := hlog ▸ Nat.le_pow_clog (by decide) _
  have hpow : 2 ^ l.toNat ≤ 2 ^ 31 := Nat.pow_le_pow_right (by decide) hclog
  have hleast : 2 ^ l.toNat < 2 * d.toNat := by
    rcases Nat.eq_zero_or_pos l.toNat with hzero | hone
    · rw [hzero]
      omega
    · have hbelow : 2 ^ (l.toNat - 1) < d.toNat := by
        rw [← Nat.lt_clog_iff_pow_lt (by decide), ← hlog]
        omega
      calc 2 ^ l.toNat = 2 * 2 ^ (l.toNat - 1) := by
            rw [← Nat.pow_succ', Nat.succ_eq_add_one, Nat.sub_add_cancel hone]
        _ < 2 * d.toNat := by omega
  have hfits := multiplier_lt hpos hleast (show d.toNat < 2 ^ 32 by omega)
  have hprod : 2 ^ 32 * (2 ^ l.toNat - d.toNat) < 2 ^ 64 := by omega
  refine ⟨((1 : UInt64) <<< 32 * ((1 : UInt64) <<< l.toUInt64 - d.toUInt64) / d.toUInt64 + 1).toUInt32,
    l, ?_, hlog, hprod, ?_⟩
  · have hguard : ¬ (d = 0 ∨ (1 : UInt32) <<< 31 < d) := by
      rw [not_or]
      refine ⟨fun h => ?_, fun h => ?_⟩
      · rw [h] at hpos
        exact absurd hpos (by decide)
      · rw [UInt32.lt_iff_toNat_lt] at h
        exact absurd h (Nat.not_lt.mpr hd)
    rw [fastdivMagic, if_neg hguard]
    dsimp only
    rw [hl]
  · have hshift : ((1 : UInt64) <<< l.toUInt64).toNat = 2 ^ l.toNat :=
      toNat_one_shiftLeft (by omega)
    have hsub : ((1 : UInt64) <<< l.toUInt64 - d.toUInt64).toNat = 2 ^ l.toNat - d.toNat := by
      rw [UInt64.toNat_sub_of_le, hshift, UInt32.toNat_toUInt64]
      rwa [UInt64.le_iff_toNat_le, hshift, UInt32.toNat_toUInt64]
    have hword : ((1 : UInt64) <<< 32).toNat = 2 ^ 32 := by decide
    rw [multiplier] at hfits ⊢
    rw [UInt64.toNat_toUInt32, UInt64.toNat_add, UInt64.toNat_div, UInt64.toNat_mul, hsub, hword,
      UInt32.toNat_toUInt64, UInt64.toNat_one, Nat.mod_eq_of_lt hprod,
      Nat.mod_eq_of_lt (hfits.trans (by decide)), Nat.mod_eq_of_lt hfits]

/-- **The quotient is exact**, and no product leaves its 64 bits. -/
theorem fastdiv_exact (hpos : 0 < d.toNat) (hd : d.toNat ≤ 2 ^ 31) : ∃ mp l,
    fastdivMagic d = some (mp, l) ∧ mp.toNat = 2 ^ 32 * (2 ^ l.toNat - d.toNat) / d.toNat + 1 ∧
      2 ^ 32 * (2 ^ l.toNat - d.toNat) < 2 ^ 64 ∧
      ∀ n : UInt32, n.toNat < 2 ^ 31 → n.toNat * mp.toNat < 2 ^ 64 ∧
        fastdiv n mp l = n / d ∧ fastmod n mp l d = n % d := by
  obtain ⟨mp, l, hmagic, hlog, hprod, hmp⟩ := fastdivMagic_spec hpos hd
  refine ⟨mp, l, hmagic, hmp, hprod, fun n hn => ?_⟩
  have hclog : l.toNat ≤ 31 := hlog ▸ Nat.clog_le_of_le_pow hd
  have hle : d.toNat ≤ 2 ^ l.toNat := hlog ▸ Nat.le_pow_clog (by decide) _
  obtain ⟨e, he, hm⟩ := exists_multiplier (W := 2 ^ 32) hpos hle
  have hsmall : n.toNat * e < 2 ^ 32 * 2 ^ l.toNat := by
    calc n.toNat * e ≤ n.toNat * 2 ^ l.toNat := Nat.mul_le_mul_left _ (he.trans hle)
      _ < 2 ^ 32 * 2 ^ l.toNat := Nat.mul_lt_mul_of_pos_right (by omega) (Nat.two_pow_pos _)
  have hmplt : mp.toNat < 2 ^ 32 := UInt32.toNat_lt mp
  have hwide : n.toNat * mp.toNat < 2 ^ 64 := by
    calc n.toNat * mp.toNat ≤ n.toNat * 2 ^ 32 := Nat.mul_le_mul_left _ hmplt.le
      _ < 2 ^ 64 := by omega
  have hhi : n.toNat * mp.toNat / 2 ^ 32 ≤ n.toNat :=
    Nat.div_le_of_le_mul (by rw [Nat.mul_comm (2 ^ 32)]; exact Nat.mul_le_mul_left _ hmplt.le)
  have hquot : fastdiv n mp l = n / d := by
    apply UInt32.toNat_inj.mp
    rw [fastdiv]
    simp only [UInt32.toNat_shiftRight, UInt32.toNat_add, UInt64.toNat_toUInt32,
      UInt64.toNat_shiftRight, UInt64.toNat_mul, UInt32.toNat_toUInt64, UInt32.toNat_div,
      Nat.mod_eq_of_lt hwide, Nat.shiftRight_eq_div_pow]
    rw [Nat.mod_eq_of_lt (show l.toNat < 32 by omega)]
    show (n.toNat * mp.toNat / 2 ^ 32 % 2 ^ 32 + n.toNat) % 2 ^ 32 / 2 ^ l.toNat = _
    rw [Nat.mod_eq_of_lt (show n.toNat * mp.toNat / 2 ^ 32 < 2 ^ 32 by omega),
      Nat.mod_eq_of_lt (by omega), split_div (by decide), hmp, round_up_div hpos hm hsmall]
  refine ⟨hwide, hquot, ?_⟩
  -- the remainder is what the quotient leaves
  rw [fastmod, hquot]
  apply UInt32.toNat_inj.mp
  have hdivmod := Nat.div_add_mod n.toNat d.toNat
  have hback : (n / d * d).toNat = n.toNat / d.toNat * d.toNat := by
    rw [UInt32.toNat_mul, UInt32.toNat_div, Nat.mod_eq_of_lt]
    exact (Nat.div_mul_le_self _ _).trans_lt (by omega)
  rw [UInt32.toNat_sub_of_le, hback, UInt32.toNat_mod]
  · rw [Nat.mul_comm] at hdivmod
    omega
  · rw [UInt32.le_iff_toNat_le, hback]
    exact Nat.div_mul_le_self _ _

end Exact

/-! ### The flattened grid -/

/-- The divisors of a `ParallelFlat`, fastest axis first: an invocation covers `vector` indices of
the first one. -/
def divisors (vector : ℕ) : List ℕ → List ℕ
  | [] => []
  | n :: extents => (n + vector - 1) / vector :: extents

/-- The index registers, of which the first one counts elements. -/
def scaled (vector : ℕ) : List ℕ → List ℕ
  | [] => []
  | i :: is => i * vector :: is

/-- The interpreter's decomposition of the linear index, by plain division. -/
def decompose (vector : ℕ) (extents : List ℕ) (t : ℕ) : List ℕ :=
  scaled vector (digits (divisors vector extents) t)

/-- The device's, by the quotients the emitters print; the last axis is the quotient itself. -/
def fastDecompose : List UInt32 → UInt32 → Option (List UInt32)
  | [], _ => some []
  | [_], src => some [src]
  | d :: ds, src => do
    let (mp, sh) ← fastdivMagic d
    let rest ← fastDecompose ds (fastdiv src mp sh)
    some (fastmod src mp sh d :: rest)

/-- Below `2^31` the device decomposes a linear index as the interpreter does. -/
theorem fastDecompose_eq {ds : List ℕ} {t : ℕ} (htotal : ds.prod < 2 ^ 31) (ht : t < ds.prod) :
    (fastDecompose (ds.map UInt32.ofNat) (UInt32.ofNat t)).map (List.map UInt32.toNat) =
      some (digits ds t) := by
  induction ds generalizing t with
  | nil => rfl
  | cons d ds ih =>
    have ht31 : t < 2 ^ 31 := ht.trans htotal
    have htnat : (UInt32.ofNat t).toNat = t := UInt32.toNat_ofNat_of_lt' (by
      show t < 2 ^ 32
      omega)
    cases ds with
    | nil => simp [fastDecompose, digits, htnat]
    | cons d' ds =>
      have hprod : (d :: d' :: ds).prod = d * (d' :: ds).prod := prod_cons
      rw [hprod] at ht htotal
      have hd : 0 < d := Nat.pos_of_ne_zero fun h => by
        rw [h, Nat.zero_mul] at ht
        exact Nat.not_lt_zero t ht
      have hrest : 0 < (d' :: ds).prod := Nat.pos_of_ne_zero fun h => by
        rw [h, Nat.mul_zero] at ht
        exact Nat.not_lt_zero t ht
      have hd31 : d < 2 ^ 31 := (Nat.le_mul_of_pos_right d hrest).trans_lt htotal
      have hdnat : (UInt32.ofNat d).toNat = d := UInt32.toNat_ofNat_of_lt' (by
        show d < 2 ^ 32
        omega)
      obtain ⟨mp, l, hmagic, -, -, hexact⟩ := fastdiv_exact (d := UInt32.ofNat d)
        (by rwa [hdnat]) (by rw [hdnat]; exact hd31.le)
      obtain ⟨-, hquot, hmod⟩ := hexact (UInt32.ofNat t) (by rwa [htnat])
      have hdiv : UInt32.ofNat t / UInt32.ofNat d = UInt32.ofNat (t / d) := by
        apply UInt32.toNat_inj.mp
        rw [UInt32.toNat_div, htnat, hdnat, UInt32.toNat_ofNat_of_lt']
        show t / d < 2 ^ 32
        exact (Nat.div_le_self t d).trans_lt (by omega)
      have htail := ih ((Nat.le_mul_of_pos_left _ hd).trans_lt htotal)
        ((Nat.div_lt_iff_lt_mul hd).mpr (by rwa [Nat.mul_comm]))
      rw [← hdiv, ← hquot] at htail
      show Option.map _ (do
        let (mp, sh) ← fastdivMagic (UInt32.ofNat d)
        let rest ← fastDecompose ((d' :: ds).map UInt32.ofNat) (fastdiv (UInt32.ofNat t) mp sh)
        some (fastmod (UInt32.ofNat t) mp sh (UInt32.ofNat d) :: rest)) = _
      rw [hmagic]
      dsimp only [bind, Option.bind]
      cases hfast : fastDecompose ((d' :: ds).map UInt32.ofNat)
          (fastdiv (UInt32.ofNat t) mp l) with
      | none =>
        rw [hfast] at htail
        cases htail
      | some rest =>
        rw [hfast] at htail
        have hrest : rest.map UInt32.toNat = digits (d' :: ds) (t / d) := Option.some.inj htail
        rw [digits_cons (cons_ne_nil d' ds), Option.map_some, map_cons, hmod, hrest,
          UInt32.toNat_mod, htnat, hdnat]

private theorem scaled_injective {vector : ℕ} (hvector : 0 < vector) :
    Function.Injective (scaled vector) := by
  rintro (_ | ⟨i, is⟩) (_ | ⟨j, js⟩) h
  · rfl
  · cases h
  · cases h
  · obtain ⟨hhead, htail⟩ := cons.inj h
    rw [Nat.eq_of_mul_eq_mul_right hvector hhead, htail]

/-- The first index of an invocation is in its axis when the invocation is in the grid. -/
private theorem scaled_lt_iff {vector i n : ℕ} (hvector : 0 < vector) :
    i * vector < n ↔ i < (n + vector - 1) / vector := by
  rw [Nat.lt_div_iff_mul_lt hvector]
  omega

/-- The tuples a flattened dispatch visits are those of its axes, the first of which is walked a
vector at a time. -/
theorem mem_decompose {vector : ℕ} (hvector : 0 < vector) {extents tuple : List ℕ} :
    tuple ∈ (List.range (divisors vector extents).prod).map (decompose vector extents) ↔
      Forall₂ (· < ·) tuple extents ∧ ∀ i ∈ tuple.head?, vector ∣ i := by
  have hmem : tuple ∈ (List.range (divisors vector extents).prod).map (decompose vector extents) ↔
      ∃ quotients, Forall₂ (· < ·) quotients (divisors vector extents) ∧
        scaled vector quotients = tuple := by
    rw [show (decompose vector extents) = scaled vector ∘ digits (divisors vector extents) from rfl,
      ← map_map, mem_map]
    simp only [mem_digits]
  rw [hmem]
  cases extents with
  | nil =>
    constructor
    · rintro ⟨quotients, h, rfl⟩
      cases h
      exact ⟨.nil, nofun⟩
    · rintro ⟨h, -⟩
      cases h
      exact ⟨[], .nil, rfl⟩
  | cons n extents =>
    constructor
    · rintro ⟨quotients, h, rfl⟩
      cases h with
      | @cons q _ is _ hi his =>
        refine ⟨.cons ((scaled_lt_iff hvector).mpr hi) his, fun i hhead => ?_⟩
        obtain rfl := Option.some.inj hhead
        exact Nat.dvd_mul_left vector q
    · rintro ⟨h, hdvd⟩
      cases h with
      | @cons i _ is _ hi his =>
        obtain ⟨q, rfl⟩ := hdvd i rfl
        refine ⟨q :: is, .cons ((scaled_lt_iff hvector).mp (by rwa [Nat.mul_comm])) his, ?_⟩
        rw [scaled, Nat.mul_comm]

/-- **Magic-number division is exact below `2^31`**, the multiplier and the products fit their words,
and so the flattened grid visits every tuple of axis indices exactly once. -/
theorem flat_enumerates :
    (∀ d : UInt32, 0 < d.toNat → d.toNat ≤ 2 ^ 31 → ∃ mp l, fastdivMagic d = some (mp, l) ∧
      mp.toNat = 2 ^ 32 * (2 ^ l.toNat - d.toNat) / d.toNat + 1 ∧
      2 ^ 32 * (2 ^ l.toNat - d.toNat) < 2 ^ 64 ∧
      ∀ n : UInt32, n.toNat < 2 ^ 31 → n.toNat * mp.toNat < 2 ^ 64 ∧
        fastdiv n mp l = n / d ∧ fastmod n mp l d = n % d) ∧
    ∀ (vector : ℕ) (extents : List ℕ), 0 < vector → (divisors vector extents).prod < 2 ^ 31 →
      (∀ t < (divisors vector extents).prod,
        (fastDecompose ((divisors vector extents).map UInt32.ofNat) (UInt32.ofNat t)).map
          (fun indices => scaled vector (indices.map UInt32.toNat)) =
            some (decompose vector extents t)) ∧
      ((List.range (divisors vector extents).prod).map (decompose vector extents)).Nodup ∧
      ∀ tuple, tuple ∈ (List.range (divisors vector extents).prod).map (decompose vector extents) ↔
        List.Forall₂ (· < ·) tuple extents ∧ ∀ i ∈ tuple.head?, vector ∣ i := by
  refine ⟨fun d hpos hd => fastdiv_exact hpos hd, fun vector extents hvector htotal =>
    ⟨fun t ht => ?_, ?_, fun tuple => mem_decompose hvector⟩⟩
  · have h := congrArg (Option.map (scaled vector)) (fastDecompose_eq htotal ht)
    rwa [Option.map_map] at h
  · have hinj := (digits_nodup (divisors vector extents)).map (scaled_injective hvector)
    rwa [List.map_map] at hinj

theorem flat_enumerates_rows : [96, 1] ∈
    (List.range (divisors 4 [130, 2]).prod).map (decompose 4 [130, 2]) ∧
      ∃ mp l, fastdivMagic 33 = some (mp, l) ∧ fastdiv 2147483647 mp l = 2147483647 / 33 := by
  obtain ⟨hexact, hgrid⟩ := flat_enumerates
  obtain ⟨-, -, hmem⟩ := hgrid 4 [130, 2] (by decide) (by decide)
  obtain ⟨mp, l, hmagic, -, -, hquot⟩ := hexact 33 (by decide) (by decide)
  exact ⟨(hmem [96, 1]).mpr (by decide), mp, l, hmagic, (hquot 2147483647 (by decide)).2.1⟩

end Retrograd.Lower
