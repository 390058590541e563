import Retrograd.Logic.Except
import Retrograd.Logic.LittleEndian

/-!
# The top-k sidecar

A teacher's truncated distribution in a file: a header of 64 bytes, then for every position `k`
entries of eight bytes, a token id and a log-probability. The constructor checks the **shape**, the
reader checks the format, and the writer checks nothing; which sidecars survive a file, and which
files are a sidecar's, is what this module is about.

A file is its bytes, and a log-probability its bits.
-/

namespace Retrograd.Dataset.TopK

open Logic List

/-! ### The format -/

/-- The first eight bytes of a sidecar, `RGTOPK` and two zeros. -/
def magic : List UInt8 := [82, 71, 84, 79, 80, 75, 0, 0]

def version : UInt32 := 1

/-- The bytes of the header before the first block. -/
def headerBytes : ℕ := 64

/-- The bytes of one entry. -/
def entryBytes : ℕ := 8

/-- The most entries the runtime's operator takes at a position. -/
def maxK : ℕ := 64

/-- The id of an absent entry in the file. -/
def absentId : UInt32 := 0xFFFFFFFF

/-- The id of an absent entry in memory. -/
def ignoreLabel : Int32 := -1

/-- The bits of negative infinity. -/
def negInfinity : UInt32 := 0xFF800000

/-- Why a sidecar is refused. -/
inductive TopKError where
  | short
  | magic
  | version (version : UInt32)
  | dtype (dtype : UInt32)
  | k (k : UInt32)
  | overflow
  | ends (rows : UInt64) (k : UInt32) (entry : ℕ)
  | vocabulary (entry : ℕ) (id vocabSize : UInt32)
  | longer (rows : UInt64) (k : UInt32)
  | shape (ids logprobs expected : ℕ)
  deriving DecidableEq, Repr

/-- What a sidecar says about itself. -/
structure TopKHeader where
  version : UInt32
  /-- Entries per position. -/
  k : UInt32
  nRows : UInt64
  vocabSize : UInt32
  tokenizerHash : UInt64
  sourceHash : UInt64
  deriving DecidableEq, Repr

namespace TopKHeader

/-- The entries a sidecar holds, when their number is one of the machine's. -/
def entries (header : TopKHeader) : Option ℕ :=
  if header.nRows.toNat * header.k.toNat < 2 ^ 64 then
    some (header.nRows.toNat * header.k.toNat)
  else none

def write (header : TopKHeader) : List UInt8 :=
  magic ++ leBytes 4 header.version.toNat ++ leBytes 4 header.k.toNat
    ++ leBytes 8 header.nRows.toNat ++ leBytes 4 header.vocabSize.toNat
    ++ leBytes 4 0 ++ leBytes 8 header.tokenizerHash.toNat
    ++ leBytes 8 header.sourceHash.toNat ++ List.replicate 16 0

/-- `u32_at` of the header's bytes. -/
def u32At (bytes : List UInt8) (offset : ℕ) : UInt32 := .ofNat (leNat (field bytes offset 4))

/-- `u64_at` of the header's bytes. -/
def u64At (bytes : List UInt8) (offset : ℕ) : UInt64 := .ofNat (leNat (field bytes offset 8))

def read (bytes : List UInt8) : Except TopKError TopKHeader :=
  if bytes.length < headerBytes then .error .short
  else if field bytes 0 8 ≠ magic then .error .magic
  else if u32At bytes 8 ≠ TopK.version then .error (.version (u32At bytes 8))
  else if u32At bytes 28 ≠ 0 then .error (.dtype (u32At bytes 28))
  else if u32At bytes 12 = 0 ∨ maxK < (u32At bytes 12).toNat then .error (.k (u32At bytes 12))
  else .ok {
    version := u32At bytes 8
    k := u32At bytes 12
    nRows := u64At bytes 16
    vocabSize := u32At bytes 24
    tokenizerHash := u64At bytes 32
    sourceHash := u64At bytes 40 }

end TopKHeader

/-- A sidecar whose arrays hold `k` entries for each of its positions. -/
structure TopKSidecar where
  header : TopKHeader
  ids : List Int32
  /-- The bits of the log-probabilities. -/
  logprobs : List UInt32
  length_ids : header.entries = some ids.length
  length_logprobs : header.entries = some logprobs.length
  deriving DecidableEq

namespace TopKSidecar

/-- Builds a sidecar from the flat arrays a producer accumulated. -/
def new (header : TopKHeader) (ids : List Int32) (logprobs : List UInt32) :
    Except TopKError TopKSidecar :=
  match h : header.entries with
  | none => .error .overflow
  | some expected =>
    if hshape : ids.length = expected ∧ logprobs.length = expected then
      .ok ⟨header, ids, logprobs, hshape.1 ▸ h, hshape.2 ▸ h⟩
    else .error (.shape ids.length logprobs.length expected)

/-- The id of an entry in the file. -/
def stored (id : Int32) : UInt32 := if id < 0 then absentId else id.toUInt32

/-- The bytes of an entry. -/
def block (entry : UInt32 × UInt32) : List UInt8 :=
  leBytes 4 entry.1.toNat ++ leBytes 4 entry.2.toNat

/-- The sidecar's file: header first, blocks in position order. -/
def write (sidecar : TopKSidecar) : List UInt8 :=
  sidecar.header.write ++
    (sidecar.ids.zip sidecar.logprobs).flatMap fun (id, logprob) => block (stored id, logprob)

/-- What an entry of the file is in memory. -/
def readEntry (header : TopKHeader) (entry : ℕ) (id logprob : UInt32) :
    Except TopKError (Int32 × UInt32) :=
  if id = absentId then .ok (ignoreLabel, negInfinity)
  else if header.vocabSize ≤ id then .error (.vocabulary entry id header.vocabSize)
  else .ok (id.toInt32, logprob)

/-- Reads the entries from number `entry` on, and what follows them. -/
def readEntries (header : TopKHeader) : ℕ → ℕ → List UInt8 →
    Except TopKError (List (Int32 × UInt32) × List UInt8)
  | 0, _, bytes => .ok ([], bytes)
  | entries + 1, entry, bytes =>
    if bytes.length < entryBytes then .error (.ends header.nRows header.k entry)
    else do
      let first ← readEntry header entry (TopKHeader.u32At bytes 0) (TopKHeader.u32At bytes 4)
      let (rest, bytes) ← readEntries header entries (entry + 1) (bytes.drop entryBytes)
      .ok (first :: rest, bytes)

/-- Reads a sidecar whole. -/
def read (bytes : List UInt8) : Except TopKError TopKSidecar := do
  let header ← TopKHeader.read bytes
  match header.entries with
  | none => .error .overflow
  | some entries =>
    let (read, trailing) ← readEntries header entries 0 (bytes.drop headerBytes)
    if trailing ≠ [] then .error (.longer header.nRows header.k)
    else new header (read.map Prod.fst) (read.map Prod.snd)

end TopKSidecar

/-! ### Words -/

theorem lt_zero_iff (id : Int32) : id < 0 ↔ 2 ^ 31 ≤ id.toUInt32.toNat := by
  have hbits : id.toInt = id.toUInt32.toBitVec.toInt := rfl
  have hnat : id.toUInt32.toBitVec.toNat = id.toUInt32.toNat := rfl
  have hlt : id.toUInt32.toNat < 2 ^ 32 := id.toUInt32.toNat_lt
  rw [Int32.lt_iff_toInt_lt, hbits, BitVec.toInt_eq_toNat_cond, hnat,
    show (0 : Int32).toInt = 0 from rfl]
  split_ifs <;> omega

/-- A `u32` is read back. -/
theorem ofNat_leNat_u32 (x : UInt32) : UInt32.ofNat (leNat (leBytes 4 x.toNat)) = x := by
  rw [leNat_leBytes (by simpa using x.toNat_lt), UInt32.ofNat_toNat]

/-- A `u64` is read back. -/
theorem ofNat_leNat_u64 (x : UInt64) : UInt64.ofNat (leNat (leBytes 8 x.toNat)) = x := by
  rw [leNat_leBytes (by simpa using x.toNat_lt), UInt64.ofNat_toNat]

theorem leBytes_u32At {bytes : List UInt8} {offset : ℕ} (h : offset + 4 ≤ bytes.length) :
    leBytes 4 (TopKHeader.u32At bytes offset).toNat = field bytes offset 4 := by
  have hlt : leNat (field bytes offset 4) < 2 ^ 32 :=
    Nat.lt_of_lt_of_eq (leNat_lt _) (by rw [length_field h]; rfl)
  rw [TopKHeader.u32At, UInt32.toNat_ofNat', Nat.mod_eq_of_lt hlt, leBytes_field h]

theorem leBytes_u64At {bytes : List UInt8} {offset : ℕ} (h : offset + 8 ≤ bytes.length) :
    leBytes 8 (TopKHeader.u64At bytes offset).toNat = field bytes offset 8 := by
  have hlt : leNat (field bytes offset 8) < 2 ^ 64 :=
    Nat.lt_of_lt_of_eq (leNat_lt _) (by rw [length_field h]; rfl)
  rw [TopKHeader.u64At, UInt64.toNat_ofNat', Nat.mod_eq_of_lt hlt, leBytes_field h]

/-! ### The header -/

namespace TopKHeader

variable {header : TopKHeader} {bytes rest : List UInt8}

/-- The header a file holds is the header that was written. -/
theorem read_write : read (header.write ++ rest) =
    if header.version ≠ TopK.version then .error (.version header.version)
    else if header.k = 0 ∨ maxK < header.k.toNat then .error (.k header.k)
    else .ok header := by
  have hversion : u32At (header.write ++ rest) 8 = header.version := ofNat_leNat_u32 _
  have hk : u32At (header.write ++ rest) 12 = header.k := ofNat_leNat_u32 _
  have hrows : u64At (header.write ++ rest) 16 = header.nRows := ofNat_leNat_u64 _
  have hvocab : u32At (header.write ++ rest) 24 = header.vocabSize := ofNat_leNat_u32 _
  have hdtype : u32At (header.write ++ rest) 28 = 0 := by
    change UInt32.ofNat (leNat (leBytes 4 0)) = 0
    rfl
  have htokenizer : u64At (header.write ++ rest) 32 = header.tokenizerHash := ofNat_leNat_u64 _
  have hsource : u64At (header.write ++ rest) 40 = header.sourceHash := ofNat_leNat_u64 _
  have hlength : ¬ (header.write ++ rest).length < headerBytes := by
    rw [length_append, Nat.not_lt]
    exact Nat.le_add_right 64 _
  have hmagic : ¬ field (header.write ++ rest) 0 8 ≠ magic := fun h => h rfl
  rw [read, if_neg hlength, if_neg hmagic, hversion, hk, hrows, hvocab, hdtype, htokenizer, hsource]
  simp

/-- What is read is what was written, the last sixteen bytes apart. -/
theorem of_read (h : read bytes = .ok header) :
    header.version = TopK.version ∧ header.k ≠ 0 ∧ header.k.toNat ≤ maxK ∧
      bytes = header.write.take 48 ++ (field bytes 48 16 ++ bytes.drop headerBytes) ∧
      headerBytes ≤ bytes.length := by
  unfold read at h
  split_ifs at h with hlength hmagic hversion hdtype hk
  obtain rfl := Except.ok.inj h
  rw [Nat.not_lt] at hlength
  rw [not_or, Nat.not_lt] at hk
  refine ⟨not_not.mp hversion, hk.1, hk.2, ?_, hlength⟩
  have hfields (header : TopKHeader) : header.write.take 48 =
      magic ++ leBytes 4 header.version.toNat ++ leBytes 4 header.k.toNat
        ++ leBytes 8 header.nRows.toNat ++ leBytes 4 header.vocabSize.toNat
        ++ leBytes 4 (0 : UInt32).toNat ++ leBytes 8 header.tokenizerHash.toNat
        ++ leBytes 8 header.sourceHash.toNat := rfl
  have hfirst : magic = bytes.take 8 := (not_not.mp hmagic).symm
  unfold headerBytes at *
  rw [hfields, hfirst, ← not_not.mp hdtype, leBytes_u32At (by omega), leBytes_u32At (by omega),
    leBytes_u64At (by omega), leBytes_u32At (by omega), leBytes_u32At (by omega),
    leBytes_u64At (by omega), leBytes_u64At (by omega), take_append_field, take_append_field,
    take_append_field, take_append_field, take_append_field, take_append_field, take_append_field,
    ← append_assoc, take_append_field, take_append_drop]

end TopKHeader

/-! ### The entries -/

namespace TopKSidecar

variable {header : TopKHeader} {blocks : List (UInt32 × UInt32)}

/-- The entries of the file as they are in memory, the first one of number `entry`. -/
def readBlocks (header : TopKHeader) : ℕ → List (UInt32 × UInt32) →
    Except TopKError (List (Int32 × UInt32))
  | _, [] => .ok []
  | entry, (id, logprob) :: blocks => do
    let first ← readEntry header entry id logprob
    let rest ← readBlocks header (entry + 1) blocks
    .ok (first :: rest)

/-- The bytes of entries. -/
def bytesOf (blocks : List (UInt32 × UInt32)) : List UInt8 := blocks.flatMap block

theorem length_bytesOf : (bytesOf blocks).length = 8 * blocks.length := by
  induction blocks with
  | nil => rfl
  | cons first blocks ih =>
    rw [bytesOf] at ih
    rw [bytesOf, flatMap_cons, length_append, ih, length_cons, block,
      length_append, length_leBytes, length_leBytes]
    omega

theorem u32At_block (entry : UInt32 × UInt32) (rest : List UInt8) :
    TopKHeader.u32At (block entry ++ rest) 0 = entry.1 ∧
      TopKHeader.u32At (block entry ++ rest) 4 = entry.2 :=
  ⟨ofNat_leNat_u32 _, ofNat_leNat_u32 _⟩

/-- The id of an entry of the file. -/
theorem u32At_bytesOf {i : ℕ} {entry : UInt32 × UInt32} (before : List UInt8)
    (h : blocks[i]? = some entry) :
    TopKHeader.u32At (before ++ bytesOf blocks) (before.length + 8 * i) = entry.1 := by
  induction blocks generalizing i before with
  | nil => cases h
  | cons first blocks ih =>
    cases i with
    | zero =>
      obtain rfl : first = entry := Option.some.inj h
      rw [TopKHeader.u32At, field, Nat.mul_zero, Nat.add_zero, drop_left]
      exact (u32At_block first _).1
    | succ i =>
      have hstep := ih (before ++ block first) h
      rw [append_assoc] at hstep
      rw [← hstep, bytesOf, flatMap_cons, length_append]
      congr 1
      change before.length + 8 * (i + 1) = before.length + 8 + 8 * i
      omega

/-- Eight bytes are an entry. -/
theorem block_u32At {bytes : List UInt8} (h : entryBytes ≤ bytes.length) :
    block (TopKHeader.u32At bytes 0, TopKHeader.u32At bytes 4) ++ bytes.drop entryBytes = bytes := by
  unfold entryBytes at *
  rw [block, leBytes_u32At (by omega), leBytes_u32At (by omega),
    show field bytes 0 4 = bytes.take 4 from rfl, take_append_field, take_append_drop]

theorem readEntries_bytesOf (entry : ℕ) (rest : List UInt8) :
    readEntries header blocks.length entry (bytesOf blocks ++ rest) =
      (readBlocks header entry blocks >>= fun read => .ok (read, rest)) := by
  induction blocks generalizing entry with
  | nil => rfl
  | cons first blocks ih =>
    have hlength : ¬ (block first ++ (bytesOf blocks ++ rest)).length < entryBytes := by
      rw [length_append, Nat.not_lt]
      exact Nat.le_add_right 8 _
    have hdrop : (block first ++ (blocks.flatMap block ++ rest)).drop entryBytes =
        bytesOf blocks ++ rest := rfl
    rw [length_cons, readEntries, bytesOf, flatMap_cons, append_assoc]
    change (if (block first ++ (bytesOf blocks ++ rest)).length < _ then _ else _) = _
    rw [if_neg hlength, (u32At_block ..).1, (u32At_block ..).2, hdrop, ih, readBlocks]
    cases readEntry header entry first.1 first.2 with
    | error e => rfl
    | ok value =>
      cases readBlocks header (entry + 1) blocks with
      | error e => rfl
      | ok values => rfl

theorem of_readEntries {entries entry : ℕ} {bytes trailing : List UInt8}
    {read : List (Int32 × UInt32)}
    (h : readEntries header entries entry bytes = .ok (read, trailing)) :
    ∃ blocks, blocks.length = entries ∧ bytes = bytesOf blocks ++ trailing ∧
      readBlocks header entry blocks = .ok read := by
  induction entries generalizing entry bytes read with
  | zero =>
    cases h
    exact ⟨[], rfl, rfl, rfl⟩
  | succ entries ih =>
    rw [readEntries] at h
    split_ifs at h with hlength
    obtain ⟨first, hfirst, h⟩ := ok_of_bind h
    obtain ⟨⟨rest, bytes'⟩, hrest, h⟩ := ok_of_bind h
    cases h
    obtain ⟨blocks, rfl, hbytes, hblocks⟩ := ih hrest
    refine ⟨(TopKHeader.u32At bytes 0, TopKHeader.u32At bytes 4) :: blocks, rfl, ?_, ?_⟩
    · rw [bytesOf, flatMap_cons, append_assoc]
      exact (block_u32At (Nat.not_lt.mp hlength)).symm.trans (congrArg _ hbytes)
    · rw [readBlocks, hfirst, hblocks]
      rfl

/-! ### What survives a file -/

/-- The entries of a sidecar as they are in its file. -/
def blocksOf (sidecar : TopKSidecar) : List (UInt32 × UInt32) :=
  (sidecar.ids.zip sidecar.logprobs).map fun (id, logprob) => (stored id, logprob)

/-- An entry a file gives back: a token of the vocabulary, or the absent entry. -/
def Kept (header : TopKHeader) (entry : Int32 × UInt32) : Prop :=
  (0 ≤ entry.1 ∧ entry.1.toUInt32 < header.vocabSize) ∨ entry = (ignoreLabel, negInfinity)

/-- A sidecar a file gives back. -/
structure Readable (sidecar : TopKSidecar) : Prop where
  version : sidecar.header.version = TopK.version
  k_pos : sidecar.header.k ≠ 0
  k_le : sidecar.header.k.toNat ≤ maxK
  kept : ∀ entry ∈ sidecar.ids.zip sidecar.logprobs, Kept sidecar.header entry

theorem write_eq (sidecar : TopKSidecar) :
    sidecar.write = sidecar.header.write ++ bytesOf sidecar.blocksOf := by
  rw [write, bytesOf, blocksOf, flatMap_map]

theorem length_eq (sidecar : TopKSidecar) : sidecar.ids.length = sidecar.logprobs.length :=
  Option.some.inj (sidecar.length_ids.symm.trans sidecar.length_logprobs)

theorem length_blocksOf (sidecar : TopKSidecar) :
    sidecar.header.entries = some sidecar.blocksOf.length := by
  rw [sidecar.length_ids, blocksOf, length_map, length_zip, ← sidecar.length_eq,
    Nat.min_self]

/-- The constructor takes exactly the sidecars. -/
theorem new_eq (sidecar : TopKSidecar) :
    new sidecar.header sidecar.ids sidecar.logprobs = .ok sidecar := by
  unfold new
  split
  next h => rw [sidecar.length_ids] at h; cases h
  next expected h =>
    rw [dif_pos]
    exact ⟨Option.some.inj (sidecar.length_ids.symm.trans h),
      Option.some.inj (sidecar.length_logprobs.symm.trans h)⟩

theorem of_new {header : TopKHeader} {ids : List Int32} {logprobs : List UInt32}
    {sidecar : TopKSidecar} (h : new header ids logprobs = .ok sidecar) :
    sidecar.header = header ∧ sidecar.ids = ids ∧ sidecar.logprobs = logprobs := by
  unfold new at h
  split at h
  · cases h
  · split_ifs at h
    cases h
    exact ⟨rfl, rfl, rfl⟩

/-- An entry is read back as it was exactly when it is kept. -/
theorem readEntry_stored (entry : ℕ) (id : Int32) (logprob : UInt32) :
    readEntry header entry (stored id) logprob = .ok (id, logprob) ↔ Kept header (id, logprob) := by
  unfold readEntry stored Kept
  by_cases hneg : id < 0
  · -- a negative id is written as the absent one
    rw [if_pos hneg, if_pos rfl, Except.ok.injEq, eq_comm]
    exact ⟨.inr, fun h => h.resolve_left fun hpos => absurd hneg (Int32.not_lt.mpr hpos.1)⟩
  · have hword : id.toUInt32.toNat < 2 ^ 31 := Nat.not_le.mp fun h => hneg ((lt_zero_iff id).mpr h)
    have habsent : id.toUInt32 ≠ absentId := by
      rintro heq
      rw [heq] at hword
      exact absurd hword (by decide)
    have hignore : (id, logprob) ≠ (ignoreLabel, negInfinity) := by
      rintro heq
      rw [(Prod.mk.inj heq).1] at hneg
      exact hneg (by decide)
    rw [if_neg hneg, if_neg habsent, or_iff_left hignore]
    by_cases hvocab : header.vocabSize ≤ id.toUInt32
    · rw [if_pos hvocab]
      exact ⟨nofun, fun h => absurd h.2 (UInt32.not_lt.mpr hvocab)⟩
    · rw [if_neg hvocab, Int32.toInt32_toUInt32]
      exact ⟨fun _ => ⟨Int32.not_lt.mp hneg, UInt32.not_le.mp hvocab⟩, fun _ => rfl⟩

theorem readBlocks_stored (entry : ℕ) (entries : List (Int32 × UInt32)) :
    readBlocks header entry (entries.map fun (id, logprob) => (stored id, logprob)) = .ok entries ↔
      ∀ e ∈ entries, Kept header e := by
  induction entries generalizing entry with
  | nil => exact ⟨fun _ => nofun, fun _ => rfl⟩
  | cons first entries ih =>
    rw [forall_mem_cons, ← ih (entry + 1), ← readEntry_stored entry, map_cons, readBlocks]
    constructor
    · intro h
      obtain ⟨value, hvalue, h⟩ := ok_of_bind h
      obtain ⟨values, hvalues, h⟩ := ok_of_bind h
      cases h
      exact ⟨hvalue, hvalues⟩
    · rintro ⟨hfirst, hrest⟩
      rw [hfirst, hrest]
      rfl

theorem read_headerBytes (sidecar : TopKSidecar) : TopKHeader.read sidecar.write =
    if sidecar.header.version ≠ TopK.version then .error (.version sidecar.header.version)
    else if sidecar.header.k = 0 ∨ maxK < sidecar.header.k.toNat then .error (.k sidecar.header.k)
    else .ok sidecar.header := by
  rw [write_eq]
  exact TopKHeader.read_write

/-- With a header the reader takes, the entries of the file decide. -/
theorem read_entries (sidecar : TopKSidecar)
    (h : TopKHeader.read sidecar.write = .ok sidecar.header) : read sidecar.write =
      (readBlocks sidecar.header 0 sidecar.blocksOf >>= fun read =>
        new sidecar.header (read.map Prod.fst) (read.map Prod.snd)) := by
  have hdrop : sidecar.write.drop headerBytes = bytesOf sidecar.blocksOf ++ [] := by
    rw [write_eq, append_nil]
    rfl
  unfold read
  rw [h]
  change (match sidecar.header.entries with | none => _ | some entries => _) = _
  rw [sidecar.length_blocksOf]
  dsimp only
  rw [hdrop, readEntries_bytesOf]
  cases readBlocks sidecar.header 0 sidecar.blocksOf <;> rfl

/-- The entries of a sidecar are its two arrays. -/
theorem map_zip (sidecar : TopKSidecar) :
    (sidecar.ids.zip sidecar.logprobs).map Prod.fst = sidecar.ids ∧
      (sidecar.ids.zip sidecar.logprobs).map Prod.snd = sidecar.logprobs :=
  ⟨map_fst_zip (Nat.le_of_eq sidecar.length_eq),
    map_snd_zip (Nat.le_of_eq sidecar.length_eq.symm)⟩

/-- A sidecar comes back from its file exactly when it is readable. -/
theorem read_write_iff (sidecar : TopKSidecar) :
    read sidecar.write = .ok sidecar ↔ sidecar.Readable := by
  constructor
  · intro h
    obtain ⟨header, hheader, -⟩ := ok_of_bind h
    have hread := sidecar.read_headerBytes
    rw [hheader] at hread
    split_ifs at hread with hversion hk
    obtain rfl := Except.ok.inj hread
    rw [not_or, Nat.not_lt] at hk
    refine ⟨not_not.mp hversion, hk.1, hk.2, ?_⟩
    rw [sidecar.read_entries hheader] at h
    obtain ⟨entries, hentries, h⟩ := ok_of_bind h
    obtain ⟨-, hids, hlogprobs⟩ := of_new h
    have hzip : entries = sidecar.ids.zip sidecar.logprobs := by
      rw [hids, hlogprobs, zip_map', map_id'']
      exact fun _ => rfl
    rw [hzip] at hentries
    exact (readBlocks_stored 0 _).mp hentries
  · intro h
    have hread := sidecar.read_headerBytes
    rw [if_neg (not_not.mpr h.version), if_neg (not_or.mpr ⟨h.k_pos, Nat.not_lt.mpr h.k_le⟩)]
      at hread
    have hentries : readBlocks sidecar.header 0 sidecar.blocksOf = _ :=
      (readBlocks_stored 0 _).mpr h.kept
    rw [sidecar.read_entries hread, hentries]
    change new _ ((sidecar.ids.zip sidecar.logprobs).map _) (List.map _ _) = _
    rw [sidecar.map_zip.1, sidecar.map_zip.2, new_eq]

/-- What the reader takes is a header and the entries it declares, no byte more or less. -/
theorem of_read {bytes : List UInt8} {sidecar : TopKSidecar} (h : read bytes = .ok sidecar) :
    sidecar.header.version = TopK.version ∧ sidecar.header.k ≠ 0 ∧
      sidecar.header.k.toNat ≤ maxK ∧ ∃ blocks, blocks.length = sidecar.ids.length ∧
        bytes = sidecar.header.write.take 48 ++ (field bytes 48 16 ++ bytesOf blocks) ∧
        (field bytes 48 16).length = 16 ∧
        ∃ entries, readBlocks sidecar.header 0 blocks = .ok entries ∧
          sidecar.ids = entries.map Prod.fst := by
  unfold read at h
  obtain ⟨header, hheader, h⟩ := ok_of_bind h
  split at h
  · cases h
  next count hcount =>
    obtain ⟨⟨entries, trailing⟩, hentries, h⟩ := ok_of_bind h
    dsimp only at h
    split_ifs at h with htrailing
    obtain ⟨rfl, hids, -⟩ := of_new h
    obtain ⟨hversion, hpos, hle, hbytes, hlength⟩ := TopKHeader.of_read hheader
    obtain ⟨blocks, hblocks, hdrop, hread⟩ := of_readEntries hentries
    rw [not_not.mp htrailing, append_nil] at hdrop
    refine ⟨hversion, hpos, hle, blocks, ?_, hdrop ▸ hbytes, length_field hlength, entries, hread,
      hids⟩
    exact hblocks.trans (Option.some.inj (hcount.symm.trans sidecar.length_ids))

/-- Entries of a file a sidecar can have written. -/
def WrittenId (id : UInt32) : Prop := id = absentId ∨ id.toNat < 2 ^ 31

theorem writtenId_stored (id : Int32) : WrittenId (stored id) := by
  unfold WrittenId stored
  split_ifs with hneg
  · exact .inl rfl
  · exact .inr (Nat.not_le.mp fun h => hneg ((lt_zero_iff id).mpr h))

/-- What is read of an entry is a token of the vocabulary or the absent entry, and is written as
the entry was when a sidecar can have written it. -/
theorem of_readEntry {entry : ℕ} {id logprob : UInt32} {value : Int32 × UInt32}
    (h : readEntry header entry id logprob = .ok value) :
    (id = absentId ∨ id < header.vocabSize) ∧ (WrittenId id → stored value.1 = id) := by
  unfold readEntry at h
  split_ifs at h with habsent hvocab
  · obtain rfl := Except.ok.inj h
    exact ⟨.inl habsent, fun _ => habsent.symm⟩
  · obtain rfl := Except.ok.inj h
    refine ⟨.inr (UInt32.not_le.mp hvocab), fun hwritten => if_neg fun hneg => ?_⟩
    have hhigh := (lt_zero_iff id.toInt32).mp hneg
    rw [UInt32.toUInt32_toInt32] at hhigh
    exact absurd (hwritten.resolve_left habsent) (Nat.not_lt.mpr hhigh)

theorem of_readBlocks {entry : ℕ} {entries : List (Int32 × UInt32)}
    (h : readBlocks header entry blocks = .ok entries) :
    (∀ b ∈ blocks, b.1 = absentId ∨ b.1 < header.vocabSize) ∧
      entries.length = blocks.length ∧
      ((∀ b ∈ blocks, WrittenId b.1) →
        ((entries.map Prod.fst).zip (blocks.map Prod.snd)).map
          (fun (id, logprob) => (stored id, logprob)) = blocks) := by
  induction blocks generalizing entry entries with
  | nil =>
    cases h
    exact ⟨nofun, rfl, fun _ => rfl⟩
  | cons first blocks ih =>
    rw [readBlocks] at h
    obtain ⟨value, hvalue, h⟩ := ok_of_bind h
    obtain ⟨values, hvalues, h⟩ := ok_of_bind h
    cases h
    obtain ⟨hids, hlength, hwritten⟩ := ih hvalues
    obtain ⟨hid, hstored⟩ := of_readEntry hvalue
    refine ⟨forall_mem_cons.mpr ⟨hid, hids⟩, congrArg _ hlength, fun h => ?_⟩
    rw [forall_mem_cons] at h
    rw [map_cons, map_cons, zip_cons_cons, map_cons, hwritten h.2]
    exact congrArg (fun id => (id, first.2) :: blocks) (hstored h.1)

/-- The files a sidecar can have written, among those the reader takes: the bytes the header does
not use are zero, and no id is above the ids of a token. -/
structure Written (bytes : List UInt8) (entries : ℕ) : Prop where
  unused : field bytes 48 16 = List.replicate 16 0
  ids : ∀ i < entries, WrittenId (TopKHeader.u32At bytes (headerBytes + 8 * i))

/-- A sidecar comes back from its file **exactly when it is readable**, and a file that is read is
**the file of a sidecar exactly when it is written as one**. What is read has a header the reader
takes, as many bytes as the header declares, and no id outside the vocabulary. -/
theorem write_read_codec (sidecar : TopKSidecar) (bytes : List UInt8) :
    (read sidecar.write = .ok sidecar ↔ sidecar.Readable) ∧
    (read bytes = .ok sidecar →
      (sidecar.header.version = TopK.version ∧ sidecar.header.k ≠ 0 ∧
        sidecar.header.k.toNat ≤ maxK ∧
        bytes.length = headerBytes + entryBytes * sidecar.ids.length ∧
        ∀ i < sidecar.ids.length, TopKHeader.u32At bytes (headerBytes + 8 * i) = absentId ∨
          TopKHeader.u32At bytes (headerBytes + 8 * i) < sidecar.header.vocabSize) ∧
      ((∃ written : TopKSidecar, written.write = bytes) ↔ Written bytes sidecar.ids.length)) := by
  refine ⟨read_write_iff sidecar, fun h => ?_⟩
  obtain ⟨hversion, hpos, hle, blocks, hblocks, hbytes, hunused, entries, hentries, hids⟩ := of_read h
  obtain ⟨hvocab, hlength, hwritten⟩ := of_readBlocks hentries
  generalize hfield : field bytes 48 16 = unused at *
  have hfront : (sidecar.header.write.take 48 ++ unused).length = headerBytes := by
    rw [List.length_append, hunused]
    rfl
  have hid {i : ℕ} {b : UInt32 × UInt32} (hget : blocks[i]? = some b) :
      TopKHeader.u32At bytes (headerBytes + 8 * i) = b.1 := by
    rw [hbytes, ← List.append_assoc, ← hfront]
    exact u32At_bytesOf _ hget
  refine ⟨⟨hversion, hpos, hle, ?_, fun i hi => ?_⟩, ?_, ?_⟩
  · rw [hbytes, ← List.append_assoc, List.length_append, hfront, length_bytesOf, hblocks]
    rfl
  · have hget := List.getElem?_eq_getElem (hblocks ▸ hi)
    rw [hid hget]
    exact hvocab _ (List.getElem_mem _)
  · rintro ⟨written, rfl⟩
    refine ⟨?_, fun i hi => ?_⟩
    · rw [write_eq]
      rfl
    · have hcount : written.blocksOf.length = sidecar.ids.length := by
        have hsize := congrArg List.length hbytes
        rw [write_eq, ← List.append_assoc, List.length_append, List.length_append, hfront,
          length_bytesOf, length_bytesOf, hblocks] at hsize
        have hheader : written.header.write.length = headerBytes := rfl
        omega
      have hget := List.getElem?_eq_getElem (hcount ▸ hi)
      rw [write_eq, show headerBytes = written.header.write.length from rfl,
        u32At_bytesOf _ hget]
      obtain ⟨entry, -, heq⟩ := List.mem_map.mp (List.mem_of_getElem? hget)
      exact heq ▸ writtenId_stored entry.1
  · intro hw
    have hids' : ∀ b ∈ blocks, WrittenId b.1 := by
      intro b hb
      obtain ⟨i, hget⟩ := List.mem_iff_getElem?.mp hb
      have hi : i < sidecar.ids.length := hblocks ▸ (List.getElem?_eq_some_iff.mp hget).1
      exact hid hget ▸ hw.ids i hi
    refine ⟨⟨sidecar.header, sidecar.ids, blocks.map Prod.snd, sidecar.length_ids, ?_⟩, ?_⟩
    · rw [List.length_map, hblocks, sidecar.length_ids]
    · have hsame : (sidecar.ids.zip (blocks.map Prod.snd)).map
          (fun (id, logprob) => (stored id, logprob)) = blocks := by
        rw [hids]
        exact hwritten hids'
      rw [write_eq, hbytes, ← hfield, hw.unused, ← List.append_assoc]
      exact congrArg (sidecar.header.write ++ bytesOf ·) hsame

/-- One position with a token and an absent entry. -/
theorem write_read_row : ∃ sidecar,
    new ⟨1, 2, 1, 32, 7, 9⟩ [5, -1] [0xBDCCCCCD, negInfinity] = .ok sidecar ∧
      read sidecar.write = .ok sidecar ∧ Written sidecar.write 2 := by
  have hread : read (write ⟨⟨1, 2, 1, 32, 7, 9⟩, [5, -1], [0xBDCCCCCD, negInfinity], rfl, rfl⟩) =
      .ok ⟨⟨1, 2, 1, 32, 7, 9⟩, [5, -1], [0xBDCCCCCD, negInfinity], rfl, rfl⟩ := by
    refine (write_read_codec _ []).1.mpr ⟨rfl, by decide, by decide, ?_⟩
    rintro entry hentry
    rcases List.mem_cons.mp hentry with rfl | hentry
    · exact .inl (by decide)
    · exact .inr (List.mem_singleton.mp hentry)
  exact ⟨_, rfl, hread, ((write_read_codec _ _).2 hread).2.mp ⟨_, rfl⟩⟩

/-- A token outside the vocabulary is taken by the constructor, written, and refused by the reader;
and a header with a byte set that no writer sets is read. -/
theorem write_read_fails :
    (∃ sidecar, new ⟨1, 1, 1, 32, 7, 9⟩ [40] [0xBDCCCCCD] = .ok sidecar ∧
      read sidecar.write = .error (.vocabulary 0 40 32)) ∧
    ∃ bytes sidecar, read bytes = .ok sidecar ∧ ∀ written : TopKSidecar, written.write ≠ bytes := by
  constructor
  · exact ⟨⟨⟨1, 1, 1, 32, 7, 9⟩, [40], [0xBDCCCCCD], rfl, rfl⟩, rfl, by decide +kernel⟩
  · refine ⟨TopKHeader.write ⟨1, 1, 0, 32, 7, 9⟩ |>.set 48 1,
      ⟨⟨1, 1, 0, 32, 7, 9⟩, [], [], rfl, rfl⟩, by decide +kernel, fun written h => ?_⟩
    have hunused : field written.write 48 16 = List.replicate 16 0 := by
      rw [write_eq]
      rfl
    rw [h] at hunused
    exact absurd hunused (by decide +kernel)

end TopKSidecar

end Retrograd.Dataset.TopK
