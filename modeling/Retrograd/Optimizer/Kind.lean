import Retrograd.Logic.RoundUp
import Retrograd.Logic.Saturating
import Retrograd.Trainable.Resolve

/-!
# Optimizers and their slots

The half of an optimizer that is known before a graph exists: which parameters it takes, which
dtypes its step can write, the **slots** it keeps for a parameter and the closed form of their size.
Sizes are 64-bit counts that saturate.
-/

namespace Retrograd.Optimizer

open Logic Trainable List Option

/-- `u64::MAX`. -/
def u64Max : ℕ := 2 ^ 64 - 1

/-- Which fixed-block state a Gefen run keeps. -/
inductive GefenVariant where
  | sharedV
  | quantizedM
deriving DecidableEq, Repr

structure GefenLayout where
  variant : GefenVariant
  /-- Elements of one quantization block. -/
  blockSize : ℕ
  /-- A parameter with fewer elements falls back to AdamW. -/
  minNumel : ℕ
deriving DecidableEq, Repr

/-- The optimizers a document may name. -/
inductive OptimizerKind where
  | adamW
  | sgd
  | muon
  | gefen (layout : GefenLayout)
deriving DecidableEq, Repr

/-! ### Slots -/

/-- The dtype of one persistent slot. -/
inductive SlotDtype where
  | f32
  | i8
deriving DecidableEq, Repr

def SlotDtype.bytes : SlotDtype → ℕ
  | .f32 => 4
  | .i8 => 1

/-- How large a slot is, relative to its parameter. -/
inductive SlotShape where
  | parameter
  /-- One element for each block of this size, a partial one included. -/
  | blocks (size : ℕ)
  /-- A count of its own: shared state. -/
  | fixed (count : ℕ)
deriving DecidableEq, Repr

/-- What a slot holds before the first update. -/
inductive SlotInit where
  | zero
  | code (pattern : UInt8)
  | uniformCodebook
  | parameter
deriving DecidableEq, Repr

structure SlotDefinition where
  name : String
  dtype : SlotDtype
  shape : SlotShape
  init : SlotInit
deriving DecidableEq, Repr

/-- One resolved slot: what the runtime is expected to have allocated. -/
structure PlannedSlot where
  slot : String
  dtype : SlotDtype
  nElements : ℕ
  nBytes : ℕ
deriving DecidableEq, Repr

/-- A definition against one parameter. -/
def SlotDefinition.resolve (slot : SlotDefinition) (entry : TrainableEntry) : PlannedSlot :=
  let nElements :=
    match slot.shape with
    | .parameter => entry.nElements.toNat
    | .blocks size => divCeil entry.nElements.toNat (max size 1)
    | .fixed count => count
  ⟨slot.name, slot.dtype, nElements, satMul u64Max nElements slot.dtype.bytes⟩

/-- The element count of a shared slot. -/
def SlotDefinition.sharedElements (slot : SlotDefinition) : ℕ :=
  match slot.shape with
  | .fixed count => count
  | .parameter => 0
  | .blocks _ => 0

def masterSlot : String := "master"
def gefenCodebookLevels : ℕ := 256
def gefenZeroBlockIndex : UInt8 := 127

/-- The F32 master copy of a half-precision parameter. -/
def masterSlotDefinition : TensorDtype → Option SlotDefinition
  | .f16 => some ⟨masterSlot, .f32, .parameter, .parameter⟩
  | .bf16 => some ⟨masterSlot, .f32, .parameter, .parameter⟩
  | .f32 => none
  | .other _ => none

namespace OptimizerKind

def asStr : OptimizerKind → String
  | .adamW => "adamw"
  | .sgd => "sgd"
  | .muon => "muon"
  | .gefen _ => "gefen"

/-- The version of the slot table and of the update's arithmetic. -/
def layoutVersion : OptimizerKind → ℕ
  | .gefen layout =>
    match layout.variant with
    | .sharedV => 1
    | .quantizedM => 2
  | _ => 1

/-- A master copy is one more slot and moves the version by one. -/
def layoutVersionWithMaster (kind : OptimizerKind) (masterWeights : Bool) : ℕ :=
  kind.layoutVersion + masterWeights.toNat

/-- The persistent slots this optimizer keeps for one parameter. -/
def slotDefinitions : OptimizerKind → List SlotDefinition
  | .adamW => [⟨"m", .f32, .parameter, .zero⟩, ⟨"v", .f32, .parameter, .zero⟩]
  | .sgd => []
  | .muon => [⟨"momentum", .f32, .parameter, .zero⟩]
  | .gefen layout =>
    match layout.variant with
    | .sharedV => [⟨"m", .f32, .parameter, .zero⟩, ⟨"v", .f32, .blocks layout.blockSize, .zero⟩]
    | .quantizedM =>
      [⟨"indices", .i8, .parameter, .code gefenZeroBlockIndex⟩,
        ⟨"scales", .f32, .blocks layout.blockSize, .zero⟩,
        ⟨"second_moments", .f32, .blocks layout.blockSize, .zero⟩]

/-- State kept once for each owner rather than for each parameter. -/
def sharedSlotDefinitions : OptimizerKind → List SlotDefinition
  | .gefen layout =>
    match layout.variant with
    | .sharedV => []
    | .quantizedM => [⟨"codebook", .f32, .fixed gefenCodebookLevels, .uniformCodebook⟩]
  | _ => []

/-! ### Ownership -/

/-- Whether the update step can write a parameter of this dtype. -/
def supportsDtype (kind : OptimizerKind) (dtype : TensorDtype) : Bool :=
  match kind with
  | .adamW | .sgd => dtype == .f32 || dtype == .f16 || dtype == .bf16
  | .muon | .gefen _ => dtype == .f32

/-- Whether this optimizer is the right one for the parameter. -/
def isEligible (kind : OptimizerKind) (entry : TrainableEntry) : Bool :=
  match kind with
  | .adamW | .sgd => true
  | .muon =>
    entry.role == .base && (stripSuffix entry.name ".bias").isNone &&
      !decide ("norm".toList <:+: entry.name.toList) && entry.name != outputHead &&
      -- a list stands for the four extents, an absent one is trivial
      decide (1 < entry.ne.getD 0 1) && decide (1 < entry.ne.getD 1 1) &&
      decide (entry.ne.getD 2 1 ≤ 1) && decide (entry.ne.getD 3 1 ≤ 1)
  | .gefen layout => decide (layout.minNumel ≤ entry.nElements.toNat)

/-- What a run falls back to for a parameter its optimizer does not own. -/
def fallback : OptimizerKind → Option OptimizerKind
  | .adamW | .sgd => none
  | .muon | .gefen _ => some .adamW

/-- The optimizer that owns a parameter, none when nothing can write it. -/
def assign (kind : OptimizerKind) (entry : TrainableEntry) : Option OptimizerKind :=
  if kind.isEligible entry && kind.supportsDtype entry.dtype then some kind
  else kind.fallback.bind fun fallback =>
    if fallback.supportsDtype entry.dtype then some fallback else none

/-! ### Sizes in closed form -/

/-- The persistent bytes of one eligible parameter. -/
def eligibleStateBytes (kind : OptimizerKind) (nElements : ℕ) : ℕ :=
  match kind with
  | .adamW => satMul u64Max nElements 8
  | .sgd => 0
  | .muon => satMul u64Max nElements 4
  | .gefen layout =>
    let blocks := divCeil nElements (max layout.blockSize 1)
    match layout.variant with
    | .sharedV => satAdd u64Max (satMul u64Max nElements 4) (satMul u64Max blocks 4)
    | .quantizedM => satAdd u64Max nElements (satMul u64Max blocks 8)

/-- The bytes of one entry: its slots, and its master copy when the run keeps one. -/
def entryStateBytes (kind : OptimizerKind) (masterWeights : Bool) (entry : TrainableEntry) : ℕ :=
  -- an entry nothing can write is priced as AdamW, not free
  let slots := ((kind.assign entry).getD .adamW).eligibleStateBytes entry.nElements.toNat
  let master :=
    match (if masterWeights then masterSlotDefinition entry.dtype else none) with
    | some slot => (slot.resolve entry).nBytes
    | none => 0
  satAdd u64Max slots master

/-- Persistent optimizer state for a whole resolved set. -/
def stateBytesWithMaster (kind : OptimizerKind) (set : TrainableSet) (masterWeights : Bool) : ℕ :=
  satSum u64Max (set.entries.map (kind.entryStateBytes masterWeights))

/-! ### What ownership promises -/

/-- An owner can write what it owns. -/
theorem supportsDtype_of_assign {kind owner : OptimizerKind} {entry : TrainableEntry}
    (h : kind.assign entry = some owner) : owner.supportsDtype entry.dtype = true := by
  rw [assign] at h
  split_ifs at h with hown
  · obtain rfl := some.inj h
    exact (Bool.and_eq_true_iff.mp hown).2
  · obtain ⟨fallback, -, hfallback⟩ := bind_eq_some_iff.mp h
    split_ifs at hfallback with hwrites
    obtain rfl := some.inj hfallback
    exact hwrites

/-- An owner is the chosen optimizer or AdamW. -/
theorem of_assign {kind owner : OptimizerKind} {entry : TrainableEntry}
    (h : kind.assign entry = some owner) : owner = kind ∨ owner = .adamW := by
  rw [assign] at h
  split_ifs at h with hown
  · exact .inl (some.inj h).symm
  · obtain ⟨fallback, hkind, hfallback⟩ := bind_eq_some_iff.mp h
    split_ifs at hfallback
    obtain rfl := some.inj hfallback
    right
    rcases kind with _ | _ | _ | layout
    · cases hkind
    · cases hkind
    · exact (some.inj hkind).symm
    · exact (some.inj hkind).symm

/-- The closed form is the size of the slots. -/
theorem satSum_slotDefinitions (kind : OptimizerKind) (entry : TrainableEntry) :
    satSum u64Max (kind.slotDefinitions.map fun slot => (slot.resolve entry).nBytes) =
      kind.eligibleStateBytes entry.nElements.toNat := by
  rw [satSum_eq]
  rcases kind with _ | _ | _ | ⟨_ | _, blockSize, minNumel⟩ <;>
    simp only [slotDefinitions, eligibleStateBytes, map_cons, map_nil, sum_cons,
      sum_nil, SlotDefinition.resolve, SlotDtype.bytes, satAdd, satMul] <;>
    omega

end OptimizerKind

end Retrograd.Optimizer
