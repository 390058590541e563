import Mathlib.Data.List.Nodup
import Retrograd.Logic.Except

/-!
# The manifest of a generated kernel

What a kernel publishes about itself, as far as a dispatch reads it: its bindings in order, the
layout of its constant block and its grid, which is either a grid of up to three axes or one
**flattened** dimension. A reader accepts a manifest when its structure can be executed.
-/

namespace Retrograd.Rir

open Logic List

/-! ### Dtypes -/

/-- The quantized formats, in the order of their table. -/
inductive QuantType where
  | F16 | Q4_0 | Q4_1 | Q5_0 | Q5_1 | Q8_0 | MXFP4 | Q2_K | Q3_K | Q4_K | Q5_K | Q6_K
  | IQ2_XXS | IQ2_XS | IQ2_S | IQ3_XXS | IQ3_S | IQ4_NL | IQ4_XS | Q1_0 | Q2_0 | IQ1_S | IQ1_M
  | NVFP4
deriving DecidableEq, Repr

/-- Logical elements of one block. -/
def QuantType.blockElements : QuantType → ℕ
  | .F16 => 1
  | .Q4_0 | .Q4_1 | .Q5_0 | .Q5_1 | .Q8_0 | .MXFP4 | .IQ4_NL => 32
  | .Q1_0 => 128
  | .Q2_0 | .NVFP4 => 64
  | .Q2_K | .Q3_K | .Q4_K | .Q5_K | .Q6_K | .IQ2_XXS | .IQ2_XS | .IQ2_S | .IQ3_XXS | .IQ3_S
  | .IQ4_XS | .IQ1_S | .IQ1_M => 256

/-- Bytes of one block. -/
def QuantType.blockBytes : QuantType → ℕ
  | .F16 => 2
  | .Q4_0 => 18
  | .Q4_1 => 20
  | .Q5_0 => 22
  | .Q5_1 => 24
  | .Q8_0 => 34
  | .MXFP4 => 17
  | .Q2_K => 84
  | .Q3_K => 110
  | .Q4_K => 144
  | .Q5_K => 176
  | .Q6_K => 210
  | .IQ2_XXS => 66
  | .IQ2_XS => 74
  | .IQ2_S => 82
  | .IQ3_XXS => 98
  | .IQ3_S => 110
  | .IQ4_NL => 18
  | .IQ4_XS => 136
  | .Q1_0 => 18
  | .Q2_0 => 18
  | .IQ1_S => 50
  | .IQ1_M => 56
  | .NVFP4 => 36

inductive DType where
  | f32 | f16 | bf16 | i32 | u32 | bool
  | quant (format : QuantType)
deriving DecidableEq, Repr

/-- The size of one element, of one block for a quantized dtype. -/
def DType.sizeBytes : DType → ℕ
  | .f32 | .i32 | .u32 => 4
  | .f16 | .bf16 => 2
  | .bool => 1
  | .quant format => format.blockBytes

def QuantType.name : QuantType → String
  | .F16 => "f16" | .Q4_0 => "q4_0" | .Q4_1 => "q4_1" | .Q5_0 => "q5_0" | .Q5_1 => "q5_1"
  | .Q8_0 => "q8_0" | .MXFP4 => "mxfp4" | .Q2_K => "q2_K" | .Q3_K => "q3_K" | .Q4_K => "q4_K"
  | .Q5_K => "q5_K" | .Q6_K => "q6_K" | .IQ2_XXS => "iq2_xxs" | .IQ2_XS => "iq2_xs"
  | .IQ2_S => "iq2_s" | .IQ3_XXS => "iq3_xxs" | .IQ3_S => "iq3_s" | .IQ4_NL => "iq4_nl"
  | .IQ4_XS => "iq4_xs" | .Q1_0 => "q1_0" | .Q2_0 => "q2_0" | .IQ1_S => "iq1_s"
  | .IQ1_M => "iq1_m" | .NVFP4 => "nvfp4"

def DType.name : DType → String
  | .f32 => "f32"
  | .f16 => "f16"
  | .bf16 => "bf16"
  | .i32 => "i32"
  | .u32 => "u32"
  | .bool => "bool"
  | .quant format => format.name

/-- Logical elements of one stride unit. -/
def DType.elementsPerUnit : DType → ℕ
  | .quant format => format.blockElements
  | _ => 1

theorem DType.elementsPerUnit_pos (dtype : DType) : 0 < dtype.elementsPerUnit := by
  rcases dtype with _ | _ | _ | _ | _ | _ | format
  case quant => rcases format <;> exact (by decide)
  all_goals exact Nat.one_pos

/-! ### The schema -/

inductive Backend where
  | cpu
  | cuda
  | metal
  | vulkan
deriving DecidableEq, Repr

def Backend.name : Backend → String
  | .cpu => "cpu"
  | .cuda => "cuda"
  | .metal => "metal"
  | .vulkan => "vulkan"

inductive Access where
  | read
  | write
deriving DecidableEq, Repr

/-- One buffer the kernel binds. -/
structure Binding where
  name : String
  binding : UInt32
  dtype : DType
  access : Access
  /-- The axis that indexes each dimension, none where no single axis does. -/
  extents : List (Option String)
deriving DecidableEq, Repr

def Binding.isWrite (b : Binding) : Bool := b.access == .write

/-- The type of one entry of the constant block. -/
inductive PushType where
  | u32
  | i32
  | f32
deriving DecidableEq, Repr

/-- One slot of the constant block, by its byte offset. -/
structure PushConstant where
  name : String
  ty : PushType
  offset : UInt32
deriving DecidableEq, Repr

structure GridAxis where
  axis : String
  perWorkgroup : UInt32
deriving DecidableEq, Repr

/-- An axis the flattened index decomposes into, the fastest first. -/
structure FlatAxis where
  axis : String
  perIndex : UInt32
deriving DecidableEq, Repr

inductive ParallelMapping where
  | workgroup
  | invocation
deriving DecidableEq, Repr

structure Manifest where
  schemaVersion : UInt32
  name : String
  backend : Backend
  bindings : List Binding
  pushConstants : List PushConstant
  parallelMapping : ParallelMapping
  dispatch : List GridAxis
  flat : List FlatAxis
  workgroup : UInt32 × UInt32 × UInt32
deriving DecidableEq, Repr

inductive RuntimeError where
  | badManifest (text : String)
  | missingValue (name : String)
  | unrepresentableValue (name : String) (value : ℕ)
  | argCountMismatch (expected got : ℕ)
  | accessMismatch (binding expected : String)
  | bufferTooSmall (binding : String) (need got : ℕ)
  /-- An index out of bounds: no result comes back. -/
  | panic
deriving DecidableEq, Repr

/-! ### Reading -/

def supportedSchema : UInt32 := 9

/-- The largest offset of a constant. -/
def maxPushOffset : UInt32 := 65532

/-- The constant an axis has its extent in. -/
def extentName (axis : String) : String := "n_" ++ axis

def axisDeclared (m : Manifest) (axis : String) : Bool :=
  m.pushConstants.any fun p => p.name == extentName axis

def bad (text : String) : Except RuntimeError α := .error (.badManifest text)

def badIf (c : Prop) [Decidable c] (text : String) : Except RuntimeError Unit :=
  if c then bad text else .ok ()

/-- One binding: its number is new, it has four dimensions at most, and its axes are declared. -/
def checkBinding (m : Manifest) (seen : List UInt32) (b : Binding) :
    Except RuntimeError (List UInt32) :=
  if b.binding ∈ seen then bad ("binding " ++ toString b.binding ++ " declared twice")
  else if 4 < b.extents.length then
    bad ("binding '" ++ b.name ++ "': " ++ toString b.extents.length ++
      " dimensions, at most 4 in ggml")
  else
    match b.extents.reduceOption.find? fun name => !axisDeclared m name with
    | some name =>
      bad ("binding '" ++ b.name ++ "': axis '" ++ name ++ "' absent from push constants (n_" ++
        name ++ ")")
    | none => .ok (b.binding :: seen)

/-- One constant: aligned, within bounds, and alone at its offset. -/
def checkPushConstant (slots : List (UInt32 × String)) (p : PushConstant) :
    Except RuntimeError (List (UInt32 × String)) :=
  if p.offset % 4 ≠ 0 then
    bad ("push constant '" ++ p.name ++ "': offset " ++ toString p.offset ++ " not aligned to 4")
  else if maxPushOffset < p.offset then
    bad ("push constant '" ++ p.name ++ "': offset " ++ toString p.offset ++ " beyond " ++
      toString maxPushOffset)
  else
    match slots.find? fun slot => slot.1 == p.offset with
    | some other =>
      bad ("push constants '" ++ p.name ++ "' and '" ++ other.2 ++ "' at the same offset " ++
        toString p.offset)
    | none => .ok ((p.offset, p.name) :: slots)

def checkGridAxis (m : Manifest) (g : GridAxis) : Except RuntimeError Unit :=
  if g.perWorkgroup = 0 then bad ("axis '" ++ g.axis ++ "': per_workgroup = 0")
  else if !axisDeclared m g.axis then
    bad ("dispatch axis '" ++ g.axis ++ "' without push constant n_" ++ g.axis)
  else .ok ()

def checkFlatAxis (m : Manifest) (f : FlatAxis) : Except RuntimeError Unit :=
  if f.perIndex = 0 then bad ("flat axis '" ++ f.axis ++ "': per_index = 0")
  else if !axisDeclared m f.axis then
    bad ("flat axis '" ++ f.axis ++ "' without push constant n_" ++ f.axis)
  else .ok ()

/-- The grid has three dimensions, and it is either a grid or a flattened one. -/
def checkGrid (m : Manifest) : Except RuntimeError Unit := do
  badIf (3 < m.dispatch.length)
    ("dispatch of " ++ toString m.dispatch.length ++ " axes, 3 grid dimensions")
  m.dispatch.forM (checkGridAxis m)
  badIf (m.flat ≠ [] ∧ m.dispatch ≠ []) "both a grid and a flattened dispatch"
  badIf (m.flat = [] ∧ m.dispatch = []) "neither a grid nor a flattened dispatch"
  m.flat.forM (checkFlatAxis m)

def checkWorkgroup (m : Manifest) : Except RuntimeError Unit :=
  let x := m.workgroup.1
  let y := m.workgroup.2.1
  let z := m.workgroup.2.2
  if x = 0 ∨ y = 0 ∨ z = 0 then
    bad ("workgroup [" ++ toString x ++ ", " ++ toString y ++ ", " ++ toString z ++
      "]: a zero dimension")
  else .ok ()

/-- Whether the structure can be executed. -/
def checkStructure (m : Manifest) : Except RuntimeError Unit := do
  badIf (m.bindings = []) "no bindings"
  let _ ← m.bindings.foldlM (checkBinding m) []
  let _ ← m.pushConstants.foldlM checkPushConstant []
  checkGrid m
  checkWorkgroup m

/-- Parses and validates a manifest. What deserializes a text is a parameter. -/
def fromJson (deserialize : String → Except String Manifest) (text : String) :
    Except RuntimeError Manifest := do
  let m ← (deserialize text).mapError .badManifest
  badIf (m.schemaVersion ≠ supportedSchema)
    ("schema_version " ++ toString m.schemaVersion ++ "; this runtime reads " ++
      toString supportedSchema)
  badIf (m.backend = .cpu)
    ("backend '" ++ m.backend.name ++ "': this runtime executes vulkan, cuda and metal")
  checkStructure m
  .ok m

/-! ### What is accepted -/

/-- What a dispatch relies on. -/
structure Executable (m : Manifest) : Prop where
  aligned : ∀ p ∈ m.pushConstants, p.offset.toNat % 4 = 0 ∧ p.offset.toNat ≤ 65532
  distinct : (m.pushConstants.map PushConstant.offset).Nodup
  threeAxes : m.dispatch.length ≤ 3
  perWorkgroup : ∀ g ∈ m.dispatch, 0 < g.perWorkgroup.toNat
  perIndex : ∀ f ∈ m.flat, 0 < f.perIndex.toNat
  /-- A flattened dispatch has no grid. -/
  oneGeometry : m.flat ≠ [] → m.dispatch = []
  workgroup : 0 < m.workgroup.1.toNat

private theorem toNat_pos {n : UInt32} (h : n ≠ 0) : 0 < n.toNat :=
  Nat.pos_of_ne_zero fun hzero => h (UInt32.toNat_inj.mp hzero)

theorem of_badIf {c : Prop} [Decidable c] {text : String} (h : badIf c text = .ok ⟨⟩) : ¬ c := by
  rw [badIf] at h
  split_ifs at h with hc
  · cases h
  · exact hc

theorem of_checkPushConstants {constants : List PushConstant}
    {slots slots' : List (UInt32 × String)}
    (h : constants.foldlM checkPushConstant slots = .ok slots') :
    (∀ p ∈ constants, p.offset.toNat % 4 = 0 ∧ p.offset.toNat ≤ 65532) ∧
      (constants.map PushConstant.offset).Nodup ∧
      ∀ p ∈ constants, p.offset ∉ slots.map Prod.fst := by
  induction constants generalizing slots with
  | nil =>
    exact ⟨fun p hp => absurd hp not_mem_nil, nodup_nil,
      fun p hp => absurd hp not_mem_nil⟩
  | cons p constants ih =>
    obtain ⟨next, hp, hrest⟩ := ok_of_bind h
    rw [checkPushConstant] at hp
    split_ifs at hp with halign hbound
    · cases hp
    · cases hp
    · cases hslot : slots.find? fun slot => slot.1 == p.offset with
      | some other =>
        rw [hslot] at hp
        cases hp
      | none =>
        rw [hslot] at hp
        obtain rfl := Except.ok.inj hp
        obtain ⟨hall, hnodup, hfresh⟩ := ih hrest
        have hnew : p.offset ∉ slots.map Prod.fst := by
          intro hmem
          obtain ⟨slot, hin, heq⟩ := mem_map.mp hmem
          exact find?_eq_none.mp hslot slot hin (beq_iff_eq.mpr heq)
        refine ⟨forall_mem_cons.mpr ⟨⟨?_, ?_⟩, hall⟩, nodup_cons.mpr ⟨?_, hnodup⟩,
          forall_mem_cons.mpr ⟨hnew, fun q hq hmem =>
            hfresh q hq (mem_cons_of_mem _ hmem)⟩⟩
        · have hmod := congrArg UInt32.toNat (not_not.mp halign)
          rwa [UInt32.toNat_mod] at hmod
        · exact UInt32.le_iff_toNat_le.mp (UInt32.not_lt.mp hbound)
        · intro hmem
          obtain ⟨q, hq, heq⟩ := mem_map.mp hmem
          exact hfresh q hq (heq ▸ mem_cons_self)

theorem of_checkGrid {m : Manifest} (h : checkGrid m = .ok ⟨⟩) :
    m.dispatch.length ≤ 3 ∧ (∀ g ∈ m.dispatch, 0 < g.perWorkgroup.toNat) ∧
      (∀ f ∈ m.flat, 0 < f.perIndex.toNat) ∧ (m.flat ≠ [] → m.dispatch = []) := by
  obtain ⟨⟨⟩, haxes, h⟩ := ok_of_bind h
  obtain ⟨⟨⟩, hdispatch, h⟩ := ok_of_bind h
  obtain ⟨⟨⟩, hboth, h⟩ := ok_of_bind h
  obtain ⟨⟨⟩, -, h⟩ := ok_of_bind h
  refine ⟨Nat.not_lt.mp (of_badIf haxes), fun g hg => ?_, fun f hf => ?_,
    fun hflat => by_contra fun hgrid => of_badIf hboth ⟨hflat, hgrid⟩⟩
  · have hcheck := forM_ok_iff.mp hdispatch g hg
    rw [checkGridAxis] at hcheck
    split_ifs at hcheck with hzero
    · cases hcheck
    · cases hcheck
    · exact toNat_pos hzero
  · have hcheck := forM_ok_iff.mp h f hf
    rw [checkFlatAxis] at hcheck
    split_ifs at hcheck with hzero
    · cases hcheck
    · cases hcheck
    · exact toNat_pos hzero

theorem of_checkStructure {m : Manifest} (h : checkStructure m = .ok ⟨⟩) : Executable m := by
  obtain ⟨⟨⟩, -, h⟩ := ok_of_bind h
  obtain ⟨seen, -, h⟩ := ok_of_bind h
  obtain ⟨slots, hslots, h⟩ := ok_of_bind h
  obtain ⟨⟨⟩, hgrid, hworkgroup⟩ := ok_of_bind h
  obtain ⟨haligned, hdistinct, -⟩ := of_checkPushConstants hslots
  obtain ⟨hthree, hper, hindex, hone⟩ := of_checkGrid hgrid
  refine ⟨haligned, hdistinct, hthree, hper, hindex, hone, toNat_pos fun hzero => ?_⟩
  rw [checkWorkgroup, if_pos (.inl hzero)] at hworkgroup
  cases hworkgroup

/-- **What the reader accepts can be executed.** -/
theorem executable_of_fromJson {deserialize : String → Except String Manifest} {text : String}
    {m : Manifest} (h : fromJson deserialize text = .ok m) : Executable m := by
  obtain ⟨parsed, -, h⟩ := ok_of_bind h
  obtain ⟨⟨⟩, -, h⟩ := ok_of_bind h
  obtain ⟨⟨⟩, -, h⟩ := ok_of_bind h
  obtain ⟨⟨⟩, hstructure, h⟩ := ok_of_bind h
  obtain rfl := Except.ok.inj h
  exact of_checkStructure hstructure

end Retrograd.Rir
