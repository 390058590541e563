import Mathlib.Data.Prod.Lex
import Mathlib.Data.String.Basic
import Retrograd.Logic.Text

/-!
# Tensor inventories

What a model file declares of its tensors, read from metadata alone: names, dtypes, and an opaque
**storage identity** that tells two names of one allocation. A tensor's block, its stem and its
family are read off its name.
-/

namespace Retrograd.Trainable

open Logic

inductive Error where
  | runtime (text : String)
  | config (text : String)
deriving DecidableEq, Repr

/-! ### Texts -/

/-- `str::strip_prefix`. -/
def stripPrefix (text front : String) : Option String :=
  (front.toList.isPrefixOf? text.toList).map String.ofList

/-- `str::strip_suffix`. -/
def stripSuffix (text ending : String) : Option String :=
  (ending.toList.reverse.isPrefixOf? text.toList.reverse).map fun rest => String.ofList rest.reverse

/-- `str::split_once` at a dot. -/
def splitDot (text : String) : Option (String × String) :=
  match text.toList.span (· != '.') with
  | (front, _ :: rest) => some (String.ofList front, String.ofList rest)
  | (_, []) => none

/-- `u32::from_str`: a leading plus sign may precede the digits. -/
def parseU32 (text : String) : Option ℕ :=
  let digits := match text.toList with
    | '+' :: rest => rest
    | chars => chars
  if digits = [] ∨ ¬ digits.all Char.isDigit then none
  else
    let value := digits.foldl (fun value digit => 10 * value + (digit.toNat - '0'.toNat)) 0
    if value < 2 ^ 32 then some value else none

/-- The block a tensor name belongs to, none for a name outside every block. -/
def blockIndex (name : String) : Option ℕ := do
  let rest ← stripPrefix name "blk."
  let (digits, _) ← splitDot rest
  parseU32 digits

/-- The family of a tensor name: the name without its block prefix and its suffix. -/
def tensorFamily (name : String) : String :=
  let rest :=
    match stripPrefix name "blk." with
    | some rest =>
      match splitDot rest with
      | some (digits, rest) => if digits.toList.all Char.isDigit then rest else name
      | none => name
    | none => name
  ((stripSuffix rest ".weight").or (stripSuffix rest ".bias")).getD rest

/-! ### Dtypes -/

/-- The dtype of a stored tensor, to the precision selection needs. -/
inductive TensorDtype where
  | f32
  | f16
  | bf16
  | other (name : String)
deriving DecidableEq, Repr

def TensorDtype.name : TensorDtype → String
  | .f32 => "F32"
  | .f16 => "F16"
  | .bf16 => "BF16"
  | .other name => name

/-- The dtypes of the rows of `BASE_DTYPE_TABLE`, in its order. -/
def baseDtypeTable : List String :=
  ["F16", "F16", "BF16", "BF16", "F16", "BF16", "F16", "BF16", "F16", "BF16", "F16", "BF16", "F16",
    "BF16", "F16", "BF16", "F16", "F16", "F16", "F16", "BF16", "BF16", "BF16", "BF16"]

def baseDtypeIsTabled (dtype : TensorDtype) : Bool :=
  baseDtypeTable.any fun row => row == dtype.name

/-- Whether a base tensor of this dtype may be trained by some optimizer on some backend. -/
def TensorDtype.isTrainableBase (dtype : TensorDtype) : Bool :=
  dtype == .f32 || baseDtypeIsTabled dtype

/-! ### Tensors -/

/-- One tensor as the file declares it. -/
structure TensorDesc where
  name : String
  ne : List ℤ
  dtype : TensorDtype
  nElements : UInt64
  nBytes : UInt64
  /-- The allocation behind this tensor, zero where it is unknown. -/
  storageId : UInt64
deriving DecidableEq, Repr

def ropeFreqsSuffix : String := "rope_freqs.weight"
def inputEmbedding : String := "token_embd.weight"
def rotaryTable : String := "rope_freqs.weight"
def outputHead : String := "output.weight"
def outputHeadBias : String := "output.bias"

namespace TensorDesc

def layer (tensor : TensorDesc) : Option ℕ := blockIndex tensor.name

/-- The module stem: what is left after the block prefix and the suffix. -/
def stem (tensor : TensorDesc) : Option String := do
  let rest ←
    match stripPrefix tensor.name "blk." with
    | some rest => (splitDot rest).map Prod.snd
    | none => some tensor.name
  (stripSuffix rest ".weight").or (stripSuffix rest ".bias")

def isBias (tensor : TensorDesc) : Bool := (stripSuffix tensor.name ".bias").isSome

/-- The rotary table of a block. -/
def isBlockRotary (tensor : TensorDesc) : Bool :=
  (stripSuffix tensor.name ("." ++ ropeFreqsSuffix)).isSome

/-- Whether this is a rotary frequency table rather than a parameter. -/
def isRotaryConstant (tensor : TensorDesc) : Bool :=
  tensor.name == ropeFreqsSuffix || tensor.isBlockRotary

/-- Whether the stem names a normalization. -/
def isNorm (tensor : TensorDesc) : Bool :=
  tensor.stem.any fun stem => stem == "norm" || (stripSuffix stem "_norm").isSome

/-- Layer-major, then the name. -/
def canonicalKey (tensor : TensorDesc) : ℕ ×ₗ ℕ ×ₗ String :=
  match tensor.layer with
  | some layer => toLex (0, toLex (layer, tensor.name))
  | none => toLex (1, toLex (0, tensor.name))

end TensorDesc

def tensorInventoryVersion : ℕ := 1

/-- Every tensor a file declares. -/
structure TensorInventory where
  version : ℕ
  architecture : String
  nLayer : ℕ
  tiedEmbeddings : Bool
  tensors : List TensorDesc
deriving Repr

namespace TensorInventory

/-- An inventory, its number of blocks read from the block indices that are there. -/
def new (architecture : String) (tiedEmbeddings : Bool) (tensors : List TensorDesc) :
    TensorInventory where
  version := tensorInventoryVersion
  architecture
  nLayer := ((tensors.filterMap TensorDesc.layer).max?.map fun last => (last + 1) % 2 ^ 32).getD 0
  tiedEmbeddings
  tensors

def get (inventory : TensorInventory) (name : String) : Option TensorDesc :=
  inventory.tensors.find? fun tensor => tensor.name == name

/-- Refuses an inventory of another schema version. -/
def checkVersion (inventory : TensorInventory) : Except Error Unit :=
  if inventory.version = tensorInventoryVersion then .ok ()
  else .error (.runtime (s!"tensor inventory has schema version {inventory.version}, " ++
    s!"expected {tensorInventoryVersion}"))

end TensorInventory

/-! ### Capabilities -/

/-- The trainable families of one architecture. -/
structure ArchitectureCapability where
  architecture : String
  blockFamilies : List String
  globalFamilies : List String
deriving DecidableEq, Repr

namespace ArchitectureCapability

/-- Whether a full run may take this tensor, by its name and its position. -/
def admits (capability : ArchitectureCapability) (name : String) : Bool :=
  let families :=
    if (blockIndex name).isSome then capability.blockFamilies else capability.globalFamilies
  families.contains (tensorFamily name)

def families (capability : ArchitectureCapability) : List String :=
  capability.blockFamilies ++ capability.globalFamilies

end ArchitectureCapability

/-- The block families every dense transformer shares. -/
def denseBlock : List String :=
  ["attn_norm", "attn_q", "attn_k", "attn_v", "attn_qkv", "attn_output", "attn_q_norm",
    "attn_k_norm", "ffn_norm", "ffn_up", "ffn_down", "ffn_gate"]

def lfm2Block : List String :=
  ["attn_norm", "attn_q", "attn_k", "attn_v", "attn_qkv", "attn_output", "attn_q_norm",
    "attn_k_norm", "ffn_norm", "ffn_up", "ffn_down", "ffn_gate", "shortconv.conv",
    "shortconv.in_proj", "shortconv.out_proj"]

def qwen35Block : List String :=
  ["attn_norm", "attn_q", "attn_k", "attn_v", "attn_qkv", "attn_output", "attn_q_norm",
    "attn_k_norm", "attn_gate", "post_attention_norm", "ffn_norm", "ffn_up", "ffn_down",
    "ffn_gate", "ssm_a", "ssm_alpha", "ssm_beta", "ssm_conv1d", "ssm_dt", "ssm_norm", "ssm_out"]

def denseGlobal : List String := ["output_norm", "output", "token_embd_norm"]

def modernBertGlobal : List String :=
  ["output_norm", "output", "token_embd_norm", "token_types", "cls", "cls.norm", "cls.output"]

def capabilityTable : List ArchitectureCapability :=
  [⟨"llama", denseBlock, denseGlobal⟩, ⟨"qwen2", denseBlock, denseGlobal⟩,
    ⟨"qwen35", qwen35Block, denseGlobal⟩, ⟨"lfm2", lfm2Block, denseGlobal⟩,
    ⟨"modern-bert", denseBlock, modernBertGlobal⟩]

def architectureCapability (architecture : String) : Option ArchitectureCapability :=
  capabilityTable.find? fun row => row.architecture == architecture

end Retrograd.Trainable
