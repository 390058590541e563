import Mathlib.Data.List.Destutter
import Retrograd.Logic.Map
import Retrograd.Trainable.Inventory

/-!
# The resolved trainable set

What one run trains, resolved once from an inventory: `full` derives it from the architecture's
families, `partial` and `hybrid` read it from a **selector**. Frozen tensors, dtypes and families
are screened before the candidates are sorted and **deduplicated by their storage**.
-/

namespace Retrograd.Trainable

open Logic

/-! ### Policies and selectors -/

/-- Which family of parameters a run trains. -/
inductive TrainablePolicy where
  | lora
  | full
  | part
  | hybrid
deriving DecidableEq, Repr

def TrainablePolicy.asStr : TrainablePolicy → String
  | .lora => "lora"
  | .full => "full"
  | .part => "partial"
  | .hybrid => "hybrid"

/-- Which transformer blocks a selection covers. -/
inductive LayerRange where
  | all
  | lastBlocks (count : ℕ)
  | inclusive (first last : ℕ)
deriving DecidableEq, Repr

/-- The selected indices for a model of `nLayer` blocks. -/
def LayerRange.resolve (range : LayerRange) (nLayer : ℕ) : Except Error (List ℕ) :=
  if nLayer = 0 then
    .error (.config "the model declares no transformer block, so no layer range can be selected")
  else
    match range with
    | .all => .ok (List.range' 0 nLayer)
    | .lastBlocks count => .ok (List.range' (nLayer - count) (nLayer - (nLayer - count)))
    | .inclusive first last =>
      if nLayer ≤ last then .error (.config (s!"trainable.layers = '{first}..{last}' is out of " ++
        s!"range: the model has {nLayer} blocks, so the last index is {nLayer - 1}"))
      else .ok (List.range' first (last + 1 - first))

/-- What a partial or hybrid document asks for inside the selected blocks. -/
structure TrainableSelector where
  layers : LayerRange
  modules : List String
  norms : Bool
  biases : Bool
  outputHead : Bool
deriving Repr

def TrainableSelector.isEmpty (selector : TrainableSelector) : Bool :=
  selector.modules.isEmpty && !selector.norms && !selector.biases && !selector.outputHead

/-- Module aliases, expanded to the stems a file spells. -/
def expandModuleAlias (name : String) : Option (List String) :=
  if name = "attn" ∨ name = "attention" then
    some ["attn_q", "attn_k", "attn_v", "attn_qkv", "attn_output"]
  else if name = "ffn" ∨ name = "mlp" then some ["ffn_up", "ffn_down", "ffn_gate"]
  else none

/-! ### Entries and exclusions -/

inductive ExclusionReason where
  | inputEmbedding
  | rotaryConstant
  | tiedOutputHead
  | unsupportedDtype (dtype : TensorDtype)
  | duplicateStorage (owner : String)
  | unlistedFamily (architecture family : String)
deriving DecidableEq, Repr

def ExclusionReason.text : ExclusionReason → String
  | .inputEmbedding => "input embedding, never trainable"
  | .rotaryConstant => "rotary constant, not a parameter"
  | .tiedOutputHead => "output head tied to the input embedding, kept frozen"
  | .unsupportedDtype dtype => s!"dtype {dtype.name} is not supported for base training"
  | .duplicateStorage owner => s!"shares storage with '{owner}'"
  | .unlistedFamily architecture family => s!"family '{family}' is not trainable on {architecture}"

structure TrainableExclusion where
  name : String
  reason : ExclusionReason
deriving DecidableEq, Repr

/-- What a resolved entry is, in the optimizer's terms. -/
inductive TensorRole where
  | loraA
  | loraB
  | base
deriving DecidableEq, Repr

/-- One resolved trainable tensor. -/
structure TrainableEntry extends TensorDesc where
  role : TensorRole
deriving DecidableEq, Repr

/-- The resolved set. -/
structure TrainableSet where
  policy : TrainablePolicy
  entries : List TrainableEntry
  exclusions : List TrainableExclusion
deriving Repr

/-! ### Freezing -/

/-- Two names of one allocation; an unknown identity is nobody's. -/
def aliases (inventory : TensorInventory) (tensor : TensorDesc) (name : String) : Bool :=
  tensor.name == name ||
    (tensor.storageId != 0 &&
      (inventory.get name).any fun frozen => frozen.storageId == tensor.storageId)

/-- Why this tensor can never be trained, or none if it can. -/
def frozenReason (inventory : TensorInventory) (tensor : TensorDesc) : Option ExclusionReason :=
  if tensor.name == outputHead &&
      (inventory.tiedEmbeddings || aliases inventory tensor inputEmbedding) then
    some .tiedOutputHead
  else if aliases inventory tensor inputEmbedding then some .inputEmbedding
  else if aliases inventory tensor rotaryTable || tensor.isRotaryConstant then some .rotaryConstant
  else none

/-- Whether the output head is there and has a storage of its own. -/
def headIsSelectable (inventory : TensorInventory) : Except Error Unit :=
  if inventory.tiedEmbeddings then
    .error (.config ("trainable.output_head = true, but this model ties its vocabulary " ++
      "projection to token_embd.weight: training the head would train the " ++
      "input embedding through an alias. Keep the head frozen"))
  else if (inventory.get outputHead).isNone then
    .error (.config (s!"trainable.output_head = true, but the model declares no '{outputHead}'"))
  else .ok ()

/-! ### Errors -/

/-- What a capped list leaves out. -/
def andMore (count shown : ℕ) : String :=
  if 0 < count - min shown count then s!" and {count - min shown count} more" else ""

/-- Names the tensors and their dtypes, capped. -/
def unsupportedDtypeError (policy : String) (unsupported : List TensorDesc) : Error :=
  let listed := ", ".intercalate ((unsupported.take 6).map fun tensor =>
    s!"{tensor.name} ({tensor.dtype.name})")
  let admitted := ", ".intercalate (("F32" :: baseDtypeTable).destutter (· ≠ ·))
  .config (s!"trainable = '{policy}' selects {unsupported.length} tensor(s) whose dtype base " ++
    s!"training does not support yet: {listed}{andMore unsupported.length 6}. Base training " ++
    s!"admits {admitted}; quantized weights are out of scope")

def untabledArchitectureError (architecture : String) : Error :=
  let known := ", ".intercalate (capabilityTable.map ArchitectureCapability.architecture)
  .config ("trainable = 'full' has to derive the trainable set itself, and this build lists no " ++
    s!"trainable families for architecture '{architecture}' (it lists: {known}). Use " ++
    s!"trainable = 'partial' and name the tensors, or add '{architecture}' to the " ++
    "capability table once a lane resolves against its real tensor names")

/-- Refuses a selected tensor whose family the row does not name. -/
def checkFamilyIsTrainable (capability : ArchitectureCapability) (name : String) :
    Except Error Unit :=
  if capability.admits name then .ok ()
  else
    let families := capability.families
    let available := ", ".intercalate (families.take 12)
    .error (.config (s!"trainable selection names '{name}', whose family '{tensorFamily name}' " ++
      s!"is not a trainable parameter of {capability.architecture} in this build. " ++
      s!"Trainable families: {available}{andMore families.length 12}"))

/-! ### Deduplication -/

/-- A candidate joins the set unless its storage is in it already. -/
def pushTensor (acc : Map UInt64 String × TrainableSet) (tensor : TensorDesc) :
    Map UInt64 String × TrainableSet :=
  let (seen, set) := acc
  match (if tensor.storageId != 0 then seen.get tensor.storageId else none) with
  | some owner =>
    (seen, { set with
      exclusions := set.exclusions ++ [⟨tensor.name, .duplicateStorage owner⟩] })
  | none =>
    (seen.insert tensor.storageId tensor.name,
      { set with entries := set.entries ++ [⟨tensor, .base⟩] })

/-- The candidates in canonical order. -/
def canonical (candidates : List TensorDesc) : List TensorDesc :=
  candidates.mergeSort fun a b => decide (a.canonicalKey ≤ b.canonicalKey)

/-- Appends candidates in canonical order, dropping any whose storage is already in the set. -/
def pushDeduplicated (candidates : List TensorDesc) (set : TrainableSet) : TrainableSet :=
  ((canonical candidates).foldl pushTensor (∅, set)).2

/-- An early return. -/
def refuseIf (condition : Bool) (error : Error) : Except Error Unit :=
  if condition then .error error else .ok ()

/-! ### Full -/

/-- What the scan has found so far: the set, tensors of no trainable dtype, and candidates. -/
structure Scan where
  set : TrainableSet
  unsupported : List TensorDesc
  candidates : List TensorDesc

/-- Where one tensor of a full run goes. -/
def scanTensor (inventory : TensorInventory) (capability : ArchitectureCapability) (scan : Scan)
    (tensor : TensorDesc) : Scan :=
  match frozenReason inventory tensor with
  | some reason => { scan with
      set := { scan.set with exclusions := scan.set.exclusions ++ [⟨tensor.name, reason⟩] } }
  | none =>
    if !capability.admits tensor.name then { scan with
      set := { scan.set with exclusions := scan.set.exclusions ++
        [⟨tensor.name, .unlistedFamily inventory.architecture (tensorFamily tensor.name)⟩] } }
    else if !tensor.dtype.isTrainableBase then
      { scan with unsupported := scan.unsupported ++ [tensor] }
    else { scan with candidates := scan.candidates ++ [tensor] }

/-- Every supported eligible base tensor. -/
def resolveFull (inventory : TensorInventory) (set : TrainableSet) : Except Error TrainableSet :=
  match architectureCapability inventory.architecture with
  | none => .error (untabledArchitectureError inventory.architecture)
  | some capability =>
    let scan := inventory.tensors.foldl (scanTensor inventory capability) ⟨set, [], []⟩
    if scan.unsupported.isEmpty then .ok (pushDeduplicated scan.candidates scan.set)
    else .error (unsupportedDtypeError "full" scan.unsupported)

/-! ### Selections -/

/-- Whether a pattern with stars matches a text. -/
def wildcardMatch : List Char → List Char → Bool
  | [], value => value.isEmpty
  | '*' :: rest, value => value.tails.any fun value => wildcardMatch rest value
  | head :: rest, first :: value => first == head && wildcardMatch rest value
  | _ :: _, [] => false

/-- A text inside another. -/
def containsText (text part : String) : Bool := text.toList.tails.any part.toList.isPrefixOf

/-- What the user wrote of one module, what it expands to, and whether it named a tensor. -/
structure Request where
  written : String
  stems : List String
  patterns : List String
  isMatched : Bool
deriving Repr

/-- A module that is matched against whole tensor names. -/
def isPattern (module : String) : Bool :=
  containsText module "*" || containsText module ".weight" || containsText module ".bias"

/-- A module's request. -/
def requestOf (module : String) : Except Error Request :=
  let module := trim module
  if module.isEmpty then .error (.config "trainable.modules contains an empty entry")
  else if isPattern module then .ok ⟨module, [], [module], false⟩
  else .ok ⟨module, (expandModuleAlias module).getD [module], [], false⟩

/-- Whether a request names a tensor. -/
def Request.hits (request : Request) (inBlockRange : Bool) (tensor : TensorDesc) : Bool :=
  (inBlockRange && !tensor.isBias && !tensor.isNorm &&
    request.stems.any fun want => want == tensorFamily tensor.name) ||
  ((tensor.layer.isNone || inBlockRange) &&
    request.patterns.any fun pattern => wildcardMatch pattern.toList tensor.name.toList)

/-- Whether the selector's own switches name a tensor. -/
def TrainableSelector.wants (selector : TrainableSelector) (inBlockRange : Bool)
    (tensor : TensorDesc) : Bool :=
  (inBlockRange && ((selector.norms && tensor.isNorm && !tensor.isBias) ||
    (selector.biases && tensor.isBias))) ||
  (selector.norms && tensor.layer.isNone && tensor.isNorm && !tensor.isBias) ||
  (selector.outputHead &&
    (tensor.name == Trainable.outputHead || tensor.name == Trainable.outputHeadBias))

/-- A tensor within the layer range. -/
def inRange (layers : List ℕ) (tensor : TensorDesc) : Bool := tensor.layer.any layers.contains

/-- Refuses a wanted tensor that is frozen or of a family the architecture's row does not name. -/
def screenTensor (inventory : TensorInventory) (tensor : TensorDesc) : Except Error Unit :=
  match frozenReason inventory tensor with
  | some reason => .error (.config (s!"trainable selection names '{tensor.name}', which " ++
      s!"cannot be trained: {reason.text}"))
  | none =>
    match architectureCapability inventory.architecture with
    | some capability => checkFamilyIsTrainable capability tensor.name
    | none => .ok ()

/-- One tensor is offered to every request, and joins the selection if it is wanted. -/
def selectTensor (inventory : TensorInventory) (selector : TrainableSelector) (layers : List ℕ)
    (acc : List Request × List TensorDesc) (tensor : TensorDesc) :
    Except Error (List Request × List TensorDesc) :=
  let inBlockRange := inRange layers tensor
  let requests := acc.1.map fun request =>
    if request.hits inBlockRange tensor then { request with isMatched := true } else request
  let wanted := (acc.1.any fun request => request.hits inBlockRange tensor) ||
    selector.wants inBlockRange tensor
  if !wanted then .ok (requests, acc.2)
  else do
    screenTensor inventory tensor
    .ok (requests, acc.2 ++ [tensor])

/-- The head is checked before the scan. -/
def checkHead (inventory : TensorInventory) (selector : TrainableSelector) : Except Error Unit :=
  if selector.outputHead then headIsSelectable inventory else .ok ()

/-- The union of the requested modules, norms and biases, intersected with the layer range, plus the
tensors that live outside every block. -/
def resolveSelected (inventory : TensorInventory) (selector : TrainableSelector)
    (set : TrainableSet) : Except Error TrainableSet := do
  refuseIf selector.isEmpty (.config ("trainable = 'partial' needs an explicit selection: " ++
    "set at least one of [trainable].modules, .norms, .biases or .output_head"))
  let layers ← selector.layers.resolve inventory.nLayer
  checkHead inventory selector
  let requests ← selector.modules.mapM requestOf
  let scan ← inventory.tensors.foldlM (selectTensor inventory selector layers) (requests, [])
  let unmatched := (scan.1.filter fun request => !request.isMatched).map Request.written
  let listed := ", ".intercalate unmatched
  refuseIf (!unmatched.isEmpty)
    (.config ("trainable.modules selects nothing in the chosen layers: " ++ listed ++
      ". Check the spelling against the model's own tensor names"))
  let unsupported := scan.2.filter fun tensor => !tensor.dtype.isTrainableBase
  refuseIf (!unsupported.isEmpty) (unsupportedDtypeError set.policy.asStr unsupported)
  .ok (pushDeduplicated scan.2 set)

/-! ### Resolution -/

/-- The base tensors of a policy that trains base tensors. -/
def resolvePolicy (inventory : TensorInventory) (policy : TrainablePolicy)
    (selector : TrainableSelector) (set : TrainableSet) : Except Error TrainableSet :=
  match policy with
  | .lora => .ok set
  | .full => resolveFull inventory set
  | .part | .hybrid => resolveSelected inventory selector set

/-- Resolves the base half of the trainable set. -/
def resolveBase (inventory : TensorInventory) (policy : TrainablePolicy)
    (selector : TrainableSelector) : Except Error TrainableSet := do
  inventory.checkVersion
  let set ← resolvePolicy inventory policy selector ⟨policy, [], []⟩
  -- adapters alone train no base tensor, and none is asked for
  refuseIf (policy != .lora && set.entries.isEmpty)
    (.config (s!"trainable = '{policy.asStr}' resolved to no tensor; " ++
      "widen the selection or check the model's tensor names"))
  .ok set

end Retrograd.Trainable
