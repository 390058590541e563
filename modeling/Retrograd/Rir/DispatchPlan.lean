import Retrograd.Rir.Claim
import Retrograd.Rir.Manifest
import Retrograd.Logic.RoundUp

/-!
# Dispatch plans

One op served by several kernels in order, with scratch buffers between them. A plan is written
once for every shape, so its extents are products over the axes of the op. Its structure says
between which passes a **scratch** is alive and before which passes there is a **barrier**.
-/

namespace Retrograd.Rir.Dispatch

open Logic

/-! ### Extents -/

/-- One factor of an extent. -/
inductive Term where
  | const (n : UInt32)
  /-- The extent of an axis of the op, divided and rounded up. -/
  | axis (axis : String) (divideBy : UInt32)
deriving DecidableEq, Repr

/-- A product of terms. -/
structure Extent where
  terms : List Term
deriving DecidableEq, Repr

namespace Extent

def constant (n : UInt32) : Extent := ⟨[.const n]⟩

def axisTiles (axis : String) (tile : UInt32) : Extent := ⟨[.axis axis (max tile 1)]⟩

end Extent

inductive ExtentError where
  | unknownAxis (axis : String)
  | overflow
deriving DecidableEq, Repr

def Term.eval (axes : Shape) : Term → Except ExtentError ℕ
  | .const n => .ok n.toNat
  | .axis name divideBy =>
    match axes name with
    | some n => .ok (divCeil n.toNat (max divideBy 1).toNat)
    | none => .error (.unknownAxis name)

/-- `u64::checked_mul`. -/
def checkedMul (a b : ℕ) : Option ℕ := if a * b < 2 ^ 64 then some (a * b) else none

def timesTerm (axes : Shape) (product : ℕ) (t : Term) : Except ExtentError ℕ := do
  let v ← t.eval axes
  match checkedMul product v with
  | some product => .ok product
  | none => .error .overflow

/-- The value of a product for a node. -/
def Extent.eval (axes : Shape) (extent : Extent) : Except ExtentError ℕ :=
  extent.terms.foldlM (timesTerm axes) 1

/-! ### Plans -/

/-- Where a binding gets its buffer. -/
inductive Source where
  | arg (name : String)
  | scratch (name : String)
deriving DecidableEq, Repr

/-- One binding of one pass, with its strides in elements. -/
structure Binding where
  name : String
  source : Source
  strides : List Extent
deriving DecidableEq, Repr

inductive Barrier where
  | none
  | full
deriving DecidableEq, Repr

structure Pass where
  artifact : String
  axes : List (String × Extent)
  bindings : List Binding
  barrier : Barrier
deriving DecidableEq, Repr

/-- A buffer that exists between two passes only. -/
structure Scratch where
  name : String
  dtype : DType
  elements : Extent
  producedBy : ℕ
  lastReadBy : ℕ
deriving DecidableEq, Repr

structure DispatchPlan where
  planSchemaVersion : UInt32
  name : String
  backend : Backend
  scratch : List Scratch
  passes : List Pass
deriving DecidableEq, Repr

inductive PlanError where
  | schema (plan : String) (got : UInt32)
  | empty (plan : String)
  | unknownSource (plan : String) (pass : ℕ) (binding what name : String)
  | readBeforeWritten (plan scratch : String) (written read : ℕ)
  | missingBarrier (plan : String) (pass producer : ℕ)
  | lifetimeOutOfRange (plan scratch : String)
  | duplicateScratch (plan scratch : String)
  | invalidLifetime (plan scratch : String) (produced lastRead : ℕ)
  | budgetOverflow (plan : String)
  | unknownAxis (plan axis : String)
deriving DecidableEq, Repr

def planSchemaVersion : UInt32 := 1

/-- What an error says. -/
def PlanError.text : PlanError → String
  | .schema plan got =>
    s!"plan '{plan}': schema_version {got}; this build reads {planSchemaVersion}"
  | .empty plan => s!"plan '{plan}': no passes"
  | .unknownSource plan pass binding what name =>
    s!"plan '{plan}': pass {pass} binds '{binding}' to unknown {what} '{name}'"
  | .readBeforeWritten plan scratch written read =>
    s!"plan '{plan}': scratch '{scratch}' is read by pass {read} but written by pass {written}"
  | .missingBarrier plan pass producer =>
    s!"plan '{plan}': pass {pass} reads what pass {producer} wrote, without a barrier"
  | .lifetimeOutOfRange plan scratch =>
    s!"plan '{plan}': scratch '{scratch}' has a lifetime outside the pass list"
  | .duplicateScratch plan scratch =>
    s!"plan '{plan}': scratch '{scratch}' is declared more than once"
  | .invalidLifetime plan scratch produced lastRead =>
    s!"plan '{plan}': scratch '{scratch}' is last read by pass {lastRead} before it is " ++
      s!"produced by pass {produced}"
  | .budgetOverflow plan => s!"plan '{plan}': the scratch budget overflows on this shape"
  | .unknownAxis plan axis => s!"plan '{plan}': axis '{axis}' is not an axis of the op"

/-! ### The structural check -/

def DispatchPlan.findScratch (plan : DispatchPlan) (name : String) : Option Scratch :=
  plan.scratch.find? fun s => s.name == name

/-- One scratch after those before it: its name is new and its lifetime lies in the passes. -/
def checkScratch (plan : DispatchPlan) (seen : List Scratch) (s : Scratch) :
    Except PlanError (List Scratch) :=
  if seen.any fun other => other.name == s.name then .error (.duplicateScratch plan.name s.name)
  else if plan.passes.length ≤ s.producedBy ∨ plan.passes.length ≤ s.lastReadBy then
    .error (.lifetimeOutOfRange plan.name s.name)
  else if s.lastReadBy < s.producedBy then
    .error (.invalidLifetime plan.name s.name s.producedBy s.lastReadBy)
  else .ok (seen ++ [s])

/-- A scratch that pass `i` uses is produced by then, and behind a barrier when another pass
produced it. -/
def checkUse (plan : DispatchPlan) (i : ℕ) (pass : Pass) (s : Scratch) : Except PlanError Unit :=
  if s.producedBy < i ∧ pass.barrier = .none then
    .error (.missingBarrier plan.name i s.producedBy)
  else if i < s.producedBy then .error (.readBeforeWritten plan.name s.name s.producedBy i)
  else .ok ()

/-- One binding of pass `i`. -/
def checkSource (plan : DispatchPlan) (i : ℕ) (pass : Pass) (b : Binding) :
    Except PlanError Unit :=
  match b.source with
  | .arg _ => .ok ()
  | .scratch name =>
    match plan.findScratch name with
    | none => .error (.unknownSource plan.name i b.name "scratch" name)
    | some s => checkUse plan i pass s

def checkPass (plan : DispatchPlan) (numbered : Pass × ℕ) : Except PlanError Unit :=
  numbered.1.bindings.forM (checkSource plan numbered.2 numbered.1)

def checkSchema (plan : DispatchPlan) : Except PlanError Unit :=
  if plan.planSchemaVersion ≠ planSchemaVersion then
    .error (.schema plan.name plan.planSchemaVersion)
  else if plan.passes = [] then .error (.empty plan.name)
  else .ok ()

/-- The structural properties of a plan. -/
def DispatchPlan.check (plan : DispatchPlan) : Except PlanError Unit := do
  checkSchema plan
  let _ ← plan.scratch.foldlM (checkScratch plan) []
  plan.passes.zipIdx.forM (checkPass plan)

/-! ### The scratch budget -/

def ExtentError.inPlan (plan : DispatchPlan) : ExtentError → PlanError
  | .unknownAxis axis => .unknownAxis plan.name axis
  | .overflow => .budgetOverflow plan.name

/-- The bytes of one scratch. -/
def scratchBytes (plan : DispatchPlan) (axes : Shape) (s : Scratch) : Except PlanError ℕ := do
  let elements ← (s.elements.eval axes).mapError (·.inPlan plan)
  match checkedMul elements s.dtype.sizeBytes with
  | some bytes => .ok bytes
  | none => .error (.budgetOverflow plan.name)

/-- Whether a scratch is alive at a pass. -/
def Scratch.AliveAt (s : Scratch) (pass : ℕ) : Prop := s.producedBy ≤ pass ∧ pass ≤ s.lastReadBy

instance (s : Scratch) (pass : ℕ) : Decidable (s.AliveAt pass) :=
  inferInstanceAs (Decidable (_ ∧ _))

def addLive (plan : DispatchPlan) (axes : Shape) (pass live : ℕ) (s : Scratch) :
    Except PlanError ℕ :=
  if ¬ s.AliveAt pass then .ok live
  else do
    let bytes ← scratchBytes plan axes s
    if live + bytes < 2 ^ 64 then .ok (live + bytes) else .error (.budgetOverflow plan.name)

/-- The bytes alive at one pass. -/
def liveBytes (plan : DispatchPlan) (axes : Shape) (pass : ℕ) : Except PlanError ℕ :=
  plan.scratch.foldlM (addLive plan axes pass) 0

def raisePeak (plan : DispatchPlan) (axes : Shape) (peak pass : ℕ) : Except PlanError ℕ := do
  let live ← liveBytes plan axes pass
  .ok (max peak live)

/-- The bytes alive at the busiest pass. -/
def DispatchPlan.peakScratchBytes (plan : DispatchPlan) (axes : Shape) : Except PlanError ℕ :=
  (List.range plan.passes.length).foldlM (raisePeak plan axes) 0

end Retrograd.Rir.Dispatch
