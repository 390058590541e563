import Retrograd.Rir.DispatchPlan
import Retrograd.Rir.Encode

/-!
# Building and preparing a plan

A plan is built against the manifests of its passes and prepared for the arguments and the shape of
one node: every pass gets the buffers of its bindings, its constants and its grid. A submission
records some runs of the passes, with the barriers the plan declares and one between runs.
-/

namespace Retrograd.Rir.Dispatch

open Logic

def planError (error : PlanError) : RuntimeError := .badManifest error.text

def checkCount (expected got : ℕ) : Except RuntimeError Unit :=
  if got ≠ expected then .error (.argCountMismatch expected got) else .ok ()

/-! ### Building -/

/-- A scratch in pass `i` against the binding of the manifest. -/
def checkScratchAccess (plan : DispatchPlan) (i : ℕ) (s : Scratch) (m : Rir.Binding) :
    Except RuntimeError Unit :=
  if s.dtype ≠ m.dtype then
    bad (s!"plan '{plan.name}' pass {i} binds scratch '{s.name}' as " ++ s.dtype.name ++
      ", but the manifest expects " ++ m.dtype.name)
  else if m.access = .write ∧ i ≠ s.producedBy then
    bad (s!"plan '{plan.name}' pass {i} writes scratch '{s.name}', whose producer is pass " ++
      toString s.producedBy)
  else if m.access = .read ∧ i = s.producedBy then
    bad (s!"plan '{plan.name}' pass {i} reads scratch '{s.name}' where the plan declares its " ++
      "producer")
  else if m.access = .read ∧ s.lastReadBy < i then
    bad (s!"plan '{plan.name}' pass {i} reads scratch '{s.name}' after its declared last " ++
      "reader " ++ toString s.lastReadBy)
  else .ok ()

/-- One binding of pass `i` against the binding of its manifest. -/
def checkDeclared (plan : DispatchPlan) (i : ℕ) (bound : Binding × Rir.Binding) :
    Except RuntimeError Unit :=
  if bound.1.name ≠ bound.2.name then
    bad (s!"plan '{plan.name}' pass {i}: binds '" ++ bound.1.name ++
      "' where the manifest declares '" ++ bound.2.name ++ "'")
  else
    match bound.1.source with
    | .arg _ => .ok ()
    | .scratch name =>
      match plan.findScratch name with
      | none => .error .panic
      | some s => checkScratchAccess plan i s bound.2

/-- A scratch whose producer is pass `i` is written there. -/
def checkProduced (plan : DispatchPlan) (i : ℕ) (bindings : List (Binding × Rir.Binding))
    (s : Scratch) : Except RuntimeError Unit :=
  if s.producedBy = i ∧ ¬ bindings.any (fun bound =>
      bound.1.source == .scratch s.name && bound.2.access == .write) then
    bad s!"plan '{plan.name}' pass {i} does not write declared scratch producer '{s.name}'"
  else .ok ()

def buildPass (plan : DispatchPlan) (numbered : (Pass × Manifest) × ℕ) :
    Except RuntimeError Unit := do
  let pass := numbered.1.1
  let manifest := numbered.1.2
  let i := numbered.2
  badIf (manifest.backend ≠ plan.backend)
    (s!"plan '{plan.name}' is for " ++ plan.backend.name ++ s!", but pass {i} is for " ++
      manifest.backend.name)
  badIf (manifest.name ≠ pass.artifact)
    (s!"plan '{plan.name}' pass {i} names artifact '{pass.artifact}', but the manifest is " ++
      s!"'{manifest.name}'")
  checkCount manifest.bindings.length pass.bindings.length
  (pass.bindings.zip manifest.bindings).forM (checkDeclared plan i)
  plan.scratch.forM (checkProduced plan i (pass.bindings.zip manifest.bindings))

/-- Checks a plan against the manifests of its passes. -/
def build (plan : DispatchPlan) (manifests : List Manifest) : Except RuntimeError Unit := do
  (plan.check).mapError planError
  checkCount plan.passes.length manifests.length
  (plan.passes.zip manifests).zipIdx.forM (buildPass plan)

/-! ### Preparing -/

/-- An argument of the op, by the name the plan gives it. -/
structure PlanArg where
  name : String
  arg : Arg
deriving DecidableEq, Repr

def addArgName (plan : DispatchPlan) (names : List String) (a : PlanArg) :
    Except RuntimeError (List String) :=
  if a.name ∈ names ∨ (plan.findScratch a.name).isSome then
    bad s!"plan '{plan.name}': duplicate or reserved argument name '{a.name}'"
  else .ok (names ++ [a.name])

def evalExtent (plan : DispatchPlan) (axes : Shape) (extent : Extent) : Except RuntimeError ℕ :=
  (extent.eval axes).mapError fun error => planError (error.inPlan plan)

/-- The size of the buffer of a scratch. -/
def scratchSize (plan : DispatchPlan) (axes : Shape) (s : Scratch) : Except RuntimeError ℕ := do
  let elements ← evalExtent plan axes s.elements
  match checkedMul elements s.dtype.sizeBytes with
  | some bytes => .ok bytes
  | none => .error (planError (.budgetOverflow plan.name))

/-- A value under a name, as a new entry of the map. -/
def Values.u32 (values : Values) (name : String) (n : ℕ) : Values :=
  { values with scalars := Function.update values.scalars name (some (.u32 (UInt32.ofNat n))) }

def addAxis (plan : DispatchPlan) (axes : Shape) (values : Values) (axis : String × Extent) :
    Except RuntimeError Values := do
  let n ← evalExtent plan axes axis.2
  if n < 2 ^ 32 then .ok (Values.u32 values (extentName axis.1) n)
  else bad s!"axis '{axis.1}' beyond the u32 range"

/-- The buffer of a source: the arguments come first, then the scratches. -/
def bufferOf (plan : DispatchPlan) (args : List PlanArg) : Source → Except RuntimeError ℕ
  | .arg name =>
    match (args.map PlanArg.name ++ plan.scratch.map Scratch.name).idxOf? name with
    | some index => .ok index
    | none => .error (.missingValue name)
  | .scratch name =>
    match (plan.scratch.map Scratch.name).idxOf? name with
    | some index => .ok (args.length + index)
    | none => .error (.missingValue name)

/-- An argument is bound in its own direction. -/
def checkAccess (pass : Pass) (args : List PlanArg) (b : Binding) (m : Rir.Binding) (index : ℕ) :
    Except RuntimeError Unit :=
  match b.source with
  | .scratch _ => .ok ()
  | .arg _ =>
    match args[index]? with
    -- a name of a scratch stands behind the arguments
    | none => .error .panic
    | some a =>
      match m.access, a.arg with
      | .read, .input _ => .ok ()
      | .write, .output _ => .ok ()
      | .read, .output _ => .error (.accessMismatch (pass.artifact ++ "::" ++ b.name) "an input")
      | .write, .input _ => .error (.accessMismatch (pass.artifact ++ "::" ++ b.name) "an output")

/-- One stride, in bytes. -/
def addStride (plan : DispatchPlan) (axes : Shape) (b : Binding) (unit : ℕ) (values : Values)
    (stride : Extent × ℕ) : Except RuntimeError Values := do
  let e ← evalExtent plan axes stride.1
  if e * unit < 2 ^ 32 then
    .ok (Values.u32 values (b.name ++ "_nb" ++ toString stride.2) (e * unit))
  else bad s!"stride of '{b.name}' beyond the u32 range"

def addBinding (plan : DispatchPlan) (axes : Shape) (args : List PlanArg) (pass : Pass)
    (state : Values × List ℕ) (bound : Binding × Rir.Binding) :
    Except RuntimeError (Values × List ℕ) := do
  let index ← bufferOf plan args bound.1.source
  checkAccess pass args bound.1 bound.2 index
  let values ← bound.1.strides.zipIdx.foldlM
    (addStride plan axes bound.1 bound.2.dtype.sizeBytes) state.1
  .ok (values, state.2 ++ [index])

/-- What a pass addresses in a buffer lies in it. -/
def checkBuffer (sizes : List ℕ) (pass : Pass) (values : Values)
    (bound : (Binding × Rir.Binding) × ℕ) : Except RuntimeError Unit := do
  match ← requiredBytes bound.1.2 values with
  | none => .ok ()
  | some need =>
    let got := sizes.getD bound.2 0
    if got < need then
      .error (.bufferTooSmall (pass.artifact ++ "::" ++ bound.1.1.name) need got)
    else .ok ()

/-- One pass, resolved for one node. -/
structure Recorded where
  /-- The values the constants were written from. -/
  values : Values
  push : List UInt8
  groups : List ℕ
  buffers : List ℕ
  barrier : Barrier

def preparePass (plan : DispatchPlan) (axes : Shape) (args : List PlanArg) (sizes : List ℕ)
    (built : Pass × Manifest) : Except RuntimeError Recorded := do
  let pass := built.1
  let manifest := built.2
  let values ← pass.axes.foldlM (addAxis plan axes) ⟨fun _ => none, fun _ => none⟩
  let state ← (pass.bindings.zip manifest.bindings).foldlM
    (addBinding plan axes args pass) (values, [])
  let push ← pushBytes manifest state.1
  let groups ← groups manifest state.1
  ((pass.bindings.zip manifest.bindings).zip state.2).forM (checkBuffer sizes pass state.1)
  .ok ⟨state.1, push, groups, state.2, pass.barrier⟩

/-- Resolves every pass for the arguments and the shape of a node. -/
def prepare (plan : DispatchPlan) (manifests : List Manifest) (args : List PlanArg)
    (axes : Shape) : Except RuntimeError (List Recorded) := do
  let _ ← args.foldlM (addArgName plan) []
  let scratchSizes ← plan.scratch.mapM (scratchSize plan axes)
  (plan.passes.zip manifests).mapM
    (preparePass plan axes args (args.map (fun a => a.arg.len) ++ scratchSizes))

/-! ### Submitting -/

/-- The passes of one run from the `i`-th on, each with a barrier before it or not. -/
def runFrom (run : ℕ) : ℕ → List Recorded → List (Bool × ℕ)
  | _, [] => []
  | i, r :: rest =>
    (r.barrier == .full || (i == 0 && decide (0 < run)), i) :: runFrom run (i + 1) rest

/-- The commands of some runs in one submission. -/
def commands (recorded : List Recorded) (runs : ℕ) : List (Bool × ℕ) :=
  (List.range (max runs 1)).flatMap fun run => runFrom run 0 recorded

end Retrograd.Rir.Dispatch
