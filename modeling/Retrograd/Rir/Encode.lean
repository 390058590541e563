import Retrograd.Logic.Overwrite
import Retrograd.Logic.RoundUp
import Retrograd.Rir.Manifest

/-!
# Encoding a dispatch

Everything that is checked before a device is touched: the direction of the arguments, the grid,
the constant block, and the bytes a dispatch can address in each buffer, which are counted in
machine words of 64 bits.
-/

namespace Retrograd.Rir

open Logic

/-! ### Values -/

inductive Scalar where
  | u32 (n : UInt32)
  | i32 (n : Int32)
  /-- A float by its bits. -/
  | f32 (bits : UInt32)
deriving DecidableEq, Repr

/-- The four bytes of a scalar of the declared type. -/
def Scalar.bytes : PushType → Scalar → Option (List UInt8)
  | .u32, .u32 n => some (leBytes 4 n.toNat)
  | .i32, .i32 n => some (leBytes 4 n.toUInt32.toNat)
  | .f32, .f32 bits => some (leBytes 4 bits.toNat)
  | _, _ => none

/-- The values of the constants by name. Strides that do not fit 32 bits are kept aside. -/
structure Values where
  scalars : String → Option Scalar
  unrepresentable : String → Option ℕ

def Values.representable (values : Values) (name : String) : Except RuntimeError Unit :=
  match values.unrepresentable name with
  | some value => .error (.unrepresentableValue name value)
  | none => .ok ()

/-- An axis extent or a stride. -/
def Values.extent (values : Values) (name : String) : Except RuntimeError UInt32 := do
  values.representable name
  match values.scalars name with
  | some (.u32 n) => .ok n
  | _ => .error (.missingValue name)

/-! ### The constant block -/

/-- The size of the block: the last offset and its four bytes. -/
def pushSize (m : Manifest) : ℕ :=
  m.pushConstants.foldl (fun size p => max size ((p.offset.toNat + 4) % 2 ^ 32)) 0

/-- The value of a declared constant, of the declared type. -/
def constantBytes (values : Values) (p : PushConstant) : Except RuntimeError (List UInt8) := do
  values.representable p.name
  match (values.scalars p.name).bind (Scalar.bytes p.ty) with
  | some bits => .ok bits
  | none => .error (.missingValue p.name)

def writeConstant (values : Values) (out : List UInt8) (p : PushConstant) :
    Except RuntimeError (List UInt8) := do
  let bits ← constantBytes values p
  .ok (overwrite out p.offset.toNat bits)

def pushBytes (m : Manifest) (values : Values) : Except RuntimeError (List UInt8) :=
  m.pushConstants.foldlM (writeConstant values) (List.replicate (pushSize m) 0)

/-! ### The grid -/

/-- The product of the divisors of the flattened axes, which must fit 64 bits. -/
def flatTotal (values : Values) (total : ℕ) (f : FlatAxis) : Except RuntimeError ℕ := do
  let n ← values.extent (extentName f.axis)
  let product := total * divCeil n.toNat f.perIndex.toNat
  if product < 2 ^ 64 then .ok product else bad "flattened dispatch size overflows u64"

/-- Points of one workgroup: the lanes of a workgroup share one under the workgroup mapping. -/
def pointsPerGroup (m : Manifest) : ℕ :=
  match m.parallelMapping with
  | .workgroup => 1
  | .invocation => m.workgroup.1.toNat

def flatGroups (m : Manifest) (values : Values) : Except RuntimeError (List ℕ) := do
  let total ← m.flat.foldlM (flatTotal values) 1
  let groups := divCeil total (pointsPerGroup m)
  if groups < 2 ^ 32 then .ok [groups, 1, 1]
  else bad "flattened dispatch exceeds the u32 grid range"

/-- The workgroups of the axes from the `d`-th on. -/
def gridGroups (values : Values) : ℕ → List ℕ → List GridAxis → Except RuntimeError (List ℕ)
  | _, groups, [] => .ok groups
  | d, groups, g :: rest => do
    let n ← values.extent (extentName g.axis)
    gridGroups values (d + 1) (groups.set d (divCeil n.toNat g.perWorkgroup.toNat)) rest

/-- The workgroups to dispatch. -/
def groups (m : Manifest) (values : Values) : Except RuntimeError (List ℕ) :=
  if m.flat ≠ [] then flatGroups m values else gridGroups values 0 [1, 1, 1] m.dispatch

/-! ### The addressed bytes -/

def strideName (b : Binding) (d : ℕ) : String := b.name ++ "_nb" ++ toString d

/-- The stride units of a dimension: the first one counts blocks. -/
def units (b : Binding) (d n : ℕ) : ℕ := if d = 0 then divCeil n b.dtype.elementsPerUnit else n

/-- The bytes from the `d`-th dimension on, in 64-bit words that wrap. -/
def requiredFrom (b : Binding) (values : Values) :
    ℕ → ℕ → List (Option String) → Except RuntimeError (Option ℕ)
  | _, need, [] => .ok (some need)
  | _, _, none :: _ => .ok none
  | d, need, some axis :: rest => do
    let n ← values.extent (extentName axis)
    let stride ← values.extent (strideName b d)
    let term := (units b d n.toNat - 1) * stride.toNat % 2 ^ 64
    requiredFrom b values (d + 1) ((need + term) % 2 ^ 64) rest

/-- The bytes a dispatch can address in a binding, none when a dimension is not described. -/
def requiredBytes (b : Binding) (values : Values) : Except RuntimeError (Option ℕ) :=
  requiredFrom b values 0 b.dtype.sizeBytes b.extents

/-! ### The dispatch -/

/-- A bound argument, by the length of its buffer. -/
inductive Arg where
  | input (len : ℕ)
  | output (len : ℕ)
deriving DecidableEq, Repr

def Arg.len : Arg → ℕ
  | .input len => len
  | .output len => len

def checkDirection (bound : Binding × Arg) : Except RuntimeError Unit :=
  match bound.1.isWrite, bound.2 with
  | true, .input _ => .error (.accessMismatch bound.1.name "an output (Arg::output)")
  | false, .output _ => .error (.accessMismatch bound.1.name "an input (Arg::input)")
  | _, _ => .ok ()

def checkBound (values : Values) (bound : Binding × Arg) : Except RuntimeError Unit := do
  match ← requiredBytes bound.1 values with
  | none => .ok ()
  | some need =>
    if bound.2.len < need then .error (.bufferTooSmall bound.1.name need bound.2.len) else .ok ()

/-- What is checked and encoded before a device is touched. -/
def encodeDispatch (m : Manifest) (args : List Arg) (values : Values) :
    Except RuntimeError (List UInt8 × List ℕ) :=
  if args.length ≠ m.bindings.length then
    .error (.argCountMismatch m.bindings.length args.length)
  else do
    (m.bindings.zip args).forM checkDirection
    let groups ← groups m values
    let push ← pushBytes m values
    (m.bindings.zip args).forM (checkBound values)
    .ok (push, groups)

end Retrograd.Rir
