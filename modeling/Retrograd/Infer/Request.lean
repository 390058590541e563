import Mathlib.Data.List.Sort
import Mathlib.Algebra.Ring.Nat
import Mathlib.Algebra.Ring.Int.Defs

/-!
# Requests, events and sampling parameters

What crosses the scheduler's boundary: a `Request` is a prompt with one `SamplingParams` per
completion, and its answer is a sequence of `Event`s. The checks a request passes before it is
queued (`Request.validate`) and the orders a lockstep wave is sorted by (`samplingCmp`,
`canonicalCmp`) are stated on the parameters as they are stored: a 32-bit float is its **bit
pattern**, so the IEEE total order the source sorts by is the integer order of `F32.totalKey`.
-/

namespace Retrograd.Infer

/-- A vocabulary index. -/
abbrev Token := ℤ

/-- A byte string; text is its UTF-8 encoding. -/
abbrev Bytes := List UInt8

/-! ### Single-precision floats -/

/-- A single-precision float, by its bit pattern. -/
structure F32 where
  bits : UInt32
  deriving DecidableEq, Repr

namespace F32

/-- Neither infinite nor a NaN: the exponent field is not all ones. -/
def isFinite (x : F32) : Bool := (x.bits.toNat / 2 ^ 23) % 2 ^ 8 != 255

/-- The place of a float in the IEEE total order (`f32::total_cmp`): positive patterns in
order, negative ones mirrored below them. -/
def totalKey (x : F32) : ℤ :=
  if x.bits.toNat < 2 ^ 31 then x.bits.toNat else 2 ^ 31 - 1 - (x.bits.toNat : ℤ)

/-- `f32::total_cmp`. -/
def totalCmp (x y : F32) : Ordering := compare x.totalKey y.totalKey

/-- The bit pattern of `1.0` in the total order. -/
def oneKey : ℤ := 0x3f800000

/-- The bit pattern of positive infinity in the total order; the patterns above it are NaNs. -/
def infKey : ℤ := 0x7f800000

/-- `x > 0.0`: above both zeros and not a NaN. -/
def gtZero (x : F32) : Bool := 0 < x.totalKey && x.totalKey ≤ infKey

/-- `x >= 0.0`; the negative zero has key `-1`. -/
def geZero (x : F32) : Bool := -1 ≤ x.totalKey && x.totalKey ≤ infKey

/-- `x <= 1.0` for an `x` that is not a NaN. -/
def leOne (x : F32) : Bool := x.totalKey ≤ oneKey

end F32

/-! ### Requests -/

/-- The serving sampling parameters of one completion. -/
structure SamplingParams where
  temperature : F32
  topP : F32
  maxNewTokens : ℕ
  seed : ℕ
  topK : ℤ
  minP : F32
  repeatPenalty : F32
  frequencyPenalty : F32
  presencePenalty : F32
  penaltyWindow : ℕ
  logitBias : List (Token × F32)
  grammarGbnf : Option String
  deriving DecidableEq, Repr

/-- What a request asks the prefix tree to keep: the key its first completion's sequence is
pinned under, and the key of the earlier retention it replaces. -/
structure Retention where
  key : String
  release : Option String
  deriving DecidableEq, Repr

/-- One generation request: a prompt and one sampling entry per completion. -/
structure Request where
  prompt : List Token
  sampling : List SamplingParams
  stop : List Bytes
  nTopLogprobs : ℕ
  logprobs : Bool
  adapter : Option String
  unparseSpecial : Bool
  retention : Option Retention
  deriving DecidableEq, Repr

/-- The number of completions a request asks for. -/
def Request.n (r : Request) : ℕ := r.sampling.length

/-- What the policy can refuse or report. The engine's and the core facade's own errors are
carried as their message. -/
inductive InferError where
  | invalidArgument (message : String)
  | overflow (message : String)
  | kvFull (needed available : ℕ)
  | queueFull (capacity : ℕ)
  | cancelled
  | backend (message : String)
  | core (message : String)
  | failed (message : String)
  deriving DecidableEq, Repr

/-- The copy of an error that is broadcast: the two carried error types are flattened into
`failed`, every structured variant is kept. -/
def InferError.clone : InferError → InferError
  | .backend message => .failed message
  | .core message => .failed message
  | error => error

namespace Request

/-- The first check of `validate` a request fails, if any, as the message it is refused with. -/
def refusal (r : Request) : Option String :=
  if r.prompt.isEmpty then some "a request requires a non-empty prompt"
  else if r.sampling.isEmpty then some "a request requires at least one sampling entry"
  else if r.sampling.any fun p => p.maxNewTokens == 0 then
    some "max_new_tokens must be greater than zero"
  else if r.sampling.any fun p => !(p.temperature.isFinite && p.temperature.gtZero) then
    some "temperature must be finite and greater than zero"
  else if r.sampling.any fun p => !(p.topP.gtZero && p.topP.leOne) then
    some "top_p must be in (0, 1]"
  else if r.sampling.any fun p =>
      !p.minP.isFinite || !p.minP.geZero || !p.minP.leOne
        || !p.repeatPenalty.isFinite || !p.repeatPenalty.gtZero
        || !p.frequencyPenalty.isFinite || !p.presencePenalty.isFinite
        || p.logitBias.any fun b => !b.2.isFinite then
    some ("min_p must be in [0, 1], repeat_penalty finite and > 0, frequency/presence " ++
      "penalties and logit biases finite")
  else if r.sampling.any fun p => p.logitBias.length > 4096 then
    some "logit_bias takes at most 4096 entries"
  else if r.stop.any List.isEmpty then some "stop strings must not be empty"
  else if r.adapter = some "" then some "an adapter name must not be empty"
  else if r.retention.any fun retention => retention.key = "" then
    some "a retention key must not be empty"
  else none

/-- The cheap checks that need no backend. -/
def validate (r : Request) : Except InferError Unit :=
  match r.refusal with
  | some message => .error (.invalidArgument message)
  | none => .ok ()

theorem prompt_ne_nil_of_validate {r : Request} (h : r.validate = .ok ()) : r.prompt ≠ [] := by
  rintro hnil
  simp [validate, refusal, hnil] at h

theorem sampling_ne_nil_of_validate {r : Request} (h : r.validate = .ok ()) :
    r.sampling ≠ [] := by
  rintro hnil
  by_cases hp : r.prompt = [] <;> simp [validate, refusal, hnil, hp] at h

theorem n_pos_of_validate {r : Request} (h : r.validate = .ok ()) : 0 < r.n :=
  List.length_pos_iff.mpr (sampling_ne_nil_of_validate h)

theorem maxNewTokens_pos_of_validate {r : Request} (h : r.validate = .ok ())
    {p : SamplingParams} (hp : p ∈ r.sampling) : 0 < p.maxNewTokens := by
  have hprompt := prompt_ne_nil_of_validate h
  have hsampling := sampling_ne_nil_of_validate h
  by_contra hzero
  have hany : (r.sampling.any fun p => p.maxNewTokens == 0) = true :=
    List.any_eq_true.mpr ⟨p, hp, by simpa using hzero⟩
  simp [validate, refusal, hprompt, hsampling, hany] at h

end Request

/-! ### The orders a wave is sorted by -/

/-- The order of sampling parameters: seed first, then every other field. -/
def samplingCmp (a b : SamplingParams) : Ordering :=
  compare a.seed b.seed
    |>.then (compare a.maxNewTokens b.maxNewTokens)
    |>.then (a.temperature.totalCmp b.temperature)
    |>.then (a.topP.totalCmp b.topP)
    |>.then (compare a.topK b.topK)
    |>.then (a.minP.totalCmp b.minP)
    |>.then (a.repeatPenalty.totalCmp b.repeatPenalty)
    |>.then (a.frequencyPenalty.totalCmp b.frequencyPenalty)
    |>.then (a.presencePenalty.totalCmp b.presencePenalty)
    |>.then (compare a.penaltyWindow b.penaltyWindow)
    |>.then (List.compareLex (fun x y => compare x.1 y.1 |>.then (compare x.2.bits y.2.bits))
      a.logitBias b.logitBias)
    |>.then (match a.grammarGbnf, b.grammarGbnf with
      | none, none => .eq
      | none, some _ => .lt
      | some _, none => .gt
      | some g, some g' => compare g g')

/-- The canonical order of a lockstep wave: prompt length, prompt tokens, then the sampling
parameters of the first completion. -/
def canonicalCmp (a b : Request) : Ordering :=
  compare a.prompt.length b.prompt.length
    |>.then (List.compareLex compare a.prompt b.prompt)
    |>.then (match a.sampling.head?, b.sampling.head? with
      | some sa, some sb => samplingCmp sa sb
      | _, _ => .eq)

/-- Inserts before the first element that is strictly greater. -/
def insertBy {α : Type} (cmp : α → α → Ordering) (a : α) : List α → List α
  | [] => [a]
  | b :: l => if cmp a b = .gt then b :: insertBy cmp a l else a :: b :: l

/-- The stable sort (`slice::sort_by`): elements that compare equal keep their order. -/
def sortBy {α : Type} (cmp : α → α → Ordering) (l : List α) : List α :=
  l.foldr (insertBy cmp) []

theorem insertBy_perm {α : Type} (cmp : α → α → Ordering) (a : α) (l : List α) :
    (insertBy cmp a l).Perm (a :: l) := by
  induction l with
  | nil => exact List.Perm.refl _
  | cons b l ih =>
    unfold insertBy
    split
    · exact (ih.cons b).trans (List.Perm.swap a b l)
    · exact List.Perm.refl _

theorem sortBy_perm {α : Type} (cmp : α → α → Ordering) (l : List α) :
    (sortBy cmp l).Perm l := by
  induction l with
  | nil => exact List.Perm.refl _
  | cons a l ih => exact (insertBy_perm cmp a (sortBy cmp l)).trans (ih.cons a)

/-! ### Events -/

/-- One top-logprob entry of a sampled position. -/
structure TopLogprob where
  token : Token
  logprob : F32
  piece : Bytes
  deriving DecidableEq, Repr

/-- One sampled token and its incremental text. -/
structure TokenEvent where
  index : ℕ
  token : Token
  logprob : F32
  sampledLogprob : Option F32
  forced : Bool
  text : Bytes
  piece : Bytes
  topLogprobs : List TopLogprob
  deriving DecidableEq, Repr

/-- Why a completion ended. -/
inductive FinishReason where
  | eog
  | stop
  | maxTokens
  | contextFull
  | cancelled
  deriving DecidableEq, Repr

/-- What a request's stream carries: sampled tokens, the end of a completion, or the error the
request failed with. -/
inductive Event where
  | token (event : TokenEvent)
  | done (index : ℕ) (reason : FinishReason) (text : Bytes) (cachedTokens : ℕ)
  | error (error : InferError)
  deriving DecidableEq, Repr

end Retrograd.Infer
