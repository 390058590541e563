import Retrograd.Training.Config

/-!
# Prompt draws

Which prompt a draw takes. The draws of a run are numbered by one cursor; in sequential order
a draw takes the prompt at its number modulo the size of the file, in shuffled order each full
pass over the file goes through a seeded permutation of it, built once for the pass.
-/

namespace Retrograd.Training

/-- SplitMix64: the next state and the value drawn from it. -/
def splitmix64 (state : UInt64) : UInt64 × UInt64 :=
  let state := state + 0x9e3779b97f4a7c15
  let value := (state ^^^ (state >>> 30)) * 0xbf58476d1ce4e5b9
  let value := (value ^^^ (value >>> 27)) * 0x94d049bb133111eb
  (state, value ^^^ (value >>> 31))

/-- `slice::swap`. -/
def swap {α : Type} (l : List α) (i j : ℕ) : List α :=
  match l[i]?, l[j]? with
  | some a, some b => (l.set i b).set j a
  | _, _ => l

/-- One step of the Fisher-Yates shuffle: position `upper` trades places with one at or below
it. -/
def shuffleStep (acc : List ℕ × UInt64) (upper : ℕ) : List ℕ × UInt64 :=
  let (state, value) := splitmix64 acc.2
  (swap acc.1 upper (value.toNat % (upper + 1)), state)

/-- Deterministic Fisher-Yates permutation of `0..len`. -/
def shuffledIndices (len : ℕ) (seed : UInt64) : List ℕ :=
  ((List.range' 1 (len - 1)).reverse.foldl shuffleStep (List.range len, seed)).1

/-- Seed of the permutation covering one full pass over the prompt file. -/
def passSeed (seed : ℕ) (pass : ℕ) : UInt64 :=
  (UInt64.ofNat seed * (0x9e3779b97f4a7c15 : UInt64)) ^^^ ((UInt64.ofNat pass + 1) <<< 1)

/-- Prompt draws with the current pass's permutation held between calls. -/
structure PromptDraws where
  order : PromptOrder
  len : ℕ
  seed : ℕ
  pass : Option ℕ
  permutation : List ℕ

namespace PromptDraws

def new (order : PromptOrder) (len seed : ℕ) : PromptDraws := ⟨order, len, seed, none, []⟩

/-- The draws with the permutation of a pass in place. -/
def enter (draws : PromptDraws) (pass : ℕ) : PromptDraws :=
  if draws.pass ≠ some pass then
    { draws with
      permutation := shuffledIndices draws.len (passSeed draws.seed pass)
      pass := some pass }
  else draws

/-- The prompt of a draw, and the draws with the pass the draw belongs to in place. An empty
file or a position outside the permutation ends the process. -/
def slot (draws : PromptDraws) (offset : ℕ) : Except Error (ℕ × PromptDraws) :=
  if draws.len = 0 then .error (.panic "remainder by zero")
  else
    match draws.order with
    | .sequential => .ok (offset % draws.len, draws)
    | .shuffled =>
      let draws := draws.enter (offset / draws.len)
      match draws.permutation[offset % draws.len]? with
      | some slot => .ok (slot, draws)
      | none => .error (.panic "index out of bounds")

end PromptDraws

end Retrograd.Training
