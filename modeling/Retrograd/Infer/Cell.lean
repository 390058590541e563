import Retrograd.Infer.Request

/-!
# KV cells

What one position of a sequence slot holds: the token decoded there, the adapter it was decoded
under, and the **pool cell** that stores it. Two slots that share a cell through a copy on a
unified pool carry the same cell id; a host snapshot keeps the contents and forgets the cells.
-/

namespace Retrograd.Infer

open List

/-- The adapter of a step row: the context's own adapter set, the base model alone, or a
per-row adapter by the id its load returned. -/
inductive RowAdapter where
  | context
  | base
  | loaded (id : ℕ)
  deriving DecidableEq, Repr

/-- What a cell was computed under: the adapter that was active on the context, the base model,
or a per-row adapter. -/
inductive Tag where
  | context (active : Option String)
  | base
  | row (id : ℕ)
  deriving DecidableEq, Repr

/-- What a row of `adapter` decodes under while `active` is the context's adapter. -/
def RowAdapter.tag (adapter : RowAdapter) (active : Option String) : Tag :=
  match adapter with
  | .context => .context active
  | .base => .base
  | .loaded id => .row id

/-- One resident position of a slot. -/
structure Cell where
  token : Token
  tag : Tag
  /-- The pool cell that stores the position. -/
  id : ℕ
  deriving DecidableEq, Repr

/-- What a cell says about the context a later token is computed from. -/
def Cell.content (c : Cell) : Token × Tag := (c.token, c.tag)

/-- The contents of a slot's resident positions. -/
def contents (cells : List Cell) : List (Token × Tag) := cells.map Cell.content

/-- The contents of a prefix decoded under one tag. -/
def tagged (tag : Tag) (tokens : List Token) : List (Token × Tag) := tokens.map (·, tag)

/-- A host snapshot of one sequence: its size in bytes and the contents it restores. -/
structure Snapshot where
  size : ℕ
  contents : List (Token × Tag)
  deriving DecidableEq, Repr

@[simp] theorem contents_nil : contents [] = [] := rfl

@[simp] theorem contents_append (a b : List Cell) :
    contents (a ++ b) = contents a ++ contents b :=
  map_append

@[simp] theorem length_contents (cells : List Cell) : (contents cells).length = cells.length :=
  length_map ..

theorem contents_take (n : ℕ) (cells : List Cell) :
    contents (cells.take n) = (contents cells).take n :=
  map_take

@[simp] theorem tagged_append (tag : Tag) (a b : List Token) :
    tagged tag (a ++ b) = tagged tag a ++ tagged tag b :=
  map_append

@[simp] theorem length_tagged (tag : Tag) (tokens : List Token) :
    (tagged tag tokens).length = tokens.length :=
  length_map ..

theorem tagged_take (tag : Tag) (n : ℕ) (tokens : List Token) :
    tagged tag (tokens.take n) = (tagged tag tokens).take n :=
  map_take

end Retrograd.Infer
