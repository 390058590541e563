import Mathlib.Data.Set.BooleanAlgebra
import Mathlib.Order.CompletePartialOrder
import Mathlib.Data.List.Pairwise
import Mathlib.Tactic.Common

/-!
# Passes that overlap

Passes over a memory of buffers. A pass computes what it writes from the buffers it **reads**.
Passes with no barrier between them overlap: each may see, cell by cell, what was there before or
what another one writes, and what is left in a cell is what some pass wrote to it. When no two of
them **conflict**, they leave what they would have left one after the other.
-/

namespace Retrograd.Logic

open List

variable {ι B C V : Type}

/-- What a pass reads, what it writes, and the cells it writes as a function of what it reads. -/
structure Kernel (B C V : Type) where
  reads : Set B
  writes : Set B
  output : (B → C → V) → B → C → Option V
  output_congr : ∀ m m', (∀ b ∈ reads, m b = m' b) → output m = output m'
  mem_writes : ∀ m b c v, output m b c = some v → b ∈ writes

namespace Kernel

/-- The memory a pass leaves when it runs alone. -/
def run (kernel : Kernel B C V) (m : B → C → V) : B → C → V :=
  fun b c => (kernel.output m b c).getD (m b c)

/-- One of two passes writes a buffer that the other one uses. -/
def Conflict (kernel kernel' : Kernel B C V) : Prop :=
  ∃ b, (b ∈ kernel.writes ∧ (b ∈ kernel'.reads ∨ b ∈ kernel'.writes)) ∨
    (b ∈ kernel.reads ∧ b ∈ kernel'.writes)

theorem Conflict.symm {kernel kernel' : Kernel B C V} (h : Conflict kernel kernel') :
    Conflict kernel' kernel := by
  obtain ⟨b, ⟨hwrite, hread | hwrite'⟩ | ⟨hread, hwrite⟩⟩ := h
  · exact ⟨b, .inr ⟨hread, hwrite⟩⟩
  · exact ⟨b, .inl ⟨hwrite', .inr hwrite⟩⟩
  · exact ⟨b, .inl ⟨hwrite, .inl hread⟩⟩

theorem run_of_not_mem {kernel : Kernel B C V} {b : B} (h : b ∉ kernel.writes) (m : B → C → V) :
    kernel.run m b = m b := by
  funext c
  rw [run]
  cases hout : kernel.output m b c with
  | none => rfl
  | some v => exact absurd (kernel.mem_writes m b c v hout) h

end Kernel

variable (kernel : ι → Kernel B C V)

/-- Passes one after the other. -/
def inOrder (order : List ι) (m : B → C → V) : B → C → V :=
  order.foldl (fun m i => (kernel i).run m) m

/-- Passes with no barrier between them take `m` to `m'`. -/
def Overlapped (group : List ι) (m m' : B → C → V) : Prop :=
  ∃ view : ι → B → C → V,
    (∀ i ∈ group, ∀ b c, view i b c = m b c ∨
      ∃ j ∈ group, (kernel j).output (view j) b c = some (view i b c)) ∧
    ∀ b c, (m' b c = m b c ∧ ∀ i ∈ group, (kernel i).output (view i) b c = none) ∨
      ∃ i ∈ group, (kernel i).output (view i) b c = some (m' b c)

/-- Passes that may overlap: none reads what it writes, and no two conflict. -/
structure ConflictFree (group : List ι) : Prop where
  own : ∀ i ∈ group, Disjoint (kernel i).reads (kernel i).writes
  pairwise : group.Pairwise fun i j => ¬ (kernel i).Conflict (kernel j)

variable {kernel} {group : List ι} {m m' : B → C → V}

namespace ConflictFree

theorem tail {i : ι} (h : ConflictFree kernel (i :: group)) : ConflictFree kernel group :=
  ⟨fun j hj => h.own j (mem_cons_of_mem _ hj), (pairwise_cons.mp h.pairwise).2⟩

theorem not_conflict (h : ConflictFree kernel group) {i j : ι} (hi : i ∈ group) (hj : j ∈ group)
    (hne : i ≠ j) : ¬ (kernel i).Conflict (kernel j) := by
  have : Std.Symm fun i j => ¬ (kernel i).Conflict (kernel j) :=
    ⟨fun _ _ hno hconflict => hno hconflict.symm⟩
  exact h.pairwise.forall hi hj hne

/-- No pass writes what a pass reads. -/
theorem not_mem_writes (h : ConflictFree kernel group) {i j : ι} (hi : i ∈ group)
    (hj : j ∈ group) {b : B} (hb : b ∈ (kernel i).reads) : b ∉ (kernel j).writes := by
  intro hwrite
  by_cases hij : i = j
  · subst hij
    exact Set.disjoint_left.mp (h.own i hi) hb hwrite
  · exact h.not_conflict hi hj hij ⟨b, .inr ⟨hb, hwrite⟩⟩

/-- Two passes that write one cell are one pass. -/
theorem eq_of_output (h : ConflictFree kernel group) {i j : ι} (hi : i ∈ group)
    (hj : j ∈ group) {b : B} {c : C} {v w : V} (hv : (kernel i).output m b c = some v)
    (hw : (kernel j).output m b c = some w) : v = w := by
  by_cases hij : i = j
  · subst hij
    exact Option.some.inj (hv.symm.trans hw)
  · exact absurd ⟨b, .inl ⟨(kernel i).mem_writes m b c v hv,
      .inr ((kernel j).mem_writes m b c w hw)⟩⟩ (h.not_conflict hi hj hij)

/-- What a pass sees of the buffers it reads is what was there before. -/
theorem output_view (h : ConflictFree kernel group) {view : ι → B → C → V}
    (hview : ∀ i ∈ group, ∀ b c, view i b c = m b c ∨
      ∃ j ∈ group, (kernel j).output (view j) b c = some (view i b c)) {i : ι} (hi : i ∈ group) :
    (kernel i).output (view i) = (kernel i).output m := by
  refine (kernel i).output_congr _ _ fun b hb => funext fun c => ?_
  rcases hview i hi b c with heq | ⟨j, hj, hout⟩
  · exact heq
  · exact absurd ((kernel j).mem_writes _ _ _ _ hout) (h.not_mem_writes hi hj hb)

/-- In order too, what is left in a cell was there or was written by a pass that saw the start. -/
theorem inOrder_apply (h : ConflictFree kernel group) (m : B → C → V) (b : B) (c : C) :
    (inOrder kernel group m b c = m b c ∧ ∀ i ∈ group, (kernel i).output m b c = none) ∨
      ∃ i ∈ group, (kernel i).output m b c = some (inOrder kernel group m b c) := by
  induction group generalizing m with
  | nil => exact .inl ⟨rfl, fun i hi => absurd hi not_mem_nil⟩
  | cons i group ih =>
    change (inOrder kernel group ((kernel i).run m) b c = m b c ∧ _) ∨ ∃ j ∈ i :: group,
      (kernel j).output m b c = some (inOrder kernel group ((kernel i).run m) b c)
    -- the first pass writes nothing that the others read
    have hsame : ∀ j ∈ group, (kernel j).output ((kernel i).run m) = (kernel j).output m :=
      fun j hj => (kernel j).output_congr _ _ fun b hb => Kernel.run_of_not_mem
        (h.not_mem_writes (mem_cons_of_mem _ hj) mem_cons_self hb) m
    rcases ih h.tail ((kernel i).run m) with ⟨heq, hnone⟩ | ⟨j, hj, hout⟩
    · rw [heq, Kernel.run]
      cases hfirst : (kernel i).output m b c with
      | none =>
        refine .inl ⟨rfl, forall_mem_cons.mpr ⟨hfirst, fun j hj => ?_⟩⟩
        rw [← hsame j hj]
        exact hnone j hj
      | some v => exact .inr ⟨i, mem_cons_self, hfirst⟩
    · rw [hsame j hj] at hout
      exact .inr ⟨j, mem_cons_of_mem _ hj, hout⟩

/-- **Passes without conflicts** leave what they leave in order, however they overlap. -/
theorem overlap_iff (h : ConflictFree kernel group) :
    Overlapped kernel group m m' ↔ m' = inOrder kernel group m := by
  constructor
  · rintro ⟨view, hview, hleft⟩
    funext b c
    rcases hleft b c with ⟨heq, hnone⟩ | ⟨i, hi, hout⟩
    · rcases h.inOrder_apply m b c with ⟨horder, -⟩ | ⟨j, hj, hout⟩
      · rw [heq, horder]
      · have hnothing := hnone j hj
        rw [h.output_view hview hj, hout] at hnothing
        cases hnothing
    · rw [h.output_view hview hi] at hout
      rcases h.inOrder_apply m b c with ⟨-, hnone⟩ | ⟨j, hj, hout'⟩
      · have hnothing := hnone i hi
        rw [hout] at hnothing
        cases hnothing
      · exact h.eq_of_output hi hj hout hout'
  · rintro rfl
    exact ⟨fun _ => m, fun i _ b c => .inl rfl, h.inOrder_apply m⟩

end ConflictFree

/-! ### Barriers -/

/-- Executions of a list of passes, each with a barrier before it or not. The passes since the last
barrier are pending and overlap. -/
def Executes (kernel : ι → Kernel B C V) : List ι → List (Bool × ι) → (B → C → V) →
    (B → C → V) → Prop
  | pending, [], m, m' => Overlapped kernel pending m m'
  | pending, (false, i) :: rest, m, m' => Executes kernel (pending ++ [i]) rest m m'
  | pending, (true, i) :: rest, m, m' =>
    ∃ middle, Overlapped kernel pending m middle ∧ Executes kernel [i] rest middle m'

/-- The passes between two barriers do not conflict. -/
def Separated (kernel : ι → Kernel B C V) : List ι → List (Bool × ι) → Prop
  | pending, [] => ConflictFree kernel pending
  | pending, (false, i) :: rest => Separated kernel (pending ++ [i]) rest
  | pending, (true, i) :: rest => ConflictFree kernel pending ∧ Separated kernel [i] rest

/-- **Behind enough barriers** the only execution is the one in order. -/
theorem executes_iff {pending : List ι} {commands : List (Bool × ι)}
    (h : Separated kernel pending commands) : Executes kernel pending commands m m' ↔
      m' = inOrder kernel (pending ++ commands.map Prod.snd) m := by
  induction commands generalizing pending m with
  | nil =>
    rw [map_nil, append_nil]
    exact ConflictFree.overlap_iff h
  | cons command rest ih =>
    obtain ⟨barrier, i⟩ := command
    cases barrier with
    | false =>
      rw [Executes, ih h, map_cons, append_assoc]
      rfl
    | true =>
      obtain ⟨hpending, hrest⟩ := h
      rw [Executes]
      constructor
      · rintro ⟨middle, hoverlap, hexec⟩
        rw [hpending.overlap_iff] at hoverlap
        rw [ih hrest, hoverlap] at hexec
        rw [hexec, inOrder, inOrder, inOrder, ← foldl_append]
        rfl
      · intro heq
        refine ⟨_, hpending.overlap_iff.mpr rfl, (ih hrest).mpr ?_⟩
        rw [heq, inOrder, inOrder, inOrder, ← foldl_append]
        rfl

end Retrograd.Logic
