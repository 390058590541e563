import Mathlib.Algebra.BigOperators.Group.List.Basic

/-!
# Entries sent to the first match

A list of boxes, each under a key, and a list of entries, each addressed by a key: an entry goes
to the **first box** under its key, and to none when no box has it. `deliver` is that loop.
A box's key never changes, so where an entry goes does not depend on what was delivered before:
`getElem?_deliver` reads one box off as the entries sent to it, in order, put in one after the
other. Keys need not be distinct, which is what makes the first match worth naming.
-/

namespace Retrograd.Logic

open List

variable {α β κ : Type*}

/-- Changes the first element of a list that passes a test. -/
def modifyFirst (p : β → Bool) (f : β → β) : List β → List β
  | [] => []
  | b :: rest => if p b then f b :: rest else b :: modifyFirst p f rest

@[simp]
theorem modifyFirst_nil {p : β → Bool} {f : β → β} : modifyFirst p f [] = [] :=
  rfl

theorem map_modifyFirst {γ : Type*} {p : β → Bool} {f : β → β} {g : β → γ}
    (h : ∀ b, g (f b) = g b) (boxes : List β) :
    (modifyFirst p f boxes).map g = boxes.map g := by
  induction boxes with
  | nil => rfl
  | cons b rest ih =>
    unfold modifyFirst
    split
    · simp [h]
    · simp [ih]

theorem getElem?_modifyFirst {p : β → Bool} {f : β → β} (boxes : List β) (i : ℕ) :
    (modifyFirst p f boxes)[i]? =
      boxes[i]?.map fun b => if boxes.findIdx? p = some i then f b else b := by
  induction boxes generalizing i with
  | nil => rfl
  | cons b rest ih =>
    unfold modifyFirst
    by_cases hb : p b
    · cases i with
      | zero => simp [hb, findIdx?_cons]
      | succ i => simp [hb, findIdx?_cons]
    · cases i with
      | zero => simp [hb, findIdx?_cons]
      | succ i => simp [hb, findIdx?_cons, ih]

variable [DecidableEq κ] (key : β → κ) (push : β → α → β)

/-- Puts one entry into the first box under its key. -/
def deliverOne (boxes : List β) (entry : κ × α) : List β :=
  modifyFirst (fun b => key b = entry.1) (fun b => push b entry.2) boxes

/-- Puts entries one after the other. -/
def deliver (boxes : List β) (entries : List (κ × α)) : List β :=
  entries.foldl (deliverOne key push) boxes

/-- Where an entry under key `k` goes. -/
def boxOf (boxes : List β) (k : κ) : Option ℕ :=
  boxes.findIdx? fun b => key b = k

/-- The entries that go to box `i`. -/
def sentTo (boxes : List β) (i : ℕ) (entries : List (κ × α)) : List α :=
  (entries.filter fun entry => boxOf key boxes entry.1 = some i).map Prod.snd

variable {key push}

theorem boxOf_congr {boxes boxes' : List β} (h : boxes'.map key = boxes.map key) (k : κ) :
    boxOf key boxes' k = boxOf key boxes k := by
  have hmap : ∀ l : List β, boxOf key l k = (l.map key).findIdx? fun k' => k' = k := fun l => by
    simp [boxOf, findIdx?_map, Function.comp_def]
  rw [hmap, hmap, h]

variable (hkey : ∀ b a, key (push b a) = key b)
include hkey

theorem map_deliverOne (boxes : List β) (entry : κ × α) :
    (deliverOne key push boxes entry).map key = boxes.map key :=
  map_modifyFirst (fun b => hkey b entry.2) boxes

theorem map_deliver (boxes : List β) (entries : List (κ × α)) :
    (deliver key push boxes entries).map key = boxes.map key := by
  induction entries generalizing boxes with
  | nil => rfl
  | cons entry rest ih => exact (ih _).trans (map_deliverOne hkey boxes entry)

/-- **What a box holds** after every entry was put: the entries sent to it, in order. -/
theorem getElem?_deliver (boxes : List β) (entries : List (κ × α)) (i : ℕ) :
    (deliver key push boxes entries)[i]? =
      boxes[i]?.map fun b => (sentTo key boxes i entries).foldl push b := by
  induction entries generalizing boxes with
  | nil => simp [deliver, sentTo]
  | cons entry rest ih =>
    have hsent : sentTo key (deliverOne key push boxes entry) i rest =
        sentTo key boxes i rest := by
      simp only [sentTo, boxOf_congr (map_deliverOne hkey boxes entry)]
    have hbox : (deliverOne key push boxes entry)[i]? =
        boxes[i]?.map fun b => if boxOf key boxes entry.1 = some i then push b entry.2 else b :=
      getElem?_modifyFirst boxes i
    calc (deliver key push boxes (entry :: rest))[i]?
        = (deliverOne key push boxes entry)[i]?.map fun b =>
            (sentTo key boxes i rest).foldl push b := by rw [← hsent]; exact ih _
      _ = _ := by
        rw [hbox, Option.map_map]
        congr 1
        funext b
        by_cases h : boxOf key boxes entry.1 = some i <;> simp [sentTo, h]

omit hkey in
/-- An entry goes to the first box under its key. -/
theorem boxOf_eq_some {boxes : List β} {k : κ} {i : ℕ} :
    boxOf key boxes k = some i ↔ (∃ b, boxes[i]? = some b ∧ key b = k) ∧
      ∀ j < i, ∀ b, boxes[j]? = some b → key b ≠ k := by
  simp only [boxOf, findIdx?_eq_some_iff_getElem, decide_eq_true_eq,
    List.getElem?_eq_some_iff]
  constructor
  · rintro ⟨h, hk, hbefore⟩
    exact ⟨⟨_, ⟨h, rfl⟩, hk⟩, fun j hj b ⟨_, hb⟩ => hb ▸ hbefore j hj⟩
  · rintro ⟨⟨b, ⟨h, rfl⟩, hk⟩, hbefore⟩
    exact ⟨h, hk, fun j hj => hbefore j hj _ ⟨Nat.lt_trans hj h, rfl⟩⟩

variable (key) in
omit hkey in
/-- A key that has a box is sent to it or to an earlier one. -/
theorem exists_boxOf {boxes : List β} {q : ℕ} {b : β} (h : boxes[q]? = some b) :
    ∃ p ≤ q, boxOf key boxes (key b) = some p := by
  obtain ⟨hlt, rfl⟩ := List.getElem?_eq_some_iff.mp h
  have hsome : (boxOf key boxes (key boxes[q])).isSome := by
    rw [boxOf, findIdx?_isSome]
    exact any_eq_true.mpr ⟨_, getElem_mem hlt, by simp⟩
  obtain ⟨p, hp⟩ := Option.isSome_iff_exists.mp hsome
  refine ⟨p, Nat.not_lt.mp fun hqp => ?_, hp⟩
  exact (boxOf_eq_some.mp hp).2 q hqp _ h rfl

/-! ### Nothing is lost and nothing counted twice -/

section Weight

variable {M : Type*} [AddCommMonoid M] {weight : β → M} {load : α → M} {Sound : β → Prop}
  (hsound : ∀ b a, Sound b → Sound (push b a))
  (hweight : ∀ b a, Sound b → weight (push b a) = weight b + load a)

omit hkey in
include hweight in
private theorem sum_deliverOne {boxes : List β} (hboxes : ∀ b ∈ boxes, Sound b)
    (entry : κ × α) :
    ((deliverOne key push boxes entry).map weight).sum =
      (boxes.map weight).sum + if (boxOf key boxes entry.1).isSome then load entry.2 else 0 := by
  unfold deliverOne boxOf
  induction boxes with
  | nil => simp
  | cons b rest ih =>
    rw [forall_mem_cons] at hboxes
    unfold modifyFirst
    by_cases hb : key b = entry.1
    · simp [hb, hweight b entry.2 hboxes.1, findIdx?_cons, add_right_comm]
    · simp [hb, ih hboxes.2, findIdx?_cons, add_assoc]

omit hkey in
include hsound in
private theorem sound_deliverOne {boxes : List β} (hboxes : ∀ b ∈ boxes, Sound b)
    (entry : κ × α) : ∀ b ∈ deliverOne key push boxes entry, Sound b := by
  unfold deliverOne
  induction boxes with
  | nil => simp
  | cons b rest ih =>
    rw [forall_mem_cons] at hboxes
    unfold modifyFirst
    split
    · exact forall_mem_cons.mpr ⟨hsound b entry.2 hboxes.1, hboxes.2⟩
    · exact forall_mem_cons.mpr ⟨hboxes.1, ih hboxes.2⟩

include hsound hweight in
/-- The boxes together weigh what they did, and what found a box. -/
theorem sum_deliver {boxes : List β} (hboxes : ∀ b ∈ boxes, Sound b) (entries : List (κ × α)) :
    ((deliver key push boxes entries).map weight).sum = (boxes.map weight).sum +
      ((entries.filter fun entry => (boxOf key boxes entry.1).isSome).map
        fun entry => load entry.2).sum := by
  induction entries generalizing boxes with
  | nil => simp [deliver]
  | cons entry rest ih =>
    calc ((deliver key push boxes (entry :: rest)).map weight).sum
        = ((deliverOne key push boxes entry).map weight).sum +
            ((rest.filter fun entry => (boxOf key boxes entry.1).isSome).map
              fun entry => load entry.2).sum := by
          simp only [← boxOf_congr (map_deliverOne hkey boxes entry)]
          exact ih (sound_deliverOne hsound hboxes entry)
      _ = _ := by
          rw [sum_deliverOne hweight hboxes entry, filter_cons, add_assoc]
          split <;> simp

end Weight

end Retrograd.Logic
