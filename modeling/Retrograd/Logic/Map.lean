import Mathlib.Data.List.AList
import Mathlib.Data.List.Sort

/-!
# Finite maps

A finite map is one of Mathlib's association lists with distinct keys. This file gives it the
operations of a program's map, and what a verified program asks of them: the values in **key
order** (a `BTreeMap` iteration), the sub-map of the entries that satisfy a predicate
(`retain`), and the number of keys that map to one value, which is what a reference count
counts.
-/

namespace Retrograd.Logic

open List Option

/-- A finite map from keys to values. -/
def Map (κ ν : Type) := AList fun _ : κ => ν

namespace Map

variable {κ ν : Type}

/-- The map with no entry. -/
def empty : Map κ ν := (∅ : AList fun _ : κ => ν)

instance : EmptyCollection (Map κ ν) := ⟨empty⟩

instance : Inhabited (Map κ ν) := ⟨empty⟩

/-- The entries, newest first. -/
def entries (m : Map κ ν) : List (Σ _ : κ, ν) := AList.entries m

/-- The number of entries. -/
def size (m : Map κ ν) : ℕ := m.entries.length

@[simp] theorem entries_empty : (∅ : Map κ ν).entries = [] := rfl

theorem entries_nodup (m : Map κ ν) : m.entries.Nodup :=
  List.NodupKeys.nodup (AList.nodupKeys m)

variable [DecidableEq κ]

/-- The value of a key. -/
def get (m : Map κ ν) (a : κ) : Option ν := AList.lookup a m

/-- Sets the value of a key. -/
def insert (m : Map κ ν) (a : κ) (b : ν) : Map κ ν := AList.insert a b m

/-- Removes a key. -/
def erase (m : Map κ ν) (a : κ) : Map κ ν := AList.erase a m

variable {m : Map κ ν} {a : κ} {b : ν}

theorem mem_entries : (⟨a, b⟩ : Σ _ : κ, ν) ∈ m.entries ↔ m.get a = some b :=
  AList.mem_lookup_iff.symm

@[simp] theorem get_empty (a : κ) : (∅ : Map κ ν).get a = none := rfl

@[simp] theorem get_insert_self (m : Map κ ν) (a : κ) (b : ν) : (m.insert a b).get a = some b :=
  AList.lookup_insert m

theorem get_insert_of_ne (m : Map κ ν) {a a' : κ} (b : ν) (h : a' ≠ a) :
    (m.insert a b).get a' = m.get a' :=
  AList.lookup_insert_ne h

theorem get_insert (m : Map κ ν) (a a' : κ) (b : ν) :
    (m.insert a b).get a' = if a' = a then some b else m.get a' := by
  split
  · subst a'
    exact get_insert_self m a b
  · exact get_insert_of_ne m b ‹_›

@[simp] theorem get_erase_self (m : Map κ ν) (a : κ) : (m.erase a).get a = none :=
  AList.lookup_erase a m

theorem get_erase_of_ne (m : Map κ ν) {a a' : κ} (h : a' ≠ a) :
    (m.erase a).get a' = m.get a' :=
  AList.lookup_erase_ne h

theorem get_erase (m : Map κ ν) (a a' : κ) :
    (m.erase a).get a' = if a' = a then none else m.get a' := by
  split
  · subst a'
    exact get_erase_self m a
  · exact get_erase_of_ne m ‹_›

theorem entries_eq_nil : m.entries = [] ↔ ∀ a, m.get a = none := by
  rw [eq_nil_iff_forall_not_mem]
  constructor
  · intro h a
    by_contra hne
    obtain ⟨b, hb⟩ := ne_none_iff_exists'.mp hne
    exact h _ (mem_entries.mpr hb)
  · rintro h ⟨a, b⟩ hmem
    rw [mem_entries, h a] at hmem
    cases hmem

theorem entries_insert (h : m.get a = none) : (m.insert a b).entries = ⟨a, b⟩ :: m.entries :=
  AList.entries_insert_of_notMem (AList.lookup_eq_none.mp h)

/-- Removing an entry takes exactly that entry out. -/
theorem entries_perm_erase (h : m.get a = some b) :
    m.entries.Perm (⟨a, b⟩ :: (m.erase a).entries) := by
  have hkeys : a ∈ m.entries.keys :=
    AList.mem_keys.mp (AList.lookup_isSome.mp (isSome_of_mem h))
  obtain ⟨c, l₁, l₂, -, hl, herase⟩ := exists_of_kerase hkeys
  have hc : m.get a = some c := mem_entries.mp (by rw [hl]; simp)
  obtain rfl : c = b := by simpa [h] using hc.symm
  rw [hl, show (m.erase a).entries = l₁ ++ l₂ from herase]
  exact perm_middle

theorem size_erase (h : m.get a = some b) : m.size = (m.erase a).size + 1 :=
  (entries_perm_erase h).length_eq

/-! ### Values in key order -/

/-- The values in the order of their keys. -/
def values [LinearOrder κ] (m : Map κ ν) : List ν :=
  (m.entries.insertionSort fun a b => a.1 ≤ b.1).map Sigma.snd

theorem mem_values [LinearOrder κ] : b ∈ m.values ↔ ∃ a, m.get a = some b := by
  simp only [values, List.mem_map, mem_insertionSort]
  constructor
  · rintro ⟨⟨a, b⟩, h, rfl⟩
    exact ⟨a, mem_entries.mp h⟩
  · rintro ⟨a, h⟩
    exact ⟨⟨a, b⟩, mem_entries.mpr h, rfl⟩

/-- A map whose distinct keys have distinct values lists every value once. -/
theorem values_nodup [LinearOrder κ] (h : ∀ a a' b, m.get a = some b → m.get a' = some b → a = a') :
    m.values.Nodup := by
  rw [values, ((perm_insertionSort _ m.entries).map _).nodup_iff]
  refine m.entries_nodup.map_on ?_
  rintro ⟨a, b⟩ hx ⟨a', b'⟩ hy (rfl : b = b')
  rw [h a a' b (mem_entries.mp hx) (mem_entries.mp hy)]

/-! ### Filtering -/

/-- The entries that satisfy `p`. -/
def filter (p : κ → ν → Bool) (m : Map κ ν) : Map κ ν :=
  (⟨m.entries.filter fun e => p e.1 e.2, (AList.nodupKeys m).sublist List.filter_sublist⟩ :
    AList fun _ : κ => ν)

theorem get_filter {p : κ → ν → Bool} : (m.filter p).get a = some b ↔ m.get a = some b ∧ p a b := by
  rw [← mem_entries, ← mem_entries]
  exact mem_filter

/-! ### Counting the keys of a value -/

variable [DecidableEq ν]

/-- How many keys map to `b`. -/
def count (m : Map κ ν) (b : ν) : ℕ := m.entries.countP fun e => e.2 = b

omit [DecidableEq κ] in
@[simp] theorem count_empty (b : ν) : (∅ : Map κ ν).count b = 0 := rfl

theorem count_pos : 0 < m.count b ↔ ∃ a, m.get a = some b := by
  rw [count, countP_pos_iff]
  constructor
  · rintro ⟨⟨a, c⟩, hmem, hc⟩
    obtain rfl : c = b := by simpa using hc
    exact ⟨a, mem_entries.mp hmem⟩
  · rintro ⟨a, h⟩
    exact ⟨⟨a, b⟩, mem_entries.mpr h, by simp⟩

theorem count_insert (h : m.get a = none) (c : ν) :
    (m.insert a b).count c = m.count c + if b = c then 1 else 0 := by
  rw [count, entries_insert h, countP_cons]
  simp [count]

theorem count_erase (h : m.get a = some b) (c : ν) :
    m.count c = (m.erase a).count c + if b = c then 1 else 0 := by
  rw [count, (entries_perm_erase h).countP_eq, countP_cons]
  simp [count]

theorem count_filter {p : κ → ν → Bool} (h : ∀ a, m.get a = some b → p a b) :
    (m.filter p).count b = m.count b := by
  rw [count, show (m.filter p).entries = m.entries.filter fun e => p e.1 e.2 from rfl,
    countP_filter, count]
  refine countP_congr ?_
  rintro ⟨a, c⟩ hmem
  simp only [Bool.and_eq_true, decide_eq_true_eq, and_iff_left_iff_imp]
  rintro rfl
  exact h a (mem_entries.mp hmem)

end Map

end Retrograd.Logic
