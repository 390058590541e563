import Mathlib.Data.List.Infix
import Mathlib.Data.List.Range

/-!
# Numbered logs

A log whose entries carry **consecutive numbers from one**, in order: what a reader that knows a
number has still to read (`after`) is then a suffix of the log, at an exact place. `through` cuts a
list at the first entry of a kind, which it keeps, and `lastOf` keeps the end of a list, as a
ring of a fixed capacity does.
-/

namespace Retrograd.Logic

open List

variable {α : Type}

theorem take_eq_of_isPrefix {log log' : List α} (h : log <+: log') {count : ℕ}
    (hcount : count ≤ log.length) : log'.take count = log.take count := by
  obtain ⟨rest, rfl⟩ := h
  exact take_append_of_le_length hcount

section Numbered

variable (key : α → ℕ)

/-- The entries are numbered from one, in order. -/
def Numbered (log : List α) : Prop := log.map key = List.range' 1 log.length

/-- What is left to read after `since`. -/
def after (since : ℕ) (log : List α) : List α := log.filter fun entry => since < key entry

variable {key} {log : List α} {since : ℕ}

theorem Numbered.nil : Numbered key [] := rfl

theorem Numbered.key_getElem (h : Numbered key log) {index : ℕ} (hindex : index < log.length) :
    key log[index] = index + 1 := by
  have hmap : (log.map key)[index]? = (List.range' 1 log.length)[index]? := by
    rw [show log.map key = List.range' 1 log.length from h]
  simpa [hindex, Nat.add_comm] using hmap

theorem Numbered.push (h : Numbered key log) {entry : α} (hkey : key entry = log.length + 1) :
    Numbered key (log ++ [entry]) := by
  have hlog : log.map key = List.range' 1 log.length := h
  simp [Numbered, hlog, hkey, range'_concat, Nat.add_comm]

theorem Numbered.take (h : Numbered key log) (count : ℕ) : Numbered key (log.take count) := by
  refine ext_getElem (by simp) fun index hindex _ => ?_
  have hlog : index < log.length := by simp at hindex; omega
  simp [h.key_getElem hlog, Nat.add_comm]

/-- The numbers are places, so a reader that knows one has a suffix to read. -/
theorem Numbered.after_eq_drop (h : Numbered key log) (since : ℕ) :
    after key since log = log.drop since := by
  induction log using List.reverseRecOn with
  | nil => simp [after]
  | append_singleton log entry ih =>
    have hkey : key entry = log.length + 1 := by
      have hlast : log.length < (log ++ [entry]).length := by simp
      simpa using h.key_getElem hlast
    have hlog : Numbered key log := by simpa using h.take log.length
    rw [after, filter_append, ← after, ih hlog]
    by_cases hsince : since < key entry
    · rw [filter_cons_of_pos (by simpa), filter_nil,
        drop_append_of_le_length (by omega)]
    · rw [filter_cons_of_neg (by simpa using hsince), filter_nil, append_nil,
        drop_eq_nil_of_le (by omega), drop_eq_nil_of_le (by simp; omega)]

/-- What comes after `low` up to `high`, cut at any place between. -/
theorem Numbered.after_take_append (h : Numbered key log) {low middle high : ℕ}
    (hlow : low ≤ middle) (hhigh : middle ≤ high) :
    after key low (log.take high) =
      after key low (log.take middle) ++ after key middle (log.take high) := by
  rw [(h.take _).after_eq_drop, (h.take _).after_eq_drop, (h.take _).after_eq_drop]
  obtain ⟨more, rfl⟩ := Nat.exists_eq_add_of_le hhigh
  obtain hmiddle | hmiddle := le_total middle log.length
  · rw [take_add, drop_append_of_le_length (by simp; omega),
      drop_left' (length_take_of_le hmiddle)]
  · rw [take_of_length_le (by omega), take_of_length_le hmiddle,
      drop_eq_nil_of_le hmiddle, append_nil]

theorem Numbered.after_take_succ (h : Numbered key log) {index : ℕ} (hindex : index < log.length) :
    after key index (log.take (index + 1)) = [log[index]] := by
  rw [(h.take _).after_eq_drop, take_succ_eq_append_getElem hindex,
    drop_left' (by simp; omega)]

theorem Numbered.after_take_of_le (h : Numbered key log) {count : ℕ} (hcount : count ≤ since) :
    after key since (log.take count) = [] := by
  rw [(h.take _).after_eq_drop, drop_eq_nil_of_le (by simp; omega)]

theorem mem_after {entry : α} : entry ∈ after key since log ↔ entry ∈ log ∧ since < key entry := by
  simp [after]

theorem after_mono {log' : List α} (h : log <+: log') (since : ℕ) :
    after key since log <+: after key since log' :=
  h.filter _

theorem after_append (since : ℕ) (log log' : List α) :
    after key since (log ++ log') = after key since log ++ after key since log' :=
  filter_append ..

end Numbered

/-! ### Up to the first entry of a kind -/

section Through

variable (stop : α → Bool)

/-- The entries up to the first one that stops, which is kept. -/
def through : List α → List α
  | [] => []
  | entry :: log => if stop entry then [entry] else entry :: through log

variable {stop} {log : List α}

theorem through_isPrefix (log : List α) : through stop log <+: log := by
  induction log with
  | nil => exact prefix_refl _
  | cons entry log ih =>
    rw [through]
    split
    · simp
    · simpa using ih

theorem through_of_none (h : ∀ entry ∈ log, ¬ stop entry) : through stop log = log := by
  induction log with
  | nil => rfl
  | cons entry log ih =>
    rw [through, if_neg (h entry mem_cons_self),
      ih fun entry hentry => h entry (mem_cons_of_mem _ hentry)]

theorem through_append_of_none (h : ∀ entry ∈ log, ¬ stop entry) (log' : List α) :
    through stop (log ++ log') = log ++ through stop log' := by
  induction log with
  | nil => rfl
  | cons entry log ih =>
    rw [cons_append, through, if_neg (h entry mem_cons_self),
      ih fun entry hentry => h entry (mem_cons_of_mem _ hentry), cons_append]

/-- What follows the first entry that stops is not looked at. -/
theorem through_append_of_some (h : ∃ entry ∈ log, stop entry) (log' : List α) :
    through stop (log ++ log') = through stop log := by
  induction log with
  | nil => simp at h
  | cons entry log ih =>
    rw [cons_append, through, through]
    split
    · rfl
    · next hstop =>
      obtain ⟨other, hother, hfound⟩ := h
      rcases mem_cons.mp hother with rfl | hother
      · exact absurd hfound hstop
      · rw [ih ⟨other, hother, hfound⟩]

theorem through_mono {log' : List α} (h : log <+: log') :
    through stop log <+: through stop log' := by
  obtain ⟨rest, rfl⟩ := h
  by_cases hstop : ∃ entry ∈ log, stop entry
  · rw [through_append_of_some hstop]
  · rw [through_append_of_none (by simpa using hstop), through_of_none (by simpa using hstop)]
    exact prefix_append _ _

variable {key : α → ℕ} {since : ℕ}

/-- Nothing is left after the first entry that stops. -/
theorem Numbered.after_through_of_early (h : Numbered key log)
    (hearly : ∃ entry ∈ log, stop entry ∧ key entry ≤ since) :
    after key since (through stop log) = [] := by
  obtain ⟨entry, hentry, hstop, hle⟩ := hearly
  obtain ⟨index, hindex, rfl⟩ := mem_iff_getElem.mp hentry
  rw [h.key_getElem hindex] at hle
  have hthrough : through stop log = through stop (log.take since) := by
    conv_lhs => rw [← take_append_drop since log]
    exact through_append_of_some
      ⟨log[index], mem_take_iff_getElem.mpr ⟨index, by omega, rfl⟩, hstop⟩ _
  rw [hthrough]
  have hfront : after key since (through stop (log.take since)) <+: _ :=
    after_mono (through_isPrefix _) since
  rwa [h.after_take_of_le le_rfl, prefix_nil] at hfront

theorem Numbered.after_through_of_late (h : Numbered key log)
    (hlate : ∀ entry ∈ log, stop entry → since < key entry) :
    after key since (through stop log) = through stop (after key since log) := by
  have hearlier : ∀ entry ∈ log.take since, ¬ stop entry := by
    intro entry hentry hstop
    obtain ⟨index, hindex, rfl⟩ := mem_take_iff_getElem.mp hentry
    have hkey := h.key_getElem (show index < log.length by omega)
    have := hlate _ (getElem_mem _) hstop
    omega
  have hlater : ∀ entry ∈ through stop (log.drop since), since < key entry := by
    intro entry hentry
    have hmem := (through_isPrefix (log.drop since)).subset hentry
    rw [← h.after_eq_drop] at hmem
    exact (mem_after.mp hmem).2
  rw [h.after_eq_drop]
  conv_lhs => rw [← take_append_drop since log]
  rw [through_append_of_none hearlier, after_append, h.after_take_of_le le_rfl, nil_append,
    after, filter_eq_self.mpr (by simpa using hlater)]

end Through

/-! ### The end of a list -/

/-- The last `capacity` entries. -/
def lastOf (capacity : ℕ) (log : List α) : List α := log.drop (log.length - capacity)

/-- A full ring gives up its oldest entry for a new one. -/
theorem lastOf_push {capacity : ℕ} (hcapacity : 0 < capacity) (log : List α) (entry : α) :
    (if (lastOf capacity log).length = capacity then (lastOf capacity log).tail
      else lastOf capacity log) ++ [entry] = lastOf capacity (log ++ [entry]) := by
  unfold lastOf
  rw [length_drop, length_append, length_singleton,
    drop_append_of_le_length (by omega)]
  split
  · rw [tail_drop]
    congr 2
    omega
  · congr 2
    omega

end Retrograd.Logic
