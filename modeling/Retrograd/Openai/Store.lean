import Retrograd.Logic.Json
import Mathlib.Data.List.Dedup
import Mathlib.Algebra.Order.BigOperators.Group.List
import Mathlib.Algebra.Order.Group.Nat
import Mathlib.Algebra.Ring.Nat

/-!
# The bounded response store

A stored response may continue another, which it then **pins**: the least recently used entries go first
when a bound is reached, and a pinned one never does. Four structures mirror each other: the entries,
their order of use, the pin counts and the byte count.
-/

namespace Retrograd.Openai

open Logic List Function

/-! ### The store -/

/-- One stored response. -/
structure StoredResponse where
  response : Json
  inputItems : List Json
  createdAt : ℕ
  /-- Approximate size on the store's budget. -/
  bytes : ℕ
  /-- The response this one continues. -/
  previousResponseId : Option String
  /-- 1 for a first turn, one more per continuation. -/
  chainDepth : ℕ

/-- Why a put was refused. `running` is no refusal of the code's: the eviction loop ran out of the steps
it was given. -/
inductive StoreError where
  | full (maxResponses maxBytes : ℕ)
  | chainTooDeep (maxChainDepth : ℕ)
  | io (message : String)
  | running

/-- The bounds of a store. -/
structure StoreOptions where
  maxResponses : ℕ := 1024
  maxBytes : ℕ := 64 * 1024 * 1024
  maxChainDepth : ℕ := 64

structure MemoryInner where
  entries : List (String × StoredResponse) := []
  /-- Order of use, oldest first. -/
  order : List String := []
  /-- How many living descendants pin each ancestor. -/
  pins : String → Option ℕ := fun _ => none
  bytes : ℕ := 0

/-- Where a `usize` wraps. -/
def usizeBound : ℕ := 2 ^ 64

namespace MemoryInner

/-- The entry under an id. -/
def entry (inner : MemoryInner) (id : String) : Option StoredResponse := inner.entries.lookup id

/-- One pin less, and no count of zero. -/
def unpin (pins : String → Option ℕ) (ancestor : String) : String → Option ℕ :=
  match pins ancestor with
  | none => pins
  | some count =>
    Function.update pins ancestor (if count - 1 = 0 then none else some (count - 1))

def pin (pins : String → Option ℕ) (ancestor : String) : String → Option ℕ :=
  Function.update pins ancestor (some ((pins ancestor).getD 0 + 1))

def remove (inner : MemoryInner) (id : String) : Option StoredResponse × MemoryInner :=
  match inner.entry id with
  | none => (none, inner)
  | some stored =>
    (some stored,
      { entries := inner.entries.filter fun entry => entry.1 ≠ id
        order := inner.order.filter fun other => other ≠ id
        pins := (stored.previousResponseId.map (unpin inner.pins)).getD inner.pins
        bytes := inner.bytes - stored.bytes })

/-- The checks of a put: the id, and the response with its place in its chain. -/
def check (options : StoreOptions) (inner : MemoryInner) (response : StoredResponse) :
    Except StoreError (String × StoredResponse) :=
  match (response.response.member "id").bind Json.asStr with
  | none => .error (.io "a stored response needs an id")
  | some id =>
    if (inner.entry id).isSome then .error (.io "a stored response id already exists")
    else if options.maxBytes < response.bytes ∨ options.maxResponses = 0 then
      .error (.full options.maxResponses options.maxBytes)
    else
      match response.previousResponseId with
      | none => .ok (id, { response with chainDepth := 1 })
      | some ancestor =>
        match inner.entry ancestor with
        | none => .error (.io s!"the previous response `{ancestor}` is gone from the store")
        | some parent =>
          if options.maxChainDepth ≤ parent.chainDepth then
            .error (.chainTooDeep options.maxChainDepth)
          else .ok (id, { response with chainDepth := parent.chainDepth + 1 })

/-- A checked response, put in last. -/
def insert (inner : MemoryInner) (id : String) (response : StoredResponse) : MemoryInner where
  entries := inner.entries ++ [(id, response)]
  order := inner.order ++ [id]
  pins := (response.previousResponseId.map (pin inner.pins)).getD inner.pins
  bytes := (inner.bytes + response.bytes) % usizeBound

/-- Whether a bound is passed. -/
def exceeds (options : StoreOptions) (inner : MemoryInner) : Bool :=
  decide (options.maxResponses < inner.entries.length) || decide (options.maxBytes < inner.bytes)

/-- The least recently used entry that is neither pinned nor the new one. -/
def victim (inner : MemoryInner) (id : String) : Option String :=
  inner.order.find? fun candidate => decide (candidate ≠ id) && (inner.pins candidate).isNone

/-- Evicts until within bounds, in at most the given number of steps. -/
def evict (options : StoreOptions) (id : String) : ℕ → MemoryInner → Except StoreError Unit × MemoryInner
  | 0, inner => (.error .running, inner)
  | steps + 1, inner =>
    if inner.exceeds options then
      match inner.victim id with
      | none => (.error (.full options.maxResponses options.maxBytes), (inner.remove id).2)
      | some victim => evict options id steps (inner.remove victim).2
    else (.ok (), inner)

def put (options : StoreOptions) (inner : MemoryInner) (response : StoredResponse) :
    Except StoreError String × MemoryInner :=
  match inner.check options response with
  | .error error => (.error error, inner)
  | .ok (id, response) =>
    let inserted := inner.insert id response
    let (outcome, inner) := evict options id (inserted.entries.length + 1) inserted
    (outcome.map fun _ => id, inner)

/-- A read makes the entry recently used. -/
def get (inner : MemoryInner) (id : String) : Option StoredResponse × MemoryInner :=
  match inner.entry id with
  | none => (none, inner)
  | some stored => (some stored, { inner with order := inner.order.filter (· ≠ id) ++ [id] })

def delete (inner : MemoryInner) (id : String) : Bool × MemoryInner :=
  let (stored, inner) := inner.remove id
  (stored.isSome, inner)

def inputItems (inner : MemoryInner) (id : String) : Option (List Json) × MemoryInner :=
  let (stored, inner) := inner.get id
  (stored.map StoredResponse.inputItems, inner)

def purge (inner : MemoryInner) (olderThanUnix : ℕ) : ℕ × MemoryInner :=
  let victims := (inner.entries.filter fun entry =>
    decide (entry.2.createdAt < olderThanUnix) && (inner.pins entry.1).isNone).map Prod.fst
  (victims.length, victims.foldl (fun inner victim => (inner.remove victim).2) inner)

end MemoryInner

/-! ### Calls -/

inductive Call where
  | put (response : StoredResponse)
  | get (id : String)
  | delete (id : String)
  | purge (olderThanUnix : ℕ)
  | inputItems (id : String)

inductive Answer where
  | put (outcome : Except StoreError String)
  | get (stored : Option StoredResponse)
  | delete (removed : Bool)
  | purge (count : ℕ)
  | inputItems (items : Option (List Json))

def step (options : StoreOptions) (inner : MemoryInner) : Call → Answer × MemoryInner
  | .put response => let (outcome, inner) := inner.put options response; (.put outcome, inner)
  | .get id => let (stored, inner) := inner.get id; (.get stored, inner)
  | .delete id => let (removed, inner) := inner.delete id; (.delete removed, inner)
  | .purge olderThanUnix => let (count, inner) := inner.purge olderThanUnix; (.purge count, inner)
  | .inputItems id => let (items, inner) := inner.inputItems id; (.inputItems items, inner)

/-! ### The four structures mirror each other -/

namespace MemoryInner

/-- The stored ids. -/
def ids (inner : MemoryInner) : List String := inner.entries.map Prod.fst

/-- The stored responses that name `id` as the one they continue. -/
def continuations (inner : MemoryInner) (id : String) : ℕ :=
  inner.entries.countP fun entry => entry.2.previousResponseId == some id

/-- The stored sizes. -/
def sizes (inner : MemoryInner) : List ℕ := inner.entries.map fun entry => entry.2.bytes

end MemoryInner

open MemoryInner

/-- The order lists every stored id once and nothing else, a pin count is the number of stored
responses that continue the id, and the byte count is the sum of the stored sizes. -/
structure Mirrored (inner : MemoryInner) : Prop where
  ids : inner.ids.Nodup
  order : inner.order.Nodup
  listed (id : String) : id ∈ inner.order ↔ id ∈ inner.ids
  pins (id : String) : inner.pins id =
    if inner.continuations id = 0 then none else some (inner.continuations id)
  bytes : inner.bytes = inner.sizes.sum

variable {inner : MemoryInner} {id : String} {response : StoredResponse}

theorem entry_isSome_iff : (inner.entry id).isSome = true ↔ id ∈ inner.ids := by
  simp [MemoryInner.entry, MemoryInner.ids]

theorem entry_eq_none_iff : inner.entry id = none ↔ id ∉ inner.ids := by
  rw [← entry_isSome_iff, Option.not_isSome_iff_eq_none]

/-- An entry stands among the others, which are what its removal leaves. -/
theorem Mirrored.split (h : Mirrored inner) (hentry : inner.entry id = some response) :
    ∃ front back, inner.entries = front ++ (id, response) :: back ∧
      (inner.entries.filter fun entry => entry.1 ≠ id) = front ++ back := by
  obtain ⟨front, back, hsplit, hfront⟩ := lookup_eq_some_iff.mp hentry
  have hnodup := h.ids
  rw [MemoryInner.ids, hsplit, map_append, map_cons, nodup_middle,
    nodup_cons] at hnodup
  refine ⟨front, back, hsplit, ?_⟩
  have hkeep (entry : String × StoredResponse) (hmem : entry ∈ front ++ back) :
      decide (entry.1 ≠ id) = true := by
    refine decide_eq_true fun heq => hnodup.1 ?_
    rw [← heq, ← map_append]
    exact mem_map.mpr ⟨entry, hmem, rfl⟩
  rw [hsplit, filter_append, filter_cons_of_neg (by simp), ← filter_append,
    filter_eq_self.mpr hkeep]

theorem remove_of_none (h : inner.entry id = none) : inner.remove id = (none, inner) := by
  rw [MemoryInner.remove, h]

theorem remove_of_some (h : inner.entry id = some response) :
    inner.remove id = (some response,
      { entries := inner.entries.filter fun entry => entry.1 ≠ id
        order := inner.order.filter fun other => other ≠ id
        pins := (response.previousResponseId.map (unpin inner.pins)).getD inner.pins
        bytes := inner.bytes - response.bytes }) := by
  rw [MemoryInner.remove, h]

theorem entries_remove (inner : MemoryInner) (id : String) :
    (inner.remove id).2.entries = inner.entries.filter fun entry => entry.1 ≠ id := by
  cases hentry : inner.entry id with
  | some response => rw [remove_of_some hentry]
  | none =>
    rw [remove_of_none hentry, eq_comm, filter_eq_self]
    intro entry hmem
    refine decide_eq_true fun heq => entry_eq_none_iff.mp hentry ?_
    exact heq ▸ mem_map_of_mem hmem

theorem ids_remove : (inner.remove id).2.ids = inner.ids.filter fun other => other ≠ id := by
  rw [MemoryInner.ids, entries_remove, MemoryInner.ids, filter_map]
  rfl

theorem Mirrored.order_remove (h : Mirrored inner) :
    (inner.remove id).2.order = inner.order.filter fun other => other ≠ id := by
  cases hentry : inner.entry id with
  | some response => rw [remove_of_some hentry]
  | none =>
    rw [remove_of_none hentry, eq_comm, filter_eq_self]
    intro other hmem
    refine decide_eq_true fun heq => entry_eq_none_iff.mp hentry ?_
    exact heq ▸ (h.listed other).mp hmem

/-- One pin less is the count of one continuation less. -/
private theorem unpin_count {pins : String → Option ℕ} {count : String → ℕ} {ancestor : String}
    (hpins : ∀ id, pins id = if count id + (if ancestor = id then 1 else 0) = 0 then none
      else some (count id + if ancestor = id then 1 else 0)) (id : String) :
    unpin pins ancestor id = if count id = 0 then none else some (count id) := by
  have hancestor := hpins ancestor
  rw [if_pos rfl, if_neg (Nat.succ_ne_zero _)] at hancestor
  rw [unpin, hancestor]
  by_cases hid : ancestor = id
  · subst hid
    simp
  · have hother := hpins id
    rw [if_neg hid, Nat.add_zero] at hother
    change Function.update pins ancestor _ id = _
    rw [update_of_ne (Ne.symm hid), hother]

/-- A removed entry leaves a store whose structures still mirror each other. -/
theorem Mirrored.remove (h : Mirrored inner) (id : String) : Mirrored (inner.remove id).2 := by
  cases hentry : inner.entry id with
  | none => rwa [remove_of_none hentry]
  | some response =>
    obtain ⟨front, back, hsplit, hleft⟩ := h.split hentry
    have hentries := entries_remove inner id
    rw [hleft] at hentries
    refine ⟨?_, ?_, fun other => ?_, fun other => ?_, ?_⟩
    · rw [ids_remove]
      exact h.ids.filter _
    · rw [h.order_remove]
      exact h.order.filter _
    · rw [h.order_remove, ids_remove, mem_filter, mem_filter, h.listed other]
    · have hpins (other : String) : inner.pins other =
          if (inner.remove id).2.continuations other +
              (if response.previousResponseId = some other then 1 else 0) = 0 then none
          else some ((inner.remove id).2.continuations other +
              if response.previousResponseId = some other then 1 else 0) := by
        have hcount : inner.continuations other = (inner.remove id).2.continuations other +
            if response.previousResponseId = some other then 1 else 0 := by
          rw [continuations, continuations, hentries, hsplit, countP_append,
            countP_append, countP_cons]
          simp [Nat.add_assoc]
        rw [h.pins other, hcount]
      rw [remove_of_some hentry]
      rw [remove_of_some hentry] at hpins
      cases hprevious : response.previousResponseId with
      | none =>
        simp only [hprevious, reduceCtorEq, if_false, Nat.add_zero] at hpins
        exact hpins other
      | some ancestor =>
        simp only [hprevious, Option.some.injEq] at hpins
        exact unpin_count hpins other
    · rw [sizes, hentries, remove_of_some hentry]
      change inner.bytes - response.bytes = _
      rw [h.bytes, sizes, hsplit]
      simp only [map_append, map_cons, sum_append, sum_cons]
      omega

/-- A response put under a new id mirrors, as long as the byte count does not wrap. -/
theorem Mirrored.insert (h : Mirrored inner) (hnew : inner.entry id = none)
    (hbytes : inner.bytes + response.bytes < usizeBound) : Mirrored (inner.insert id response) := by
  have hid : id ∉ inner.ids := entry_eq_none_iff.mp hnew
  have hids : (inner.insert id response).ids = inner.ids ++ [id] := by
    simp [MemoryInner.ids, MemoryInner.insert]
  refine ⟨?_, ?_, fun other => ?_, fun other => ?_, ?_⟩
  · rw [hids]
    refine nodup_append.mpr ⟨h.ids, nodup_singleton id, ?_⟩
    intro a ha b hb heq
    rw [mem_singleton.mp hb] at heq
    exact hid (heq ▸ ha)
  · refine nodup_append.mpr ⟨h.order, nodup_singleton id, ?_⟩
    intro a ha b hb heq
    rw [mem_singleton.mp hb] at heq
    exact hid ((h.listed id).mp (heq ▸ ha))
  · rw [hids, MemoryInner.insert, mem_append, mem_append, h.listed other]
  · have hcount : (inner.insert id response).continuations other = inner.continuations other +
        if response.previousResponseId = some other then 1 else 0 := by
      simp [continuations, MemoryInner.insert, countP_append, countP_singleton]
    rw [hcount]
    change (response.previousResponseId.map (pin inner.pins)).getD inner.pins other = _
    cases hprevious : response.previousResponseId with
    | none => exact h.pins other
    | some ancestor =>
      change pin inner.pins ancestor other = _
      by_cases hother : ancestor = other
      · subst hother
        rw [pin, update_self, h.pins ancestor]
        by_cases hzero : inner.continuations ancestor = 0
        · simp [hzero]
        · simp [hzero]
      · rw [pin, update_of_ne (Ne.symm hother), h.pins other]
        simp [hother]
  · change (inner.bytes + response.bytes) % usizeBound = _
    rw [Nat.mod_eq_of_lt hbytes, h.bytes]
    simp [sizes, MemoryInner.insert]

/-- Taking back a response that was put in leaves the store as it was. -/
theorem Mirrored.remove_insert (h : Mirrored inner) (hnew : inner.entry id = none)
    (hbytes : inner.bytes + response.bytes < usizeBound) :
    ((inner.insert id response).remove id).2 = inner := by
  have hid : id ∉ inner.ids := entry_eq_none_iff.mp hnew
  have hentry : (inner.insert id response).entry id = some response := by
    rw [MemoryInner.entry, MemoryInner.insert, lookup_append]
    rw [MemoryInner.entry] at hnew
    rw [hnew]
    simp
  have hkeep (entry : String × StoredResponse) (hmem : entry ∈ inner.entries) :
      decide (entry.1 ≠ id) = true := by
    refine decide_eq_true fun heq => hid ?_
    exact heq ▸ mem_map_of_mem hmem
  have horder (other : String) (hmem : other ∈ inner.order) : decide (other ≠ id) = true := by
    refine decide_eq_true fun heq => hid ?_
    exact heq ▸ (h.listed other).mp hmem
  rw [remove_of_some hentry]
  have hentries : ((inner.insert id response).entries.filter fun entry => entry.1 ≠ id) =
      inner.entries := by
    rw [MemoryInner.insert, filter_append, filter_eq_self.mpr hkeep]
    simp
  have hused : ((inner.insert id response).order.filter fun other => other ≠ id) = inner.order := by
    rw [MemoryInner.insert, filter_append, filter_eq_self.mpr horder]
    simp
  have hcount : (inner.insert id response).bytes - response.bytes = inner.bytes := by
    change (inner.bytes + response.bytes) % usizeBound - response.bytes = _
    rw [Nat.mod_eq_of_lt hbytes, Nat.add_sub_cancel]
  have hpins : (response.previousResponseId.map (unpin (inner.insert id response).pins)).getD
      (inner.insert id response).pins = inner.pins := by
    cases hprevious : response.previousResponseId with
    | none => simp [MemoryInner.insert, hprevious]
    | some ancestor =>
      change unpin (inner.insert id response).pins ancestor = _
      have hpinned : (inner.insert id response).pins = pin inner.pins ancestor := by
        simp [MemoryInner.insert, hprevious]
      rw [hpinned, unpin, pin, update_self]
      simp only [update_idem]
      refine update_eq_self_iff.mpr ?_
      rw [h.pins ancestor]
      by_cases hzero : inner.continuations ancestor = 0
      · simp [hzero]
      · simp [hzero]
  rw [hentries, hused, hcount, hpins]

/-- A read changes the order of use only. -/
theorem Mirrored.touch (h : Mirrored inner) (hentry : inner.entry id = some response) :
    Mirrored { inner with order := inner.order.filter (· ≠ id) ++ [id] } := by
  have hid : id ∈ inner.ids := entry_isSome_iff.mp (hentry ▸ rfl)
  refine ⟨h.ids, ?_, fun other => ?_, h.pins, h.bytes⟩
  · refine nodup_append.mpr ⟨h.order.filter _, nodup_singleton id, ?_⟩
    intro a ha b hb heq
    rw [mem_singleton.mp hb] at heq
    exact of_decide_eq_true (mem_filter.mp ha).2 heq
  · rw [mem_append, mem_singleton, mem_filter, h.listed other]
    by_cases hother : other = id
    · subst hother
      exact iff_of_true (.inr rfl) hid
    · simp [hother, MemoryInner.ids]

end Retrograd.Openai
