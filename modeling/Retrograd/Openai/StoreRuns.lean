import Retrograd.Openai.Store
import Retrograd.Logic.Except

/-!
# Runs of the bounded store

A call keeps the store **sound**: its structures mirror each other, it is within its bounds, and its
order lists the stored ids by their last use. A put that gives up after it has evicted is the exception,
and which puts these are is a fact about what **cannot be evicted**.
-/

namespace Retrograd.Openai

open Logic MemoryInner List Function

variable {options : StoreOptions} {inner after : MemoryInner} {id : String}
  {response stored : StoredResponse} {uses : List String}

/-! ### What a call should do -/

/-- Whether a stored response continues `id`. -/
def MemoryInner.continued (inner : MemoryInner) (id : String) : Prop :=
  ∃ entry ∈ inner.entries, entry.2.previousResponseId = some id

/-- Entries evicted one after another while a bound is passed, each the first in the order that is not
`id` and that no stored response continues. -/
inductive Evicted (options : StoreOptions) (id : String) : MemoryInner → MemoryInner → Prop
  | done (inner : MemoryInner) : Evicted options id inner inner
  | next {inner after : MemoryInner} {older newer : List String} {victim : String}
      (hexceeds : inner.exceeds options = true) (horder : inner.order = older ++ victim :: newer)
      (holder : ∀ other ∈ older, other = id ∨ inner.continued other) (hid : victim ≠ id)
      (hfree : ¬ inner.continued victim) (hrest : Evicted options id (inner.remove victim).2 after) :
      Evicted options id inner after

/-- The order is the ids ever used, each at its last use, as far as they are stored. -/
def Recent (uses : List String) (inner : MemoryInner) : Prop :=
  inner.order = uses.dedup.filter (· ∈ inner.ids)

/-- What holds of the store between two calls. -/
structure Sound (options : StoreOptions) (uses : List String) (inner : MemoryInner) : Prop where
  mirrored : Mirrored inner
  count : inner.entries.length ≤ options.maxResponses
  bytes : inner.bytes ≤ options.maxBytes
  depth : ∀ entry ∈ inner.entries, entry.2.chainDepth ≤ options.maxChainDepth
  recent : Recent uses inner

/-- The depth of a new response: one more than that of the response it continues. -/
def DepthAfter (inner : MemoryInner) (response : StoredResponse) (depth : ℕ) : Prop :=
  match response.previousResponseId with
  | none => depth = 1
  | some ancestor => ∃ parent, inner.entry ancestor = some parent ∧ depth = parent.chainDepth + 1

/-- What a call should do: a put that fails changes nothing, one that succeeds stores its response under
its chain's depth and evicts for it, and a purge takes no response that a stored one continues. -/
def Right (options : StoreOptions) (inner : MemoryInner) : Call → Answer × MemoryInner → Prop
  | .put response, (.put outcome, after) =>
    match outcome with
    | .error error => error ≠ .running ∧ after = inner
    | .ok id => inner.entry id = none ∧ ∃ depth ≤ options.maxChainDepth,
        DepthAfter inner response depth ∧
        Evicted options id (inner.insert id { response with chainDepth := depth }) after ∧
        after.entry id = some { response with chainDepth := depth }
  | .purge _, (_, after) => ∀ id ∈ inner.ids, id ∉ after.ids → ¬ inner.continued id
  | _, _ => True

/-- The ids a call used. -/
def used : Call → Answer → List String
  | _, .put (.ok id) => [id]
  | .get id, .get (some _) => [id]
  | .inputItems id, .inputItems (some _) => [id]
  | _, _ => []

/-! ### The puts that change nothing when they fail -/

/-- The entries that are `id` or that one of the entries continues. -/
def keepPinned (id : String) (entries : List (String × StoredResponse)) :
    List (String × StoredResponse) :=
  entries.filter fun entry => decide (entry.1 = id) ||
    entries.any fun other => other.2.previousResponseId == some entry.1

/-- The entries that no eviction in favour of `id` ever reaches. -/
def settled (id : String) (entries : List (String × StoredResponse)) :
    List (String × StoredResponse) :=
  (keepPinned id)^[entries.length] entries

/-- Whether entries pass a bound. -/
def passBounds (options : StoreOptions) (entries : List (String × StoredResponse)) : Bool :=
  decide (options.maxResponses < entries.length) ||
    decide (options.maxBytes < (entries.map fun entry => entry.2.bytes).sum)

/-- The puts that do what they should: one that passes the checks does not wrap the byte count, and
either what can never be evicted leaves it room, and a first turn has a depth to live at, or there is
nothing to evict at all. -/
def PutFits (options : StoreOptions) (inner : MemoryInner) (response : StoredResponse) : Prop :=
  ∀ id stored, inner.check options response = .ok (id, stored) →
    inner.bytes + stored.bytes < usizeBound ∧
      if passBounds options (settled id (inner.insert id stored).entries) then
        ∀ other ∈ inner.order, (inner.insert id stored).continued other
      else response.previousResponseId = none → 0 < options.maxChainDepth

def CallFits (options : StoreOptions) (inner : MemoryInner) : Call → Prop
  | .put response => PutFits options inner response
  | _ => True

/-- The states that runs of fitting calls reach, with the ids used on the way. -/
inductive Reaches (options : StoreOptions) : List String → MemoryInner → Prop
  | start : Reaches options [] {}
  | call {uses : List String} {inner : MemoryInner} (h : Reaches options uses inner) (call : Call)
      (hfits : CallFits options inner call) :
      Reaches options (uses ++ used call (step options inner call).1) (step options inner call).2

/-! ### Evictions -/

theorem continuations_eq_zero_iff : inner.continuations id = 0 ↔ ¬ inner.continued id := by
  simp [continuations, countP_eq_zero, continued]

theorem Mirrored.pins_isNone_iff (h : Mirrored inner) (id : String) :
    (inner.pins id).isNone = true ↔ ¬ inner.continued id := by
  rw [h.pins id, ← continuations_eq_zero_iff]
  split_ifs with hzero
  · exact iff_of_true rfl hzero
  · exact iff_of_false (by simp) hzero

theorem Mirrored.exceeds_eq (h : Mirrored inner) (options : StoreOptions) :
    inner.exceeds options = passBounds options inner.entries := by
  rw [MemoryInner.exceeds, passBounds, h.bytes]
  rfl

theorem entry_remove {other : String} (hne : other ≠ id) :
    (inner.remove other).2.entry id = inner.entry id := by
  rw [MemoryInner.entry, MemoryInner.entry, entries_remove]
  induction inner.entries with
  | nil => rfl
  | cons entry entries ih =>
    by_cases hother : entry.1 = other
    · have hid : (id == entry.1) = false := by simpa [hother] using Ne.symm hne
      rw [filter_cons_of_neg (by simpa using hother), ih, List.lookup_cons, hid]
    · rw [filter_cons_of_pos (by simpa using hother), List.lookup_cons, List.lookup_cons, ih]

theorem Recent.remove (h : Recent uses inner) (hmirrored : Mirrored inner) (other : String) :
    Recent uses (inner.remove other).2 := by
  rw [Recent, hmirrored.order_remove, h, ids_remove, filter_filter]
  refine filter_congr fun id _ => ?_
  simp [and_comm]

/-- What evictions keep. -/
theorem Evicted.keeps (uses : List String) (h : Evicted options id inner after) (hmirrored : Mirrored inner) :
    Mirrored after ∧ after.entries.Sublist inner.entries ∧ after.entry id = inner.entry id ∧
      (Recent uses inner → Recent uses after) := by
  induction h with
  | done inner => exact ⟨hmirrored, .refl _, rfl, fun h => h⟩
  | next _ _ _ hid _ _ ih =>
    obtain ⟨hafter, hsublist, hentry, hrecent⟩ := ih (hmirrored.remove _)
    refine ⟨hafter, hsublist.trans ?_, hentry.trans (entry_remove hid), fun h => ?_⟩
    · rw [entries_remove]
      exact filter_sublist
    · exact hrecent (h.remove hmirrored _)

/-- Why the eviction loop stops: the entries left are within bounds, or they pass a bound and none of them
but `id` is free to go. -/
inductive Stopped (options : StoreOptions) (id : String) (last : MemoryInner) :
    Except StoreError Unit × MemoryInner → Prop
  | within (h : last.exceeds options = false) : Stopped options id last (.ok (), last)
  | full (h : last.exceeds options = true)
      (hpinned : ∀ other ∈ last.order, other = id ∨ last.continued other) :
      Stopped options id last
        (.error (.full options.maxResponses options.maxBytes), (last.remove id).2)

/-- The loop evicts until it stops, in as many steps as there are entries. -/
theorem evict_stops (options : StoreOptions) (h : Mirrored inner) (hid : id ∈ inner.ids) {steps : ℕ}
    (hsteps : inner.entries.length ≤ steps) :
    ∃ last, Evicted options id inner last ∧ Stopped options id last (evict options id steps inner) := by
  induction steps generalizing inner with
  | zero =>
    have hnone : inner.entries = [] := eq_nil_of_length_eq_zero (Nat.le_zero.mp hsteps)
    simp [MemoryInner.ids, hnone] at hid
  | succ steps ih =>
    by_cases hexceeds : inner.exceeds options = true
    · rw [evict, if_pos hexceeds]
      cases hvictim : inner.victim id with
      | none =>
        refine ⟨inner, .done inner, .full hexceeds fun other hother => ?_⟩
        have hpinned := find?_eq_none.mp hvictim other hother
        rw [Bool.and_eq_true, decide_eq_true_iff, h.pins_isNone_iff other] at hpinned
        by_contra hfree
        exact hpinned ⟨fun heq => hfree (.inl heq), fun hcontinued => hfree (.inr hcontinued)⟩
      | some victim =>
        obtain ⟨hfree, older, newer, horder, holder⟩ := find?_eq_some_iff_append.mp hvictim
        rw [Bool.and_eq_true, decide_eq_true_iff, h.pins_isNone_iff victim] at hfree
        have hids : id ∈ (inner.remove victim).2.ids := by
          rw [ids_remove]
          exact mem_filter.mpr ⟨hid, decide_eq_true (Ne.symm hfree.1)⟩
        have hfewer : (inner.remove victim).2.entries.length < inner.entries.length := by
          have hmem : victim ∈ inner.ids :=
            (h.listed victim).mp (horder ▸ mem_append_right _ (.head _))
          obtain ⟨entry, hentry, rfl⟩ := mem_map.mp hmem
          rw [entries_remove]
          exact length_filter_lt_length_iff_exists.mpr ⟨entry, hentry, by simp⟩
        obtain ⟨last, hlast, hstopped⟩ := ih (h.remove victim) hids (by omega)
        refine ⟨last, .next hexceeds horder (fun other hother => ?_) hfree.1 hfree.2 hlast, hstopped⟩
        have hpinned := holder other hother
        rw [Bool.not_eq_true', ← Bool.not_eq_true, Bool.and_eq_true, decide_eq_true_iff,
          h.pins_isNone_iff other] at hpinned
        by_contra hnot
        exact hpinned ⟨fun heq => hnot (.inl heq), fun hcontinued => hnot (.inr hcontinued)⟩
    · rw [evict, if_neg hexceeds]
      exact ⟨inner, .done inner, .within (by simpa using hexceeds)⟩

/-! ### What cannot be evicted -/

/-- Entries among others of which each is `id` or continued by another stay when unpinned entries go. -/
theorem sublist_keepPinned {kept entries : List (String × StoredResponse)}
    (h : kept.Sublist entries)
    (hpinned : ∀ entry ∈ kept, entry.1 = id ∨
      ∃ other ∈ kept, other.2.previousResponseId = some entry.1) :
    kept.Sublist (keepPinned id entries) := by
  rw [keepPinned]
  have hkeep : kept.filter (fun entry => decide (entry.1 = id) ||
      entries.any fun other => other.2.previousResponseId == some entry.1) = kept := by
    refine filter_eq_self.mpr fun entry hentry => ?_
    rw [Bool.or_eq_true, decide_eq_true_iff, any_eq_true]
    refine (hpinned entry hentry).imp (fun heq => heq) fun hother => ?_
    obtain ⟨other, hother, hprevious⟩ := hother
    exact ⟨other, h.subset hother, beq_iff_eq.mpr hprevious⟩
  rw [← hkeep]
  exact h.filter _

theorem sublist_settled {kept entries : List (String × StoredResponse)} (h : kept.Sublist entries)
    (hpinned : ∀ entry ∈ kept, entry.1 = id ∨
      ∃ other ∈ kept, other.2.previousResponseId = some entry.1) :
    kept.Sublist (settled id entries) := by
  rw [settled]
  generalize entries.length = rounds
  induction rounds with
  | zero => exact h
  | succ rounds ih =>
    rw [iterate_succ_apply']
    exact sublist_keepPinned ih hpinned

theorem passBounds_of_sublist {kept entries : List (String × StoredResponse)}
    (h : kept.Sublist entries) (hpass : passBounds options kept = true) :
    passBounds options entries = true := by
  rw [passBounds, Bool.or_eq_true, decide_eq_true_iff, decide_eq_true_iff] at hpass ⊢
  have hsum := (h.map fun entry => entry.2.bytes).sum_le_sum fun _ _ => Nat.zero_le _
  exact hpass.imp (fun hcount => hcount.trans_le h.length_le) fun hbytes => hbytes.trans_le hsum

theorem settled_sublist (id : String) (entries : List (String × StoredResponse)) :
    (settled id entries).Sublist entries := by
  rw [settled]
  generalize entries.length = rounds
  induction rounds with
  | zero => exact .refl _
  | succ rounds ih =>
    rw [iterate_succ_apply']
    exact filter_sublist.trans ih

/-- Where every entry but `id` is continued, nothing is evicted. -/
theorem Evicted.eq_of_continued (h : Evicted options id inner after)
    (hall : ∀ other ∈ inner.order, other = id ∨ inner.continued other) : after = inner := by
  cases h with
  | done => rfl
  | @next _ _ older newer victim _ horder _ hid hfree _ =>
    have hmem : victim ∈ inner.order := horder ▸ mem_append_right _ (.head _)
    exact absurd (hall victim hmem) (by simp [hid, hfree])

/-! ### One call -/

/-- A response that passed the checks has a new id and its chain's depth. -/
theorem check_ok (h : inner.check options response = .ok (id, stored)) :
    inner.entry id = none ∧ ∃ depth, stored = { response with chainDepth := depth } ∧
      DepthAfter inner response depth ∧
      (response.previousResponseId ≠ none → depth ≤ options.maxChainDepth) := by
  rw [MemoryInner.check] at h
  cases hfound : (response.response.member "id").bind Json.asStr with
  | none =>
    rw [hfound] at h
    cases h
  | some found =>
    simp only [hfound] at h
    split_ifs at h with hexists hfull
    have hnew : inner.entry found = none := by simpa using hexists
    cases hprevious : response.previousResponseId with
    | none =>
      simp only [hprevious] at h
      cases h
      exact ⟨hnew, 1, rfl, by rw [DepthAfter, hprevious], fun hsome => absurd rfl hsome⟩
    | some ancestor =>
      cases hparent : inner.entry ancestor with
      | none => simp [hprevious, hparent] at h
      | some parent =>
        simp only [hprevious, hparent] at h
        split_ifs at h with hdeep
        cases h
        refine ⟨hnew, parent.chainDepth + 1, rfl, ?_, fun _ => not_le.mp hdeep⟩
        rw [DepthAfter, hprevious]
        exact ⟨parent, hparent, rfl⟩

theorem check_ne_running {error : StoreError} (h : inner.check options response = .error error) :
    error ≠ .running := by
  rintro rfl
  rw [MemoryInner.check] at h
  cases hfound : (response.response.member "id").bind Json.asStr with
  | none => simp [hfound] at h
  | some found =>
    simp only [hfound] at h
    split_ifs at h with hexists hfull
    · cases h
    · cases h
    · cases hprevious : response.previousResponseId with
      | none => simp [hprevious] at h
      | some ancestor =>
        cases hparent : inner.entry ancestor with
        | none => simp [hprevious, hparent] at h
        | some parent =>
          simp only [hprevious, hparent] at h
          split_ifs at h
          cases h

/-- A use of `id` puts it last. -/
theorem filter_dedup_snoc (p : String → Bool) (uses : List String) (id : String) :
    (uses ++ [id]).dedup.filter p =
      (uses.dedup.filter fun other => p other && decide (other ≠ id)) ++ [id].filter p := by
  have hdedup : (uses ++ [id]).dedup = (uses.dedup.filter fun other => decide (other ≠ id)) ++ [id] := by
    induction uses with
    | nil => rfl
    | cons first uses ih =>
      rw [cons_append]
      by_cases hmem : first ∈ uses
      · rw [dedup_cons_of_mem (mem_append_left _ hmem), dedup_cons_of_mem hmem, ih]
      · rw [dedup_cons_of_notMem hmem]
        by_cases hid : first = id
        · rw [dedup_cons_of_mem (by simp [hid]), ih, filter_cons_of_neg (by simp [hid])]
        · rw [dedup_cons_of_notMem (by simp [hmem, hid]), ih,
            filter_cons_of_pos (by simpa using hid), cons_append]
  rw [hdedup, filter_append, filter_filter]

theorem ids_insert : (inner.insert id stored).ids = inner.ids ++ [id] := by
  simp [MemoryInner.ids, MemoryInner.insert]

theorem entry_insert (hnew : inner.entry id = none) : (inner.insert id stored).entry id = some stored := by
  rw [MemoryInner.entry, MemoryInner.insert, lookup_append]
  rw [MemoryInner.entry] at hnew
  rw [hnew]
  simp

theorem Recent.insert (h : Recent uses inner) (hnew : inner.entry id = none) :
    Recent (uses ++ [id]) (inner.insert id stored) := by
  have hid : id ∉ inner.ids := entry_eq_none_iff.mp hnew
  rw [Recent, filter_dedup_snoc, ids_insert]
  change inner.order ++ [id] = _
  rw [h]
  congr 1
  · refine filter_congr fun other _ => ?_
    by_cases hother : other = id
    · simp [hother, hid]
    · simp [hother]
  · simp

theorem Recent.touch (h : Recent uses inner) (hentry : inner.entry id = some stored) :
    Recent (uses ++ [id]) { inner with order := inner.order.filter (· ≠ id) ++ [id] } := by
  have hid : id ∈ inner.ids := entry_isSome_iff.mp (hentry ▸ rfl)
  rw [Recent, filter_dedup_snoc]
  change inner.order.filter _ ++ [id] = _
  rw [h, filter_filter]
  congr 1
  · refine filter_congr fun other _ => ?_
    exact Bool.and_comm _ _
  · change [id] = [id].filter fun other => decide (other ∈ inner.ids)
    simp [hid]

/-- A fitting put does what it should, and leaves the store sound. -/
theorem put_right (h : Sound options uses inner) (hfits : PutFits options inner response) :
    Right options inner (.put response) (step options inner (.put response)) ∧
      Sound options (uses ++ used (.put response) (step options inner (.put response)).1)
        (step options inner (.put response)).2 := by
  cases hcheck : inner.check options response with
  | error error =>
    have hput : inner.put options response = (.error error, inner) := by
      rw [MemoryInner.put, hcheck]
    rw [step, hput]
    exact ⟨⟨check_ne_running hcheck, rfl⟩, by simpa [used] using h⟩
  | ok checked =>
    obtain ⟨id, stored⟩ := checked
    obtain ⟨hbytes, hroom⟩ := hfits id stored hcheck
    obtain ⟨hnew, depth, rfl, hdepth, hchain⟩ := check_ok hcheck
    generalize hinserted : inner.insert id { response with chainDepth := depth } = inserted at hroom
    have hmirrored : Mirrored inserted := hinserted ▸ h.mirrored.insert hnew hbytes
    have hid : id ∈ inserted.ids := hinserted ▸ (ids_insert ▸ by simp)
    have hwhole : inserted.entry id = some { response with chainDepth := depth } :=
      hinserted ▸ entry_insert hnew
    obtain ⟨last, hevicted, hstopped⟩ :=
      evict_stops options hmirrored hid (Nat.le_succ _)
    obtain ⟨hlast, hsublist, hentry, hrecent⟩ := hevicted.keeps (uses ++ [id]) hmirrored
    have hput : inner.put options response =
        ((evict options id (inserted.entries.length + 1) inserted).1.map fun _ => id,
          (evict options id (inserted.entries.length + 1) inserted).2) := by
      rw [MemoryInner.put, hcheck, ← hinserted]
    -- Where what cannot be evicted passes a bound, nothing was.
    have hnothing (hpass : passBounds options (settled id inserted.entries) = true) :
        last = inserted := by
      rw [if_pos hpass] at hroom
      refine hevicted.eq_of_continued fun other hother => ?_
      rw [← hinserted] at hother
      rcases mem_append.mp hother with hold | hlast
      · exact .inr (hroom other hold)
      · exact .inl (mem_singleton.mp hlast)
    rw [step, hput]
    generalize evict options id (inserted.entries.length + 1) inserted = result at hstopped
    cases hstopped with
    | within hwithin =>
      have hdeep : depth ≤ options.maxChainDepth := by
        cases hprevious : response.previousResponseId with
        | some ancestor => exact hchain (by simp [hprevious])
        | none =>
          rw [DepthAfter, hprevious] at hdepth
          by_cases hpass : passBounds options (settled id inserted.entries) = true
          · -- What can never be evicted is still there.
            have hmore := passBounds_of_sublist (settled_sublist id inserted.entries) hpass
            rw [← hmirrored.exceeds_eq, ← hnothing hpass, hwithin] at hmore
            cases hmore
          · rw [if_neg hpass] at hroom
            exact hdepth ▸ hroom hprevious
      refine ⟨⟨hnew, depth, hdeep, hdepth, hinserted ▸ hevicted, hentry.trans hwhole⟩, ?_⟩
      rw [MemoryInner.exceeds, Bool.or_eq_false_iff, decide_eq_false_iff_not, not_lt,
        decide_eq_false_iff_not, not_lt] at hwithin
      refine ⟨hlast, hwithin.1, hwithin.2, fun entry hmem => ?_, ?_⟩
      · have hmem := hsublist.subset hmem
        rw [← hinserted] at hmem
        rcases mem_append.mp hmem with hold | hnewest
        · exact h.depth entry hold
        · rw [mem_singleton.mp hnewest]
          exact hdeep
      · exact hrecent (hinserted ▸ h.recent.insert hnew)
    | full hexceeds hpinned =>
      have hclosed (entry : String × StoredResponse) (hmem : entry ∈ last.entries) :
          entry.1 = id ∨ ∃ other ∈ last.entries, other.2.previousResponseId = some entry.1 :=
        hpinned entry.1 ((hlast.listed _).mpr (mem_map_of_mem hmem))
      have hpass := passBounds_of_sublist (sublist_settled hsublist hclosed)
        (hlast.exceeds_eq options ▸ hexceeds)
      have hback : (last.remove id).2 = inner := by
        rw [hnothing hpass, ← hinserted]
        exact h.mirrored.remove_insert hnew hbytes
      rw [hback]
      exact ⟨⟨by simp, rfl⟩, by simpa [used, Except.map] using h⟩

/-! ### The other calls -/

theorem Sound.remove (h : Sound options uses inner) (id : String) :
    Sound options uses (inner.remove id).2 := by
  have hsublist : (inner.remove id).2.entries.Sublist inner.entries :=
    entries_remove inner id ▸ filter_sublist
  have hmirrored := h.mirrored.remove id
  refine ⟨hmirrored, hsublist.length_le.trans h.count, ?_,
    fun entry hmem => h.depth entry (hsublist.subset hmem), h.recent.remove h.mirrored id⟩
  have hsum := (hsublist.map fun entry => entry.2.bytes).sum_le_sum fun _ _ => Nat.zero_le _
  calc (inner.remove id).2.bytes = (inner.remove id).2.sizes.sum := hmirrored.bytes
    _ ≤ inner.sizes.sum := hsum
    _ = inner.bytes := h.mirrored.bytes.symm
    _ ≤ options.maxBytes := h.bytes

theorem Sound.removeAll (h : Sound options uses inner) (victims : List String) :
    Sound options uses (victims.foldl (fun inner victim => (inner.remove victim).2) inner) := by
  induction victims generalizing inner with
  | nil => exact h
  | cons victim victims ih => exact ih (h.remove victim)

theorem mem_ids_removeAll (victims : List String) :
    id ∈ (victims.foldl (fun inner victim => (inner.remove victim).2) inner).ids ↔
      id ∈ inner.ids ∧ id ∉ victims := by
  induction victims generalizing inner with
  | nil => simp
  | cons victim victims ih =>
    rw [foldl_cons, ih, ids_remove, mem_filter]
    simp [and_assoc]

theorem Sound.touch (h : Sound options uses inner) (hentry : inner.entry id = some stored) :
    Sound options (uses ++ [id]) { inner with order := inner.order.filter (· ≠ id) ++ [id] } :=
  ⟨h.mirrored.touch hentry, h.count, h.bytes, h.depth, h.recent.touch hentry⟩

/-- A purge takes no response that a stored one continues. -/
theorem purge_right (h : Sound options uses inner) (olderThanUnix : ℕ) :
    ∀ id ∈ inner.ids, id ∉ (inner.purge olderThanUnix).2.ids → ¬ inner.continued id := by
  intro id hmem hgone
  rw [MemoryInner.purge, mem_ids_removeAll, not_and_not_right] at hgone
  obtain ⟨entry, hentry, rfl⟩ := mem_map.mp (hgone hmem)
  have hkept := (mem_filter.mp hentry).2
  rw [Bool.and_eq_true, h.mirrored.pins_isNone_iff entry.1] at hkept
  exact hkept.2

/-- A fitting call does what it should, and leaves the store sound. -/
theorem step_right (h : Sound options uses inner) (call : Call) (hfits : CallFits options inner call) :
    Right options inner call (step options inner call) ∧
      Sound options (uses ++ used call (step options inner call).1) (step options inner call).2 := by
  cases call with
  | put response => exact put_right h hfits
  | get id =>
    refine ⟨trivial, ?_⟩
    rw [step, MemoryInner.get]
    cases hentry : inner.entry id with
    | none => simpa [used] using h
    | some stored => exact h.touch hentry
  | delete id =>
    refine ⟨trivial, ?_⟩
    have hremoved := h.remove id
    simpa [used, step, MemoryInner.delete] using hremoved
  | purge olderThanUnix =>
    refine ⟨purge_right h olderThanUnix, ?_⟩
    rw [step, MemoryInner.purge, used, append_nil]
    · exact h.removeAll _
    all_goals simp
  | inputItems id =>
    refine ⟨trivial, ?_⟩
    rw [step, MemoryInner.inputItems, MemoryInner.get]
    cases hentry : inner.entry id with
    | none => simpa [used] using h
    | some stored => exact h.touch hentry

/-! ### Runs -/

theorem Sound.start (options : StoreOptions) : Sound options [] {} where
  mirrored := ⟨.nil, .nil, fun _ => Iff.rfl, fun _ => rfl, rfl⟩
  count := Nat.zero_le _
  bytes := Nat.zero_le _
  depth entry h := by cases h
  recent := rfl

theorem Reaches.sound (h : Reaches options uses inner) : Sound options uses inner := by
  induction h with
  | start => exact .start options
  | call h call hfits ih => exact (step_right ih call hfits).2

/-- **Runs of the store**: in every state that fitting calls reach the store is sound, and every fitting
call there does what it should. -/
theorem store_runs (h : Reaches options uses inner) :
    Sound options uses inner ∧
      ∀ call, CallFits options inner call → Right options inner call (step options inner call) :=
  ⟨h.sound, fun call hfits => (step_right h.sound call hfits).1⟩

/-- A response of the given size under an id. -/
def sized (id : String) (bytes : ℕ) (previousResponseId : Option String) : StoredResponse where
  response := .object [("id", .string id)]
  inputItems := []
  createdAt := 0
  bytes := bytes
  previousResponseId := previousResponseId
  chainDepth := 1

theorem putFits_of_check (id : String) (stored : StoredResponse) (hcheck : inner.check options response = .ok (id, stored))
    (hbytes : inner.bytes + stored.bytes < usizeBound)
    (hpass : passBounds options (settled id (inner.insert id stored).entries) = false)
    (hdepth : 0 < options.maxChainDepth) : PutFits options inner response := by
  intro id' stored' hcheck'
  rw [hcheck] at hcheck'
  cases hcheck'
  rw [hpass]
  exact ⟨hbytes, fun _ => hdepth⟩

/-- A store of a hundred bytes. -/
def hundred : StoreOptions := { maxBytes := 100 }

/-- A small response, and one that takes most of the room. -/
def crowded : MemoryInner :=
  (step hundred (step hundred {} (.put (sized "x" 10 none))).2 (.put (sized "a" 60 none))).2

theorem crowded_reaches : Reaches hundred ["x", "a"] crowded := by
  have hfirst : Reaches hundred ["x"] (step hundred {} (.put (sized "x" 10 none))).2 :=
    Reaches.start.call (.put (sized "x" 10 none))
      (putFits_of_check "x" (sized "x" 10 none) rfl (by decide) (by decide) (by decide))
  exact hfirst.call (.put (sized "a" 60 none))
    (putFits_of_check "a" (sized "a" 60 none) rfl (by decide) (by decide) (by decide))

theorem store_runs_crowded : Sound hundred ["x", "a"] crowded ∧
    ∀ call, CallFits hundred crowded call → Right hundred crowded call (step hundred crowded call) :=
  store_runs crowded_reaches

/-- A put that evicts and then finds the rest pinned is refused, and what it evicted is gone. -/
theorem put_refused_evicts : Reaches hundred ["x", "a"] crowded ∧
    (∃ error, (step hundred crowded (.put (sized "c" 50 (some "a")))).1 = .put (.error error)) ∧
    (crowded.entry "x").isSome = true ∧
    (step hundred crowded (.put (sized "c" 50 (some "a")))).2.entry "x" = none :=
  ⟨crowded_reaches, ⟨_, rfl⟩, rfl, rfl⟩

/-- A store whose chains may have no response keeps first turns all the same. -/
example : (step { maxChainDepth := 0 } {} (.put (sized "x" 10 none))).2.ids = ["x"] := rfl

end Retrograd.Openai
