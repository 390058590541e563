import Retrograd.Logic.Json
import Mathlib.Data.List.Basic

/-!
# Merging the client's parameters

A partial `params` tree is merged onto a configuration document **in place**: objects merge member by
member and every other value replaces wholesale. An explicit `null` is refused, and it is met only
when the walk reaches it: what was merged before it stays merged.

The document is a state that is threaded through the walk, so that what an error leaves behind is a
value too. The members of an object are in the order of their names, as the map keeps them.
-/

namespace Retrograd.Plan

open Logic List Option

/-- Why a merge was refused, with the pointer of the offending field. -/
structure MergeError where
  pointer : String
  message : String
  deriving DecidableEq, Repr

def nullMessage : String :=
  "an explicit null does not clear a field; omit it to keep the default"

/-- One reference token of a pointer, escaped. -/
def escape (token : String) : String :=
  String.ofList (token.toList.flatMap fun c =>
    if c = '~' then ['~', '0'] else if c = '/' then ['~', '1'] else [c])

/-- `PointerPath::with_segment`: the pointer of a child. -/
def withSegment (pointer key : String) : String := pointer ++ "/" ++ escape key

/-- The pointer of a path from some place on. -/
def pointerFrom (pointer : String) (path : List String) : String := path.foldl withSegment pointer

/-! ### Objects -/

/-- The members of an object; a value that is none is replaced by the empty object. -/
def objectOf : Json → List (String × Json)
  | .object members => members
  | _ => []

def isNull : Json → Bool
  | .null => true
  | _ => false

/-- `Map::get`. -/
def lookup (members : List (String × Json)) (key : String) : Option Json :=
  (members.find? fun entry => entry.1 = key).map Prod.snd

/-- A member that is not in the map, at its place in the order. -/
def insertMember (key : String) (value : Json) : List (String × Json) → List (String × Json)
  | [] => [(key, value)]
  | member :: members =>
    if key < member.1 then (key, value) :: member :: members
    else member :: insertMember key value members

/-- `Map::entry` with `or_insert(Value::Null)`. -/
def entry (members : List (String × Json)) (key : String) : List (String × Json) :=
  if (lookup members key).isSome then members else insertMember key .null members

/-- What is written to the slot of a member. -/
def setSlot (key : String) (value : Json) : List (String × Json) → List (String × Json)
  | [] => []
  | member :: members =>
    if member.1 = key then (key, value) :: members else member :: setSlot key value members

/-! ### The merge -/

mutual

/-- The document after a merge, and whether it was refused. -/
def mergeAt (base : Json) : Json → String → Json × Except MergeError Unit
  | .null, pointer => (base, .error ⟨pointer, nullMessage⟩)
  | .bool b, _ => (.bool b, .ok ())
  | .number text, _ => (.number text, .ok ())
  | .string s, _ => (.string s, .ok ())
  | .array items, _ => (.array items, .ok ())
  | .object incoming, pointer =>
    let merged := mergeMembers (objectOf base) incoming pointer
    (.object merged.1, merged.2)

def mergeMembers (target : List (String × Json)) :
    List (String × Json) → String → List (String × Json) × Except MergeError Unit
  | [], _ => (target, .ok ())
  | (key, value) :: incoming, pointer =>
    let slot := ((lookup (entry target key) key).getD .null)
    let merged :=
      if value.isObject then
        mergeAt (if isNull slot then .object [] else slot) value (withSegment pointer key)
      else if isNull value then (slot, .error ⟨withSegment pointer key, nullMessage⟩)
      else (value, .ok ())
    let target := setSlot key merged.1 (entry target key)
    match merged.2 with
    | .error error => (target, .error error)
    | .ok () => mergeMembers target incoming pointer

end

/-- Deep-merges a partial `params` tree onto `base`. -/
def deepMerge (base params : Json) : Json × Except MergeError Unit := mergeAt base params ""

mutual

def walk : Json → String → Except MergeError Unit
  | .null, pointer => .error ⟨pointer, nullMessage⟩
  | .bool _, _ => .ok ()
  | .number _, _ => .ok ()
  | .string _, _ => .ok ()
  | .array _, _ => .ok ()
  | .object members, pointer => walkMembers members pointer

def walkMembers : List (String × Json) → String → Except MergeError Unit
  | [], _ => .ok ()
  | (key, value) :: members, pointer =>
    match walk value (withSegment pointer key) with
    | .error error => .error error
    | .ok () => walkMembers members pointer

end

/-- Refuses an explicit `null` anywhere in a `params` tree. -/
def rejectNulls (params : Json) : Except MergeError Unit := walk params ""

/-! ### One member -/

variable {members target incoming : List (String × Json)} {key other pointer : String}
  {base params value : Json}

@[simp] theorem lookup_nil : lookup [] key = none := rfl

theorem lookup_cons (member : String × Json) :
    lookup (member :: members) key = if member.1 = key then some member.2 else lookup members key := by
  rw [lookup, find?_cons]
  by_cases h : member.1 = key
  · rw [if_pos h, decide_eq_true h]
    rfl
  · rw [if_neg h, decide_eq_false h]
    rfl

theorem lookup_insertMember_self (h : lookup members key = none) :
    lookup (insertMember key value members) key = some value := by
  induction members with
  | nil => rw [insertMember, lookup_cons, if_pos rfl]
  | cons member members ih =>
    rw [lookup_cons] at h
    split_ifs at h with hkey
    rw [insertMember]
    split_ifs
    · rw [lookup_cons, if_pos rfl]
    · rw [lookup_cons, if_neg hkey, ih h]

theorem lookup_insertMember_of_ne (hne : other ≠ key) :
    lookup (insertMember key value members) other = lookup members other := by
  induction members with
  | nil => rw [insertMember, lookup_cons, if_neg hne.symm]
  | cons member members ih =>
    rw [insertMember]
    split_ifs
    · rw [lookup_cons, if_neg hne.symm]
    · rw [lookup_cons, lookup_cons, ih]

theorem lookup_setSlot_self (h : (lookup members key).isSome) :
    lookup (setSlot key value members) key = some value := by
  induction members with
  | nil => cases h
  | cons member members ih =>
    rw [setSlot]
    by_cases hkey : member.1 = key
    · rw [if_pos hkey, lookup_cons, if_pos rfl]
    · rw [lookup_cons, if_neg hkey] at h
      rw [if_neg hkey, lookup_cons, if_neg hkey, ih h]

theorem lookup_setSlot_of_ne (hne : other ≠ key) :
    lookup (setSlot key value members) other = lookup members other := by
  induction members with
  | nil => rfl
  | cons member members ih =>
    rw [setSlot]
    by_cases hkey : member.1 = key
    · rw [if_pos hkey, lookup_cons, lookup_cons, if_neg hne.symm, if_neg (hkey ▸ hne.symm)]
    · rw [if_neg hkey, lookup_cons, lookup_cons, ih]

theorem setSlot_eq (h : lookup members key = some value) : setSlot key value members = members := by
  induction members with
  | nil => rfl
  | cons member members ih =>
    rw [lookup_cons] at h
    rw [setSlot]
    by_cases hkey : member.1 = key
    · rw [if_pos hkey] at h
      rw [if_pos hkey, ← hkey, ← some.inj h]
    · rw [if_neg hkey] at h
      rw [if_neg hkey, ih h]

/-- A member after its slot was made and written. -/
def put (key : String) (value : Json) (members : List (String × Json)) : List (String × Json) :=
  setSlot key value (entry members key)

theorem lookup_entry : lookup (entry members key) key = some ((lookup members key).getD .null) := by
  rw [entry]
  cases h : lookup members key with
  | none => exact lookup_insertMember_self h
  | some old => exact h

@[simp] theorem lookup_put_self : lookup (put key value members) key = some value :=
  lookup_setSlot_self (by rw [lookup_entry, isSome_some])

theorem lookup_put_of_ne (hne : other ≠ key) :
    lookup (put key value members) other = lookup members other := by
  rw [put, lookup_setSlot_of_ne hne, entry]
  split_ifs
  · rfl
  · exact lookup_insertMember_of_ne hne

/-- Writing a member changes nothing exactly when the map has it. -/
theorem put_eq_iff : put key value members = members ↔ lookup members key = some value := by
  constructor
  · intro h
    rw [← h, lookup_put_self]
  · intro h
    rw [put, entry, h, if_pos isSome_some]
    exact setSlot_eq h

/-- A member of `params` is merged into the member of the document, or into a null one. -/
theorem mergeSlot_eq (slot : Json) :
    (if value.isObject then mergeAt (if isNull slot then .object [] else slot) value pointer
      else if isNull value then (slot, .error ⟨pointer, nullMessage⟩)
      else (value, .ok ())) = mergeAt slot value pointer := by
  cases value with
  | object members =>
    -- a null slot and an empty object have the same members
    cases slot <;> rfl
  | _ => rfl

theorem mergeMembers_cons_error {error : MergeError}
    (h : (mergeAt ((lookup target key).getD .null) value (withSegment pointer key)).2 =
      .error error) :
    mergeMembers target ((key, value) :: incoming) pointer =
      (put key (mergeAt ((lookup target key).getD .null) value (withSegment pointer key)).1 target,
        .error error) := by
  rw [mergeMembers, lookup_entry, getD_some, mergeSlot_eq, h]
  rfl

theorem mergeMembers_cons_ok
    (h : (mergeAt ((lookup target key).getD .null) value (withSegment pointer key)).2 = .ok ()) :
    mergeMembers target ((key, value) :: incoming) pointer =
      mergeMembers
        (put key (mergeAt ((lookup target key).getD .null) value (withSegment pointer key)).1 target)
        incoming pointer := by
  rw [mergeMembers, lookup_entry, getD_some, mergeSlot_eq, h]
  rfl

/-! ### Errors -/

/-- **The merge is refused where the check refuses**, and with the same error. -/
theorem mergeAt_snd (base params : Json) (pointer : String) :
    (mergeAt base params pointer).2 = walk params pointer := by
  induction params using Json.induct generalizing base pointer with
  | object members ih =>
    rw [mergeAt, walk]
    dsimp only
    generalize objectOf base = target
    induction members generalizing target with
    | nil => rfl
    | cons member members ihmembers =>
      obtain ⟨key, value⟩ := member
      have hfirst := ih _ mem_cons_self ((lookup target key).getD .null)
        (withSegment pointer key)
      have hrest := ihmembers fun member hmember => ih member (mem_cons_of_mem _ hmember)
      dsimp only at hfirst
      rw [walkMembers, ← hfirst]
      cases hmerged : (mergeAt ((lookup target key).getD .null) value
          (withSegment pointer key)).2 with
      | error error => rw [mergeMembers_cons_error hmerged]
      | ok _ => rw [mergeMembers_cons_ok hmerged, hrest]
  | _ => rw [mergeAt, walk]

/-- The value at a path of member names. -/
def valueAt : Json → List String → Option Json
  | json, [] => some json
  | json, key :: path => (lookup (objectOf json) key).bind fun child => valueAt child path

/-- A value whose objects have each name once, as the map keeps them. -/
inductive IsMap : Json → Prop
  | leaf {json : Json} (h : json.isObject = false) : IsMap json
  | object {members : List (String × Json)} (hnames : (members.map Prod.fst).Nodup)
      (hmembers : ∀ member ∈ members, IsMap member.2) : IsMap (.object members)

theorem IsMap.nodup (h : IsMap (.object members)) : (members.map Prod.fst).Nodup := by
  cases h with
  | leaf h => cases h
  | object hnames _ => exact hnames

theorem IsMap.member (h : IsMap (.object members)) {member : String × Json}
    (hmember : member ∈ members) : IsMap member.2 := by
  cases h with
  | leaf h => cases h
  | object _ hmembers => exact hmembers member hmember

theorem lookup_eq_some_of_mem (hnames : (members.map Prod.fst).Nodup)
    (h : (key, value) ∈ members) : lookup members key = some value := by
  induction members with
  | nil => cases h
  | cons member members ih =>
    rw [map_cons, nodup_cons] at hnames
    rw [lookup_cons]
    rcases mem_cons.mp h with rfl | h
    · rw [if_pos rfl]
    · rw [if_neg, ih hnames.2 h]
      rintro rfl
      exact hnames.1 (List.mem_map.mpr ⟨_, h, rfl⟩)

theorem mem_of_lookup (h : lookup members key = some value) : (key, value) ∈ members := by
  rw [lookup, map_eq_some_iff] at h
  obtain ⟨member, hmember, rfl⟩ := h
  have hkey := find?_some hmember
  rw [← of_decide_eq_true hkey]
  exact mem_of_find?_eq_some hmember

/-- **The error names a null that is there.** -/
theorem of_walk_error {error : MergeError} (hmap : IsMap params)
    (h : walk params pointer = .error error) : error.message = nullMessage ∧
      ∃ path, error.pointer = pointerFrom pointer path ∧ valueAt params path = some .null := by
  induction params using Json.induct generalizing pointer with
  | null =>
    rw [walk] at h
    rw [← Except.error.inj h]
    exact ⟨rfl, [], rfl, rfl⟩
  | object members ih =>
    rw [walk] at h
    -- the refusal is that of one of the members
    obtain ⟨key, value, hmember, hvalue⟩ : ∃ key value, (key, value) ∈ members ∧
        walk value (withSegment pointer key) = .error error := by
      clear ih hmap
      induction members with
      | nil => rw [walkMembers] at h; cases h
      | cons member members ihmembers =>
        obtain ⟨key, value⟩ := member
        rw [walkMembers] at h
        split at h
        next error' herror => exact ⟨key, value, mem_cons_self, herror.trans h⟩
        next hok =>
          obtain ⟨key', value', hmember, hvalue⟩ := ihmembers h
          exact ⟨key', value', mem_cons_of_mem _ hmember, hvalue⟩
    obtain ⟨hmessage, path, hpointer, hnull⟩ := ih _ hmember (hmap.member hmember) hvalue
    refine ⟨hmessage, key :: path, hpointer, ?_⟩
    rw [valueAt, objectOf, lookup_eq_some_of_mem hmap.nodup hmember]
    exact hnull
  | _ => rw [walk] at h; cases h

/-! ### What a merge writes -/

/-- Members that are not merged stay. -/
theorem lookup_mergeMembers_of_notMem (h : other ∉ incoming.map Prod.fst) :
    lookup (mergeMembers target incoming pointer).1 other = lookup target other := by
  induction incoming generalizing target with
  | nil => rw [mergeMembers]
  | cons member incoming ih =>
    obtain ⟨key, value⟩ := member
    rw [map_cons, mem_cons, not_or] at h
    cases hmerged : (mergeAt ((lookup target key).getD .null) value
        (withSegment pointer key)).2 with
    | error error => rw [mergeMembers_cons_error hmerged, lookup_put_of_ne h.1]
    | ok _ => rw [mergeMembers_cons_ok hmerged, ih h.2, lookup_put_of_ne h.1]

/-- Each member of `params` is merged into its own member of the document. -/
theorem lookup_mergeMembers (hnames : (incoming.map Prod.fst).Nodup)
    (hok : walkMembers incoming pointer = .ok ()) (h : lookup incoming key = some value) :
    lookup (mergeMembers target incoming pointer).1 key =
      some (mergeAt ((lookup target key).getD .null) value (withSegment pointer key)).1 := by
  induction incoming generalizing target with
  | nil => cases h
  | cons member incoming ih =>
    obtain ⟨first, child⟩ := member
    rw [map_cons, nodup_cons] at hnames
    rw [walkMembers] at hok
    split at hok
    · cases hok
    next hchild =>
      rw [mergeMembers_cons_ok (by rw [mergeAt_snd, hchild])]
      rw [lookup_cons] at h
      split_ifs at h with hkey
      · obtain rfl : first = key := hkey
        obtain rfl : child = value := some.inj h
        rw [lookup_mergeMembers_of_notMem hnames.1, lookup_put_self]
      · rw [ih hnames.2 hok h, lookup_put_of_ne (Ne.symm hkey)]

theorem walk_of_lookup (hok : walkMembers incoming pointer = .ok ())
    (h : lookup incoming key = some value) : walk value (withSegment pointer key) = .ok () := by
  induction incoming with
  | nil => cases h
  | cons member incoming ih =>
    obtain ⟨first, child⟩ := member
    rw [walkMembers] at hok
    split at hok
    · cases hok
    next hchild =>
      rw [lookup_cons] at h
      split_ifs at h with hkey
      · obtain rfl : first = key := hkey
        obtain rfl : child = value := some.inj h
        exact hchild
      · exact ih hok h

/-- A path that `params` neither sets nor passes through: somewhere on it `params` is an object
without the next name. -/
def Missed : Json → List String → Prop
  | _, [] => False
  | json, key :: path => json.isObject ∧ ∀ child, lookup (objectOf json) key = some child →
    Missed child path

/-- The object at a path, or the empty object where there is none. -/
def objectAt (json : Json) (path : List String) : Json :=
  .object (((valueAt json path).map objectOf).getD [])

theorem valueAt_null (path : List String) (hne : path ≠ []) : valueAt .null path = none := by
  obtain ⟨key, path, rfl⟩ := exists_cons_of_ne_nil hne
  rfl

/-- The value below a member, taken as null where there is none. -/
theorem valueAt_cons (path : List String) : valueAt base (key :: path) =
    (lookup (objectOf base) key).bind fun child => valueAt child path := rfl

/-- What is at a leaf of `params` is there after the merge. -/
theorem valueAt_mergeAt_leaf {path : List String} (hmap : IsMap params)
    (hok : walk params pointer = .ok ()) (h : valueAt params path = some value)
    (hleaf : value.isObject = false) :
    valueAt (mergeAt base params pointer).1 path = some value := by
  induction path generalizing base params pointer with
  | nil =>
    obtain rfl : params = value := some.inj h
    cases params with
    | null => rw [walk] at hok; cases hok
    | object members => cases hleaf
    | _ => rw [mergeAt]; rfl
  | cons key path ih =>
    obtain ⟨child, hchild, hvalue⟩ := bind_eq_some_iff.mp h
    clear h
    cases params with
    | object incoming =>
      rw [walk] at hok
      rw [mergeAt, valueAt_cons, objectOf, lookup_mergeMembers hmap.nodup hok hchild,
        bind_some]
      exact ih (hmap.member (mem_of_lookup hchild)) (walk_of_lookup hok hchild) hvalue
    | _ => cases hchild

/-- An empty object of `params` is an object after the merge, with what was in it. -/
theorem valueAt_mergeAt_empty {path : List String} (hmap : IsMap params)
    (hok : walk params pointer = .ok ()) (h : valueAt params path = some (.object [])) :
    valueAt (mergeAt base params pointer).1 path = some (objectAt base path) := by
  induction path generalizing base params pointer with
  | nil =>
    obtain rfl : params = .object [] := some.inj h
    rw [mergeAt, mergeMembers]
    rfl
  | cons key path ih =>
    obtain ⟨child, hchild, hvalue⟩ := bind_eq_some_iff.mp h
    clear h
    cases params with
    | object incoming =>
      rw [walk] at hok
      rw [mergeAt, valueAt_cons, objectOf, lookup_mergeMembers hmap.nodup hok hchild,
        bind_some, ih (hmap.member (mem_of_lookup hchild)) (walk_of_lookup hok hchild) hvalue]
      rw [objectAt, objectAt, valueAt_cons]
      cases lookup (objectOf base) key with
      | none =>
        -- a member that was not there was made null
        cases path <;> rfl
      | some old => rfl
    | _ => cases hchild

/-- What `params` misses is what it was. -/
theorem valueAt_mergeAt_missed {path : List String} (hmap : IsMap params)
    (hok : walk params pointer = .ok ()) (h : Missed params path) :
    valueAt (mergeAt base params pointer).1 path = valueAt base path := by
  induction path generalizing base params pointer with
  | nil => cases h
  | cons key path ih =>
    obtain ⟨hobject, h⟩ := h
    cases params with
    | object incoming =>
      rw [walk] at hok
      rw [mergeAt, valueAt_cons, valueAt_cons, objectOf]
      cases hchild : lookup incoming key with
      | none =>
        have hnot : key ∉ incoming.map Prod.fst := by
          intro hmem
          obtain ⟨member, hmember, rfl⟩ := List.mem_map.mp hmem
          rw [lookup_eq_some_of_mem hmap.nodup hmember] at hchild
          cases hchild
        rw [lookup_mergeMembers_of_notMem hnot]
      | some child =>
        have hmissed := h child hchild
        rw [lookup_mergeMembers hmap.nodup hok hchild, bind_some,
          ih (hmap.member (mem_of_lookup hchild)) (walk_of_lookup hok hchild) hmissed]
        cases lookup (objectOf base) key with
        | none =>
          refine valueAt_null path fun hnil => ?_
          rw [hnil] at hmissed
          exact hmissed
        | some old => rfl
    | _ => cases hobject

/-! ### What a merge leaves as it is -/

mutual

/-- The document has all that the merge writes before the first null of `params`: every value
before it, an object for every object it goes into, and a member for the null itself. -/
def Untouched (base : Json) : Json → Prop
  | .null => True
  | .bool b => base = .bool b
  | .number text => base = .number text
  | .string s => base = .string s
  | .array items => base = .array items
  | .object incoming => base.isObject ∧ UntouchedMembers (objectOf base) incoming

def UntouchedMembers (target : List (String × Json)) : List (String × Json) → Prop
  | [] => True
  | (key, value) :: incoming =>
    (∃ child, lookup target key = some child ∧ Untouched child value) ∧
      ((rejectNulls value).isOk → UntouchedMembers target incoming)

end

/-- Whether there is a null does not depend on where the walk starts. -/
theorem walk_isOk (params : Json) (pointer pointer' : String) :
    (walk params pointer).isOk = (walk params pointer').isOk := by
  induction params using Json.induct generalizing pointer pointer' with
  | object members ih =>
    rw [walk, walk]
    induction members with
    | nil => rw [walkMembers, walkMembers]
    | cons member members ihmembers =>
      obtain ⟨key, value⟩ := member
      have hfirst := ih _ mem_cons_self (withSegment pointer key) (withSegment pointer' key)
      have hrest := ihmembers fun member hmember => ih member (mem_cons_of_mem _ hmember)
      dsimp only at hfirst
      rw [walkMembers, walkMembers]
      cases h : walk value (withSegment pointer key) <;>
        cases h' : walk value (withSegment pointer' key) <;> rw [h, h'] at hfirst
      · rfl
      · cases hfirst
      · cases hfirst
      · exact hrest
  | null => rw [walk, walk]; rfl
  | _ => rw [walk, walk]

/-- **The merge changes nothing exactly when the document has all that it writes.** -/
theorem mergeAt_eq_iff (hmap : IsMap params) :
    (mergeAt base params pointer).1 = base ↔ Untouched base params := by
  induction params using Json.induct generalizing base pointer with
  | object incoming ih =>
    rw [mergeAt, Untouched]
    dsimp only
    have hmembers : ∀ target, (mergeMembers target incoming pointer).1 = target ↔
        UntouchedMembers target incoming := by
      have hnames := hmap.nodup
      have hmaps := fun member (h : member ∈ incoming) => hmap.member h
      clear hmap
      intro target
      induction incoming generalizing target with
      | nil => rw [mergeMembers, UntouchedMembers]; exact ⟨fun _ => trivial, fun _ => rfl⟩
      | cons member incoming ihmembers =>
        obtain ⟨key, value⟩ := member
        rw [map_cons, nodup_cons] at hnames
        have hrest := ihmembers (fun member hmember => ih member (mem_cons_of_mem _ hmember))
          hnames.2 fun member hmember => hmaps member (mem_cons_of_mem _ hmember)
        -- the member is written as it was exactly when the document has what is merged into it
        have hfirst : lookup target key = some (mergeAt ((lookup target key).getD .null) value
            (withSegment pointer key)).1 ↔
              ∃ child, lookup target key = some child ∧ Untouched child value := by
          cases hchild : lookup target key with
          | none => exact ⟨fun h => absurd h.symm (some_ne_none _),
              fun ⟨_, h, _⟩ => absurd h.symm (some_ne_none _)⟩
          | some child =>
            rw [getD_some, some.injEq, eq_comm,
              ih _ mem_cons_self (hmaps _ mem_cons_self)]
            exact ⟨fun h => ⟨child, rfl, h⟩, fun ⟨_, heq, h⟩ => some.inj heq ▸ h⟩
        have hnull : (rejectNulls value).isOk = (mergeAt ((lookup target key).getD .null) value
            (withSegment pointer key)).2.isOk := by
          rw [mergeAt_snd]
          exact walk_isOk value _ _
        rw [UntouchedMembers, ← hfirst, hnull]
        by_cases hput : lookup target key = some (mergeAt ((lookup target key).getD .null) value
            (withSegment pointer key)).1
        · rw [and_iff_right hput]
          cases hmerged : (mergeAt ((lookup target key).getD .null) value
              (withSegment pointer key)).2 with
          | error error =>
            rw [mergeMembers_cons_error hmerged, put_eq_iff]
            exact ⟨fun _ h => (Bool.false_ne_true h).elim, fun _ => hput⟩
          | ok _ =>
            rw [mergeMembers_cons_ok hmerged, put_eq_iff.mpr hput, hrest]
            exact ⟨fun h _ => h, fun h => h rfl⟩
        · refine ⟨fun h => absurd ?_ hput, fun h => absurd h.1 hput⟩
          -- whatever follows, the member stays as it was written
          have hwritten : lookup (mergeMembers target ((key, value) :: incoming) pointer).1 key =
              some (mergeAt ((lookup target key).getD .null) value (withSegment pointer key)).1 := by
            cases hmerged : (mergeAt ((lookup target key).getD .null) value
                (withSegment pointer key)).2 with
            | error error => rw [mergeMembers_cons_error hmerged, lookup_put_self]
            | ok _ =>
              rw [mergeMembers_cons_ok hmerged, lookup_mergeMembers_of_notMem hnames.1,
                lookup_put_self]
          rw [← hwritten, h]
    cases base with
    | object members =>
      rw [Json.object.injEq, objectOf, hmembers members]
      exact ⟨fun h => ⟨rfl, h⟩, fun h => h.2⟩
    | _ => exact ⟨fun h => Json.noConfusion h, fun h => (Bool.false_ne_true h.1).elim⟩
  | null => rw [mergeAt, Untouched]; exact ⟨fun _ => trivial, fun _ => rfl⟩
  | _ => rw [mergeAt, Untouched]; exact eq_comm

theorem untouchedMembers_of_forall (h : ∀ member ∈ incoming,
    ∃ child, lookup target member.1 = some child ∧ Untouched child member.2) :
    UntouchedMembers target incoming := by
  induction incoming with
  | nil => rw [UntouchedMembers]; trivial
  | cons member incoming ih =>
    obtain ⟨key, value⟩ := member
    rw [UntouchedMembers]
    exact ⟨h _ mem_cons_self, fun _ => ih fun member hmember =>
      h member (mem_cons_of_mem _ hmember)⟩

/-- A merged document has all that was merged into it. -/
theorem untouched_mergeAt (hmap : IsMap params) (hok : walk params pointer = .ok ()) :
    Untouched (mergeAt base params pointer).1 params := by
  induction params using Json.induct generalizing base pointer with
  | object incoming ih =>
    rw [walk] at hok
    rw [mergeAt, Untouched]
    refine ⟨rfl, untouchedMembers_of_forall fun member hmember => ?_⟩
    have hchild := lookup_eq_some_of_mem hmap.nodup hmember
    exact ⟨_, lookup_mergeMembers hmap.nodup hok hchild,
      ih member hmember (hmap.member hmember) (walk_of_lookup hok hchild)⟩
  | null => rw [walk] at hok; cases hok
  | _ => rw [mergeAt, Untouched]

/-! ### The merge of a document -/

/-- What a merge says and what it leaves behind when it is taken. -/
structure Merged (base params : Json) : Prop where
  refused : (deepMerge base params).2 = rejectNulls params
  named : ∀ error, rejectNulls params = .error error → error.message = nullMessage ∧
    ∃ path, error.pointer = pointerFrom "" path ∧ valueAt params path = some .null
  leaf : rejectNulls params = .ok () → ∀ path value, valueAt params path = some value →
    value.isObject = false → valueAt (deepMerge base params).1 path = some value
  empty : rejectNulls params = .ok () → ∀ path, valueAt params path = some (.object []) →
    valueAt (deepMerge base params).1 path = some (objectAt base path)
  missed : rejectNulls params = .ok () → ∀ path, Missed params path →
    valueAt (deepMerge base params).1 path = valueAt base path
  again : rejectNulls params = .ok () →
    deepMerge (deepMerge base params).1 params = ((deepMerge base params).1, .ok ())

/-- **Merging is exact**: what `params` sets is there, what it misses is unchanged, and merging it
again changes nothing. A refused merge leaves the document as it was exactly when the document
already has all that `params` sets before its first null. -/
theorem deepMerge_merged (base : Json) (hmap : IsMap params) : Merged base params ∧
    ((∀ error, (deepMerge base params).2 = .error error → (deepMerge base params).1 = base) ↔
      rejectNulls params = .ok () ∨ Untouched base params) := by
  have hrefused : (deepMerge base params).2 = rejectNulls params := mergeAt_snd base params ""
  refine ⟨⟨hrefused, fun error h => of_walk_error hmap h,
    fun hok path value h hleaf => valueAt_mergeAt_leaf hmap hok h hleaf,
    fun hok path h => valueAt_mergeAt_empty hmap hok h,
    fun hok path h => valueAt_mergeAt_missed hmap hok h, fun hok => ?_⟩, ?_, ?_⟩
  · exact Prod.ext ((mergeAt_eq_iff hmap).mpr (untouched_mergeAt hmap hok))
      ((mergeAt_snd _ _ _).trans hok)
  · intro h
    cases hwalk : rejectNulls params with
    | ok _ => exact .inl rfl
    | error error => exact .inr ((mergeAt_eq_iff hmap).mp (h error (hrefused.trans hwalk)))
  · rintro (hok | huntouched) error herror
    · rw [hrefused, hok] at herror
      cases herror
    · exact (mergeAt_eq_iff hmap).mpr huntouched

/-- A context that is overridden. -/
theorem deepMerge_merged_ctx :
    valueAt (deepMerge (.object [("training", .object [("ctx", .number "1024"),
        ("lr", .number "1e-4")])])
      (.object [("training", .object [("ctx", .number "2048")])])).1 ["training", "ctx"] =
      some (.number "2048") := by
  have hmap : IsMap (.object [("training", .object [("ctx", .number "2048")])]) := by
    refine .object (by decide) fun member hmember => ?_
    rw [List.mem_singleton.mp hmember]
    refine .object (by decide) fun member hmember => ?_
    rw [List.mem_singleton.mp hmember]
    exact .leaf rfl
  exact (deepMerge_merged _ hmap).1.leaf rfl _ _ rfl rfl

/-- A value that stands before the null is written, and stays written. -/
theorem deepMerge_damaged :
    (deepMerge (.object [("a", .number "1")]) (.object [("a", .number "2"), ("b", .null)])).2 =
        .error ⟨"/b", nullMessage⟩ ∧
      (deepMerge (.object [("a", .number "1")]) (.object [("a", .number "2"), ("b", .null)])).1 ≠
        .object [("a", .number "1")] := by
  refine ⟨rfl, fun h => ?_⟩
  have hlength := congrArg (fun json => (objectOf json).length) h
  exact absurd hlength (by decide)

end Retrograd.Plan
