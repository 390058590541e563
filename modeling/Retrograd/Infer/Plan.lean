import Retrograd.Infer.Prepare

/-!
# What a composed plan holds

Every row of a composed plan **continues the slot** of a live member: it starts where the slot
ends and takes the next tokens of the member's prompt and history, all of them when the row is
sampled. No two rows belong to one member, so a step extends each slot by one row at most.
-/

namespace Retrograd.Infer

open Logic List Option

variable {w : World} {s s' : Scheduler} {pending : List Queued} {g m : ℕ} {group : LiveGroup}
  {member : LiveMember} {row row' : StepRow} {kind kind' : RowKind}

/-! ### Pure programs that may fail -/

/-- A pure program returns a value allowed by `Q`, or fails with an error. -/
def Yields {α : Type} (r : Except Stop α) (Q : α → Prop) : Prop :=
  match r with
  | .ok a => Q a
  | .error stop => ∃ error, stop = .error error

theorem Yields.mono {α : Type} {r : Except Stop α} {Q Q' : α → Prop} (h : Yields r Q)
    (hq : ∀ a, Q a → Q' a) : Yields r Q' := by
  cases r with
  | ok a => exact hq a h
  | error stop => exact h

theorem Yields.bind {α β : Type} {r : Except Stop α} {f : α → Except Stop β} {Q : α → Prop}
    {Q' : β → Prop} (h : Yields r Q) (hf : ∀ a, Q a → Yields (f a) Q') : Yields (r >>= f) Q' := by
  cases r with
  | ok a => exact hf a h
  | error stop => exact h

theorem yields_position (pos : ℕ) : Yields (position pos) (· = pos) := by
  unfold position
  split_ifs
  · exact rfl
  · exact ⟨_, rfl⟩

theorem Yields.mapM {α β : Type} {f : α → Except Stop β} {Q : α → β → Prop} {l : List α}
    (h : ∀ a ∈ l, Yields (f a) (Q a)) : Yields (l.mapM f) (Forall₂ Q l) := by
  induction l with
  | nil => exact .nil
  | cons a l ih =>
    rw [mapM_cons]
    refine (h a mem_cons_self).bind fun b hb => ?_
    exact (ih fun x hx => h x (mem_cons_of_mem a hx)).bind fun bs hbs => .cons hb hbs

theorem forall₂_mem {α β : Type} {R : α → β → Prop} {l : List α} {l' : List β}
    (h : Forall₂ R l l') {b : β} (hb : b ∈ l') : ∃ a ∈ l, R a b := by
  induction h with
  | nil => cases hb
  | cons hab _ ih =>
    rcases mem_cons.mp hb with rfl | hb
    · exact ⟨_, mem_cons_self, hab⟩
    · obtain ⟨a, ha, hr⟩ := ih hb
      exact ⟨a, mem_cons_of_mem _ ha, hr⟩

theorem forall₂_map {α β γ : Type} {R : α → β → Prop} {l : List α} {l' : List β} {f : α → γ}
    {f' : β → γ} (h : Forall₂ R l l') (hf : ∀ a b, R a b → f' b = f a) :
    l'.map f' = l.map f := by
  induction h with
  | nil => rfl
  | cons hab _ ih => rw [map_cons, map_cons, hf _ _ hab, ih]

/-! ### Rows -/

/-- A row that continues the slot of a live member. -/
structure RowAt (s : Scheduler) (g m : ℕ) (group : LiveGroup) (member : LiveMember)
    (row : StepRow) : Prop where
  at_ : LiveAt s g m group member
  slot : row.slot = member.slot
  adapter : row.adapter = group.adapter
  pos0 : row.pos0 = group.residentLen m member
  /-- The row's tokens follow what the slot holds. -/
  tokens : (group.prompt ++ member.history).take row.pos0 ++ row.tokens
    = (group.prompt ++ member.history).take (row.pos0 + row.tokens.length)
  pos0_le : row.pos0 + row.tokens.length ≤ (group.prompt ++ member.history).length
  tokens_ne : row.tokens ≠ []
  /-- A sampled row completes the member's context. -/
  sample : row.sample = true →
    row.pos0 + row.tokens.length = (group.prompt ++ member.history).length

/-- Which live member a row continues, in which phase of its group. -/
inductive RowFor (s : Scheduler) (row : StepRow) : RowKind → Prop where
  | decode {g m : ℕ} {group : LiveGroup} {member : LiveMember}
      (hat : RowAt s g m group member row) (phase : group.phase = .decode)
      (one : row.tokens.length = 1) : RowFor s row (.decode g m)
  | prefill {g pos finish : ℕ} {group : LiveGroup} {leader : LiveMember}
      (hat : RowAt s g group.leader group leader row) (phase : group.phase = .prefill pos)
      (lt : pos < finish) (le : finish ≤ group.prefixEnd) (len : row.tokens.length = finish - pos) :
      RowFor s row (.prefill g finish
        (if group.members.length = 1 ∧ finish = group.prompt.length then some 0 else none))
  | terminal {g m next : ℕ} {group : LiveGroup} {member : LiveMember}
      (hat : RowAt s g m group member row) (phase : group.phase = .terminal next)
      (le : next ≤ m) (one : row.tokens.length = 1) : RowFor s row (.terminal g m)

/-- The group a row belongs to. -/
def RowKind.groupIndex : RowKind → ℕ
  | .decode g _ | .prefill g _ _ | .terminal g _ => g

/-- Two rows of a plan belong to different members; terminal rows come in member order. -/
def Before : RowKind → RowKind → Prop
  | .decode g m, .decode g' m' => (g, m) ≠ (g', m')
  | .terminal g m, .terminal g' m' => g = g' → m < m'
  | .prefill g _ _, .prefill g' _ _ => g ≠ g'
  | _, _ => True

/-- A plan over the live groups: its terminal rows leave no live member out. -/
structure Planned (s : Scheduler) (plan : Plan) : Prop where
  rows : ∀ entry ∈ plan, RowFor s entry.1 entry.2
  order : plan.Pairwise fun a b => Before a.2 b.2
  terminals : ∀ {g m group next}, RowKind.terminal g m ∈ plan.map Prod.snd →
    s.live[g]? = some group → group.phase = .terminal next → ∀ {m' member}, next ≤ m' → m' < m →
    group.members[m']? = some member → member.live = true →
    RowKind.terminal g m' ∈ plan.map Prod.snd

theorem RowFor.owner (h : RowFor s row kind) :
    ∃ m group member, RowAt s kind.groupIndex m group member row := by
  cases h with
  | decode hat => exact ⟨_, _, _, hat⟩
  | prefill hat => exact ⟨_, _, _, hat⟩
  | terminal hat => exact ⟨_, _, _, hat⟩

theorem RowFor.alive (h : RowFor s row kind) : kind.alive s := by
  cases h with
  | decode hat => exact ⟨_, _, hat.at_⟩
  | prefill hat => exact ⟨_, _, hat.at_⟩
  | terminal hat => exact ⟨_, _, hat.at_⟩

theorem RowAt.congr (h : RowAt s g m group member row) (hlive : s'.live = s.live) :
    RowAt s' g m group member row :=
  { h with at_ := { h.at_ with atGroup := by rw [hlive]; exact h.at_.atGroup } }

/-- A plan only looks at the live groups. -/
theorem Planned.congr {plan : Plan} (h : Planned s plan) (hlive : s'.live = s.live) :
    Planned s' plan where
  rows entry hentry := by
    obtain ⟨row, kind⟩ := entry
    cases h.rows _ hentry with
    | decode hat phase one => exact .decode (hat.congr hlive) phase one
    | prefill hat phase lt le len => exact .prefill (hat.congr hlive) phase lt le len
    | terminal hat phase le one => exact .terminal (hat.congr hlive) phase le one
  order := h.order
  terminals hin hg := h.terminals hin (hlive ▸ hg)

theorem LiveAt.group_eq {g m m' : ℕ} {group group' : LiveGroup} {member member' : LiveMember}
    (h : LiveAt s g m group member) (h' : LiveAt s g m' group' member') : group' = group :=
  some.inj (h'.atGroup.symm.trans h.atGroup)

/-- Two rows of a plan write different slots. -/
theorem RowFor.slot_ne (hl : Live w s) (h : RowFor s row kind) (h' : RowFor s row' kind')
    (hbefore : Before kind kind') : row'.slot ≠ row.slot := by
  have hne : ∀ {g m group member g' m' group' member'}, RowAt s g m group member row →
      RowAt s g' m' group' member' row' → (g', m') ≠ (g, m) → row'.slot ≠ row.slot := by
    intro g m group member g' m' group' member' hat hat' hne
    rw [hat.slot, hat'.slot]
    exact hat.at_.slot_ne hl hat'.at_ hne
  -- rows of different kinds belong to groups in different phases
  cases h with
  | decode hat phase =>
    cases h' with
    | decode hat' => exact hne hat hat' (Ne.symm hbefore)
    | prefill hat' phase' | terminal hat' phase' =>
      refine hne hat hat' fun heq => ?_
      cases heq
      rw [hat.at_.group_eq hat'.at_, phase] at phase'
      cases phase'
  | prefill hat phase =>
    cases h' with
    | prefill hat' => exact hne hat hat' fun heq => hbefore (congrArg Prod.fst heq).symm
    | decode hat' phase' | terminal hat' phase' =>
      refine hne hat hat' fun heq => ?_
      obtain ⟨rfl, -⟩ := Prod.mk.inj heq
      rw [hat.at_.group_eq hat'.at_, phase] at phase'
      cases phase'
  | terminal hat phase =>
    cases h' with
    | terminal hat' =>
      refine hne hat hat' fun heq => ?_
      cases heq
      exact lt_irrefl _ (hbefore rfl)
    | decode hat' phase' | prefill hat' phase' =>
      refine hne hat hat' fun heq => ?_
      obtain ⟨rfl, -⟩ := Prod.mk.inj heq
      rw [hat.at_.group_eq hat'.at_, phase] at phase'
      cases phase'

/-! ### Composing the rows of one phase -/

/-- The next tokens of a list after its first `n`. -/
theorem take_append_drop_take {α : Type} (l : List α) {n k : ℕ} (h : n ≤ k) :
    l.take n ++ (l.take k).drop n = l.take k := by
  conv_rhs => rw [← take_append_drop n (l.take k)]
  rw [take_take, min_eq_left h]

theorem mem_decodeList {live : List LiveGroup} {i : ℕ × ℕ} : i ∈ decodeList live ↔
    ∃ group member, live[i.1]? = some group ∧ group.phase = .decode ∧
      group.members[i.2]? = some member ∧ member.live = true := by
  unfold decodeList
  simp only [mem_flatMap, Prod.exists, mem_zipIdx_iff_getElem?]
  constructor
  · rintro ⟨group, g, hg, hi⟩
    split_ifs at hi with hphase
    · simp only [mem_filterMap, Prod.exists, mem_zipIdx_iff_getElem?,
        ite_none_right_eq_some, some.injEq] at hi
      obtain ⟨member, m, hm, hlive, rfl⟩ := hi
      exact ⟨group, member, hg, hphase, hm, hlive⟩
    · exact absurd hi not_mem_nil
  · rintro ⟨group, member, hg, hphase, hm, hlive⟩
    refine ⟨group, i.1, hg, ?_⟩
    rw [if_pos hphase]
    simp only [mem_filterMap, Prod.exists, mem_zipIdx_iff_getElem?,
      ite_none_right_eq_some, some.injEq]
    exact ⟨member, i.2, hm, hlive, rfl⟩

private theorem fst_of_decodes {x : LiveGroup × ℕ} {i : ℕ × ℕ} (h : i ∈ if x.1.phase = .decode then
      x.1.members.zipIdx.filterMap fun (member, m) => if member.live then some (x.2, m) else none
    else []) : i.1 = x.2 := by
  split_ifs at h
  · simp only [mem_filterMap, Prod.exists, ite_none_right_eq_some,
      some.injEq] at h
    obtain ⟨_, _, _, _, rfl⟩ := h
    rfl
  · exact absurd h not_mem_nil

/-- No member decodes twice. -/
theorem nodup_decodeList (live : List LiveGroup) : (decodeList live).Nodup := by
  unfold decodeList
  rw [nodup_flatMap]
  constructor
  · rintro ⟨group, g⟩ -
    dsimp only
    split_ifs
    · refine Nodup.of_map Prod.snd (Nodup.sublist ?_ (nodup_range' (s := 0)
        (n := group.members.length)))
      rw [map_filterMap]
      refine filterMap_sublist_range fun x j hj => ?_
      split_ifs at hj
      · exact (some.inj hj).symm
      · cases hj
    · exact nodup_nil
  · have hrange : (live.zipIdx.map Prod.snd).Pairwise (· ≠ ·) := by
      rw [zipIdx_map_snd]
      exact nodup_range'
    refine (pairwise_map.mp hrange).imp fun {a b} hne => ?_
    intro i hi hj
    exact hne ((fst_of_decodes hi).symm.trans (fst_of_decodes hj))

/-- A decoding member's row: its last sampled token, right behind what its slot holds. -/
theorem yields_decodeRow (hshape : Shape group) (hok : GroupOk w s group [] fun _ => 0)
    (hat : LiveAt s g m group member) (hphase : group.phase = .decode) :
    Yields (decodeRow s.live g m) fun entry =>
      entry.2 = .decode g m ∧ RowFor s entry.1 entry.2 := by
  have hmem := mem_of_getElem? hat.atMember
  have hmember := hshape.member member hmem
  have hgenerated : 0 < member.generated := by
    have hphaseOk := hok.phase
    unfold PhaseOk at hphaseOk
    rw [hphase] at hphaseOk
    exact hphaseOk member hmem hat.live
  have hlength : (group.prompt ++ member.history).length
      = group.prompt.length + member.generated - 1 + 1 := by
    rw [length_append, hmember.history]
    omega
  have hlast : (group.prompt ++ member.history).getLast? = some member.nextToken := by
    rw [getLast?_append, hmember.next (by omega)]
    rfl
  unfold decodeRow
  rw [hat.atGroup]
  dsimp only
  rw [hat.atMember]
  refine (yields_position _).bind ?_
  rintro pos0 rfl
  refine ⟨rfl, @RowFor.decode _ _ _ _ group member ?_ hphase rfl⟩
  constructor
  case at_ => exact hat
  case slot | adapter => rfl
  case pos0 => rw [LiveGroup.residentLen, hphase]
  case tokens_ne => exact cons_ne_nil _ _
  case pos0_le => rw [hlength]; rfl
  case sample => exact fun _ => hlength.symm
  case tokens =>
    have hinit : (group.prompt ++ member.history).take (group.prompt.length + member.generated - 1)
        = (group.prompt ++ member.history).dropLast := by
      rw [dropLast_eq_take, hlength, Nat.add_sub_cancel]
    show (group.prompt ++ member.history).take (group.prompt.length + member.generated - 1)
      ++ [member.nextToken] = _
    rw [hinit, dropLast_append_getLast? _ hlast]
    exact (take_of_length_le hlength.le).symm

/-- The row of a prefilling group: the next tokens of the prompt behind its leader's prefix. -/
theorem yields_prefillRow (hshape : Shape group) (hok : GroupOk w s group [] fun _ => 0)
    (hg : s.live[g]? = some group) (hpeople : ∃ member ∈ group.members, member.live = true)
    {pos chunk : ℕ} (hphase : group.phase = .prefill pos) (hchunk : 0 < chunk)
    (hle : pos + chunk ≤ group.prefixEnd) :
    Yields (prefillRow group g pos chunk) fun entry => (∃ sampled,
      entry.2 = .prefill g (pos + chunk) sampled) ∧ entry.1.tokens.length = chunk ∧
      RowFor s entry.1 entry.2 := by
  have hphaseOk := hok.phase
  unfold PhaseOk at hphaseOk
  rw [hphase] at hphaseOk
  obtain ⟨-, hleads, hgenerated⟩ := hphaseOk
  obtain ⟨member, hmem, hlive⟩ := hpeople
  obtain ⟨m, hm⟩ := mem_iff_getElem?.mp hmem
  obtain ⟨-, leader, hleader, hleaderLive⟩ := hleads m member hm hlive not_mem_nil
  have hprefix : group.prefixEnd ≤ group.prompt.length := by
    rw [hshape.prefixEnd]
    split_ifs <;> omega
  have hhistory : leader.history = [] := by
    have hshape' := hshape.member leader (mem_of_getElem? hleader)
    rw [← length_eq_zero_iff, hshape'.history,
      hgenerated leader (mem_of_getElem? hleader) hleaderLive, if_neg]
    rintro ⟨-, rfl⟩
    omega
  have hlength : ((group.prompt.take (pos + chunk)).drop pos).length = chunk := by
    rw [length_drop, length_take]
    omega
  unfold prefillRow
  rw [hleader]
  refine (yields_position pos).bind ?_
  rintro pos0 rfl
  refine ⟨⟨_, rfl⟩, hlength, @RowFor.prefill _ _ _ pos0 _ group leader ?_ hphase
    (by omega) hle (by rw [Nat.add_sub_cancel_left]; exact hlength)⟩
  constructor
  case at_ => exact ⟨hg, hleader, hleaderLive⟩
  case slot | adapter => rfl
  case pos0 => rw [LiveGroup.residentLen, hphase]; exact (if_pos rfl).symm
  case tokens_ne =>
    intro hnil
    have hnil : (group.prompt.take (pos0 + chunk)).drop pos0 = [] := hnil
    rw [hnil, length_nil] at hlength
    omega
  case pos0_le =>
    show pos0 + ((group.prompt.take (pos0 + chunk)).drop pos0).length ≤ _
    rw [hlength, hhistory, append_nil]
    omega
  case sample =>
    intro hsample
    have hend : group.members.length = 1 ∧ pos0 + chunk = group.prompt.length := by
      simpa using hsample
    show pos0 + ((group.prompt.take (pos0 + chunk)).drop pos0).length = _
    rw [hlength, hhistory, append_nil, hend.2]
  case tokens =>
    show (group.prompt ++ leader.history).take pos0 ++ (group.prompt.take (pos0 + chunk)).drop pos0
      = (group.prompt ++ leader.history).take
        (pos0 + ((group.prompt.take (pos0 + chunk)).drop pos0).length)
    rw [hlength, hhistory, append_nil, take_append_drop_take _ (Nat.le_add_right ..)]

/-- The terminal rows of a group come in member order and leave no live member out. -/
theorem yields_terminalRows (hshape : Shape group) (hok : GroupOk w s group [] fun _ => 0)
    (hg : s.live[g]? = some group) {next nBatch : ℕ} (hphase : group.phase = .terminal next)
    (rest : List LiveMember) : ∀ {m used : ℕ}, next ≤ m →
    (∀ i, rest[i]? = group.members[m + i]?) →
    Yields (terminalRows nBatch group g m rest used) fun result =>
      (∀ entry ∈ result.1, (∃ m', entry.2 = .terminal g m' ∧ m ≤ m') ∧
        RowFor s entry.1 entry.2) ∧
      result.1.Pairwise (fun a b => Before a.2 b.2) ∧
      ∀ m' m'', RowKind.terminal g m'' ∈ result.1.map Prod.snd → m ≤ m' → m' < m'' →
        ∀ member, group.members[m']? = some member → member.live = true →
        RowKind.terminal g m' ∈ result.1.map Prod.snd := by
  have hphaseOk := hok.phase
  unfold PhaseOk at hphaseOk
  rw [hphase] at hphaseOk
  induction rest with
  | nil => exact fun _ _ => ⟨nofun, .nil, nofun⟩
  | cons member rest ih =>
    intro m used hle hrest
    have hm : group.members[m]? = some member := by
      rw [← Nat.add_zero m, ← hrest 0]
      rfl
    have hrest' : ∀ i, rest[i]? = group.members[m + 1 + i]? := fun i => by
      rw [Nat.add_assoc, Nat.add_comm 1 i, ← hrest (i + 1)]
      rfl
    unfold terminalRows
    split_ifs with hfull hdead
    · exact ⟨nofun, .nil, nofun⟩
    · refine (ih (by omega) hrest').mono fun result ⟨hrows, horder, hall⟩ => ?_
      refine ⟨fun entry hentry => ?_, horder, fun m' m'' hin hge hlt x hx hlive => ?_⟩
      · obtain ⟨⟨m', hkind, hge⟩, hrow⟩ := hrows entry hentry
        exact ⟨⟨m', hkind, by omega⟩, hrow⟩
      · refine hall m' m'' hin (Nat.succ_le_of_lt (lt_of_le_of_ne hge ?_)) hlt x hx hlive
        rintro rfl
        rw [hm] at hx
        cases hx
        rw [hlive] at hdead
        cases hdead
    · have hlive : member.live = true := by simpa using hdead
      have hmember := hshape.member member (mem_of_getElem? hm)
      have hpositive := length_pos_iff.mpr hshape.prompt_ne
      have hhistory : member.history = [] := by
        rw [← length_eq_zero_iff, hmember.history]
        exact (hphaseOk.2 m member hm hlive).2 hle
      have hone : (group.prompt.drop (group.prompt.length - 1)).length = 1 := by
        rw [length_drop]
        omega
      refine (yields_position _).bind ?_
      rintro pos0 rfl
      refine (ih (by omega) hrest').bind fun result ⟨hrows, horder, hall⟩ => ?_
      refine ⟨?_, pairwise_cons.mpr ⟨fun entry hentry => ?_, horder⟩, ?_⟩
      · intro entry hentry
        rcases mem_cons.mp hentry with rfl | hentry
        · refine ⟨⟨m, rfl, le_rfl⟩, @RowFor.terminal _ _ _ _ _ group member ?_ hphase hle
            hone⟩
          constructor
          case at_ => exact ⟨hg, hm, hlive⟩
          case slot | adapter => rfl
          case pos0 =>
            rw [LiveGroup.residentLen, hphase, (hphaseOk.2 m member hm hlive).2 hle]
            rfl
          case tokens_ne =>
            intro hnil
            have hnil : group.prompt.drop (group.prompt.length - 1) = [] := hnil
            rw [hnil] at hone
            cases hone
          case pos0_le =>
            show group.prompt.length - 1 + (group.prompt.drop (group.prompt.length - 1)).length ≤ _
            rw [hone, hhistory, append_nil]
            omega
          case sample =>
            intro _
            show group.prompt.length - 1 + (group.prompt.drop (group.prompt.length - 1)).length = _
            rw [hone, hhistory, append_nil]
            omega
          case tokens =>
            show (group.prompt ++ member.history).take (group.prompt.length - 1)
                ++ group.prompt.drop (group.prompt.length - 1)
              = (group.prompt ++ member.history).take (group.prompt.length - 1
                + (group.prompt.drop (group.prompt.length - 1)).length)
            rw [hone, hhistory, append_nil, take_append_drop]
            exact (take_of_length_le (by omega)).symm
        · obtain ⟨⟨m', hkind, hge⟩, hrow⟩ := hrows entry hentry
          exact ⟨⟨m', hkind, by omega⟩, hrow⟩
      · obtain ⟨⟨m', hkind, hge⟩, -⟩ := hrows entry hentry
        rw [hkind]
        exact fun _ => by omega
      · intro m' m'' hin hge hlt x hx hxlive
        rw [map_cons, mem_cons] at hin ⊢
        by_cases hmm : m' = m
        · rw [hmm]
          exact .inl rfl
        refine .inr (hall m' m'' (hin.resolve_left fun heq => ?_) (by omega) hlt x hx hxlive)
        cases heq
        omega

/-- The prefill and terminal rows of the groups from `g` on. -/
structure Segment (s : Scheduler) (g : ℕ) (plan : Plan) : Prop where
  rows : ∀ entry ∈ plan, g ≤ entry.2.groupIndex ∧ (∀ g m, entry.2 ≠ .decode g m) ∧
    RowFor s entry.1 entry.2
  order : plan.Pairwise fun a b => Before a.2 b.2
  terminals : ∀ {g m group next}, RowKind.terminal g m ∈ plan.map Prod.snd →
    s.live[g]? = some group → group.phase = .terminal next → ∀ {m' member}, next ≤ m' → m' < m →
    group.members[m']? = some member → member.live = true →
    RowKind.terminal g m' ∈ plan.map Prod.snd

theorem Segment.nil : Segment s g [] := ⟨nofun, .nil, nofun⟩

theorem Segment.mono {g' : ℕ} {plan : Plan} (h : Segment s g plan) (hle : g' ≤ g) :
    Segment s g' plan :=
  { h with rows := fun entry hentry => ⟨hle.trans (h.rows entry hentry).1, (h.rows entry hentry).2⟩ }

/-- Rows of different groups come before each other. -/
theorem before_of_group_ne (hne : kind.groupIndex ≠ kind'.groupIndex) : Before kind kind' := by
  cases kind with
  | decode g m =>
    cases kind' with
    | decode g' m' => exact fun heq => hne (congrArg Prod.fst heq)
    | prefill | terminal => trivial
  | prefill g =>
    cases kind' with
    | prefill g' => exact hne
    | decode | terminal => trivial
  | terminal g m =>
    cases kind' with
    | terminal g' m' => exact fun heq => absurd heq hne
    | decode | prefill => trivial

/-- The rows of one group are followed by those of later groups. -/
theorem Segment.append {plan plan' : Plan} (h : Segment s g plan)
    (hg : ∀ entry ∈ plan, entry.2.groupIndex = g) (h' : Segment s (g + 1) plan') :
    Segment s g (plan ++ plan') where
  rows entry hentry := by
    rcases mem_append.mp hentry with hentry | hentry
    · exact h.rows entry hentry
    · exact (h'.mono (Nat.le_succ g)).rows entry hentry
  order := by
    refine pairwise_append.mpr ⟨h.order, h'.order, fun a ha b hb => before_of_group_ne ?_⟩
    have := (h'.rows b hb).1
    rw [hg a ha]
    omega
  terminals hin hlive hphase _ _ hle hlt hm hmlive := by
    rw [map_append, mem_append] at hin ⊢
    exact hin.imp (h.terminals · hlive hphase hle hlt hm hmlive)
      (h'.terminals · hlive hphase hle hlt hm hmlive)

/-- What the groups from `g` on contribute besides decode rows. -/
theorem yields_prefillRows {nBatch : ℕ} (hl : Live w s) (hs : Settled w s) (hp : Peopled s)
    (rest : List LiveGroup) : ∀ {g used : ℕ}, (∀ i, rest[i]? = s.live[g + i]?) →
    Yields (prefillRows nBatch g rest used) fun result => Segment s g result.1 := by
  induction rest with
  | nil => exact fun _ => .nil
  | cons group rest ih =>
    intro g used hrest
    have hg : s.live[g]? = some group := by
      rw [← Nat.add_zero g, ← hrest 0]
      rfl
    have hrest' : ∀ i, rest[i]? = s.live[g + 1 + i]? := fun i => by
      rw [Nat.add_assoc, Nat.add_comm 1 i, ← hrest (i + 1)]
      rfl
    have hmem := mem_of_getElem? hg
    unfold prefillRows
    split_ifs with hfull
    · exact .nil
    cases hphase : group.phase with
    | decode => exact (ih hrest').mono fun _ h => h.mono (Nat.le_succ g)
    | prefill pos =>
      dsimp only
      split_ifs with hchunk
      · exact (ih hrest').mono fun _ h => h.mono (Nat.le_succ g)
      refine (yields_prefillRow (hl.shape group hmem) (hs group hmem) hg (hp group hmem) hphase
        (Nat.pos_of_ne_zero hchunk) (by omega)).bind fun entry ⟨⟨sampled, hkind⟩, _, hrow⟩ => ?_
      refine (ih hrest').bind fun result hresult => ?_
      have hone : Segment s g [entry] := by
        refine ⟨fun e he => ?_, pairwise_singleton .., fun hin => ?_⟩
        · cases mem_singleton.mp he
          rw [hkind] at hrow ⊢
          exact ⟨le_rfl, nofun, hrow⟩
        · rw [map_singleton, mem_singleton, hkind] at hin
          cases hin
      refine hone.append (fun e he => ?_) hresult
      cases mem_singleton.mp he
      rw [hkind]
      rfl
    | terminal next =>
      refine (yields_terminalRows (hl.shape group hmem) (hs group hmem) hg hphase
        (group.members.drop next) le_rfl fun i => getElem?_drop).bind ?_
      rintro rows ⟨hrows, horder, hall⟩
      refine (ih hrest').bind fun result hresult => ?_
      have hmine : Segment s g rows.1 := by
        refine ⟨fun e he => ?_, horder, ?_⟩
        · obtain ⟨⟨m, hkind, -⟩, hrow⟩ := hrows e he
          rw [hkind] at hrow ⊢
          exact ⟨le_rfl, nofun, hrow⟩
        · intro g' m group' next' hin hlive hphase' m' member hle hlt hm hmlive
          obtain ⟨e, he, hkind'⟩ := List.mem_map.mp hin
          obtain ⟨⟨m₀, hkind, -⟩, -⟩ := hrows e he
          rw [hkind] at hkind'
          cases hkind'
          rw [hg] at hlive
          cases hlive
          rw [hphase] at hphase'
          cases hphase'
          exact hall m' m hin hle hlt member hm hmlive
      refine hmine.append (fun e he => ?_) hresult
      obtain ⟨⟨m, hkind, -⟩, -⟩ := hrows e he
      rw [hkind]
      rfl

/-- **A composed plan continues live members**, one row each. -/
theorem yields_compose (h : Prepared w pending s) {nBatch cursor : ℕ} {mode : AdmissionMode}
    {turn : Bool} :
    Yields (compose s.live nBatch mode cursor turn).plan fun result => Planned s result.1 := by
  obtain ⟨chosen, hchosen, hnodup⟩ : ∃ chosen : List (ℕ × ℕ), (∀ i ∈ chosen,
      i ∈ decodeList s.live) ∧ chosen.Nodup ∧
      (compose s.live nBatch mode cursor turn).plan = (do
        let decodes ← chosen.mapM fun i => decodeRow s.live i.1 i.2
        let result ← prefillRows (max nBatch 1) 0 s.live chosen.length
        pure (decodes ++ result.1, result.2)) := by
    unfold compose
    refine ⟨_, fun i hi => ?_, ?_, rfl⟩
    · have hi := mem_rotate.mp (mem_of_mem_take hi)
      split_ifs at hi
      · exact hi
      · cases hi
    · refine Nodup.sublist (take_sublist ..) (nodup_rotate.mpr ?_)
      split_ifs
      · exact nodup_decodeList s.live
      · exact nodup_nil
  rw [hnodup.2]
  have hdecodes : Yields (chosen.mapM fun i => decodeRow s.live i.1 i.2)
      (Forall₂ (fun i entry => entry.2 = .decode i.1 i.2 ∧ RowFor s entry.1 entry.2)
        chosen) := by
    refine Yields.mapM fun i hi => ?_
    obtain ⟨group, member, hg, hphase, hm, hlive⟩ := mem_decodeList.mp (hchosen i hi)
    have hmem := mem_of_getElem? hg
    exact yields_decodeRow (h.inv.live.shape group hmem) (h.settled group hmem) ⟨hg, hm, hlive⟩
      hphase
  refine hdecodes.bind fun decodes hdecodes => ?_
  refine (yields_prefillRows h.inv.live h.settled h.peopled s.live fun i => by
    rw [Nat.zero_add]).bind fun result hresult => ?_
  have hkinds : ∀ entry ∈ decodes, ∃ i ∈ chosen, entry.2 = .decode i.1 i.2 ∧
      RowFor s entry.1 entry.2 := by
    intro entry hentry
    exact forall₂_mem hdecodes hentry
  constructor
  case rows =>
    intro entry hentry
    rcases mem_append.mp hentry with hentry | hentry
    · obtain ⟨-, -, -, hrow⟩ := hkinds entry hentry
      exact hrow
    · exact (hresult.rows entry hentry).2.2
  case order =>
    refine pairwise_append.mpr ⟨?_, hresult.order, fun a ha b hb => ?_⟩
    · have hmap : decodes.map Prod.snd = chosen.map fun i => RowKind.decode i.1 i.2 :=
        forall₂_map hdecodes fun _ _ hrow => hrow.1
      rw [← pairwise_map, hmap, pairwise_map]
      exact hnodup.1.imp fun hne => hne
    · obtain ⟨i, -, hkind, -⟩ := hkinds a ha
      have hother := (hresult.rows b hb).2.1
      rw [hkind]
      cases hb' : b.2 with
      | decode g m => exact absurd hb' (hother g m)
      | prefill | terminal => trivial
  case terminals =>
    intro g m group next hin hlive hphase m' member hle hlt hm hmlive
    rw [map_append, mem_append] at hin ⊢
    refine hin.imp (fun hin => ?_) fun hin => hresult.terminals hin hlive hphase hle hlt hm hmlive
    obtain ⟨entry, hentry, hkind⟩ := List.mem_map.mp hin
    obtain ⟨i, -, hdecode, -⟩ := hkinds entry hentry
    rw [hkind] at hdecode
    cases hdecode

/-! ### The size of a step -/

/-- How many tokens the rows of a plan take together. -/
def Plan.tokens (plan : Plan) : ℕ := (plan.map fun entry => entry.1.tokens.length).sum

/-- Rows made with `used` tokens spent: their tokens are counted and fit a step of `nBatch`, and
there are some when some are due. -/
structure Sized (nBatch used : ℕ) (due : Prop) (result : Plan × ℕ) : Prop where
  count : result.2 = used + Plan.tokens result.1
  le : used ≤ nBatch → result.2 ≤ nBatch
  some : used < nBatch → due → result.1 ≠ []

variable {nBatch used : ℕ} {due due' : Prop}

theorem Sized.nil (h : nBatch ≤ used ∨ ¬due) : Sized nBatch used due ([], used) :=
  ⟨rfl, id, fun hlt hdue => h.elim (fun hle => absurd hlt (Nat.not_lt.mpr hle)) (absurd hdue)⟩

theorem Sized.mono {result : Plan × ℕ} (h : Sized nBatch used due result) (hdue : due' → due) :
    Sized nBatch used due' result :=
  ⟨h.count, h.le, fun hlt hd => h.some hlt (hdue hd)⟩

/-- Rows behind rows. -/
theorem Sized.append {plan : Plan} {between : ℕ} {result : Plan × ℕ}
    (h : Sized nBatch used due (plan, between)) (h' : Sized nBatch between due' result) :
    Sized nBatch used due (plan ++ result.1, result.2) where
  count := by
    have hcount : between = used + Plan.tokens plan := h.count
    rw [h'.count, hcount, Plan.tokens, Plan.tokens, Plan.tokens, map_append, sum_append,
      Nat.add_assoc]
  le hle := h'.le (h.le hle)
  some hlt hdue := append_ne_nil_of_left_ne_nil (h.some hlt hdue) _

theorem Sized.one {entry : StepRow × RowKind} {n : ℕ} (hle : used + n ≤ nBatch)
    (hn : entry.1.tokens.length = n) : Sized nBatch used due ([entry], used + n) :=
  ⟨by simp [Plan.tokens, hn], fun _ => hle, fun _ _ => cons_ne_nil _ _⟩

theorem Yields.and {α : Type} {r : Except Stop α} {Q Q' : α → Prop} (h : Yields r Q)
    (h' : Yields r Q') : Yields r fun a => Q a ∧ Q' a := by
  cases r with
  | ok a => exact ⟨h, h'⟩
  | error stop => exact h

theorem terminalRows_sized (hne : group.prompt ≠ []) {g : ℕ} (members : List LiveMember) :
    ∀ {m used : ℕ}, Yields (terminalRows nBatch group g m members used)
      (Sized nBatch used (∃ member ∈ members, member.live = true)) := by
  induction members with
  | nil => exact Sized.nil (.inr fun ⟨_, hmem, _⟩ => absurd hmem not_mem_nil)
  | cons member members ih =>
    intro m used
    unfold terminalRows
    split_ifs with hfull hlive
    · exact Sized.nil (.inl hfull)
    · refine ih.mono fun result h => h.mono fun ⟨found, hmem, hfound⟩ => ?_
      rcases mem_cons.mp hmem with rfl | hmem
      · simp [hfound] at hlive
      · exact ⟨found, hmem, hfound⟩
    · refine (yields_position _).bind fun pos _ => ih.bind fun result h => ?_
      -- only the last token of the prompt is left to a member
      refine (Sized.one (n := 1) (by omega) ?_).append h
      have := length_pos_iff.mpr hne
      rw [length_drop]
      omega

theorem prefillRows_sized (live : List LiveGroup)
    (hready : ∀ group ∈ live, Shape group ∧ Ready group) : ∀ {g used : ℕ},
    Yields (prefillRows nBatch g live used)
      (Sized nBatch used (∃ group ∈ live, group.phase ≠ .decode)) := by
  induction live with
  | nil => exact Sized.nil (.inr fun ⟨_, hmem, _⟩ => absurd hmem not_mem_nil)
  | cons group live ih =>
    intro g used
    obtain ⟨⟨hshape, hgroup⟩, hrest⟩ := forall_mem_cons.mp hready
    rw [Ready] at hgroup
    unfold prefillRows
    split_ifs with hfull
    · exact Sized.nil (.inl hfull)
    cases hphase : group.phase with
    | decode =>
      refine (ih hrest).mono fun _ h => h.mono fun ⟨found, hmem, hfound⟩ => ?_
      rcases mem_cons.mp hmem with rfl | hmem
      · exact absurd hphase hfound
      · exact ⟨found, hmem, hfound⟩
    | prefill pos =>
      rw [hphase] at hgroup
      dsimp only at hgroup ⊢
      rw [if_neg (by omega)]
      unfold prefillRow
      rw [List.getElem?_eq_getElem hshape.leader_lt]
      refine Yields.bind ((yields_position pos).bind fun pos0 _ => ?_) fun entry hentry =>
        (ih hrest).bind fun result h => (Sized.one (by omega) hentry).append h
      show ((group.prompt.take _).drop pos).length = _
      have hprefix : group.prefixEnd ≤ group.prompt.length := by
        rw [hshape.prefixEnd]
        split_ifs <;> omega
      rw [length_drop, length_take]
      omega
    | terminal next =>
      rw [hphase] at hgroup
      obtain ⟨m, member, hle, hm, hlive⟩ := hgroup
      have hdue : ∃ member ∈ group.members.drop next, member.live = true :=
        ⟨member, mem_of_getElem? (i := m - next) (by
          rw [List.getElem?_drop, Nat.add_sub_cancel' hle, hm]), hlive⟩
      exact (terminalRows_sized hshape.prompt_ne _).bind fun rows hrows =>
        (ih hrest).bind fun result h => (hrows.append h).mono fun _ => hdue

/-- What `compose` takes: no more decoding members than fit, none in lockstep mode while a group
prefills, and some when all groups decode. -/
theorem compose_plan (live : List LiveGroup) (nBatch cursor : ℕ) (mode : AdmissionMode)
    (turn : Bool) : ∃ chosen : List (ℕ × ℕ), (compose live nBatch mode cursor turn).plan = (do
        let decodes ← chosen.mapM fun i => decodeRow live i.1 i.2
        let result ← prefillRows (max nBatch 1) 0 live chosen.length
        pure (decodes ++ result.1, result.2)) ∧
      (∀ i ∈ chosen, i ∈ decodeList live) ∧ chosen.length ≤ max nBatch 1 ∧
      (mode = .lockstep → chosen = [] ∨ ∀ group ∈ live, group.phase = .decode) ∧
      ((∀ group ∈ live, group.phase = .decode) → decodeList live ≠ [] → chosen ≠ []) := by
  unfold compose
  refine ⟨_, rfl, ?_, ?_, fun hmode => ?_, fun hall hsome => ?_⟩
  · intro i hi
    have hi := mem_rotate.mp (mem_of_mem_take hi)
    split_ifs at hi
    · exact hi
    · exact absurd hi not_mem_nil
  · rw [length_take]
    split_ifs <;> omega
  · by_cases hactive : ∀ group ∈ live, group.phase = .decode
    · exact .inr hactive
    · have hany : (live.any fun group => group.phase != .decode) = true := by
        simpa using hactive
      exact .inl (by simp [hmode, hany])
  · have hany : (live.any fun group => group.phase != .decode) = false := by
      simpa using hall
    have := length_pos_iff.mpr hsome
    refine ne_nil_of_length_pos ?_
    simp [hany]
    omega

/-- The rows of a step are counted, fit and are not none; in lockstep mode they all decode, or
none does. -/
theorem yields_compose_sized (h : Prepared w pending s) {cursor : ℕ} {mode : AdmissionMode}
    {turn : Bool} :
    Yields (compose s.live nBatch mode cursor turn).plan fun result =>
      Sized (max nBatch 1) 0 (s.live ≠ []) result ∧ (mode = .lockstep →
        (∀ entry ∈ result.1, ∃ g m, entry.2 = .decode g m) ∨
          ∀ entry ∈ result.1, ∀ g m, entry.2 ≠ .decode g m) := by
  obtain ⟨chosen, heq, hchosen, hlength, hlockstep, hsome⟩ :=
    compose_plan s.live nBatch cursor mode turn
  rw [heq]
  have hdecodes : Yields (chosen.mapM fun i => decodeRow s.live i.1 i.2)
      (Forall₂ (fun i entry => entry.2 = .decode i.1 i.2 ∧ entry.1.tokens.length = 1) chosen) := by
    refine Yields.mapM fun i hi => ?_
    obtain ⟨group, member, hg, hphase, hm, hlive⟩ := mem_decodeList.mp (hchosen i hi)
    have hmem := mem_of_getElem? hg
    refine (yields_decodeRow (h.inv.live.shape group hmem) (h.settled group hmem) ⟨hg, hm, hlive⟩
      hphase).mono fun entry ⟨hkind, hrow⟩ => ⟨hkind, ?_⟩
    rw [hkind] at hrow
    cases hrow with
    | decode _ _ one => exact one
  have hprefills : Yields (prefillRows (max nBatch 1) 0 s.live chosen.length) _ :=
    (prefillRows_sized s.live fun group hg => ⟨h.inv.live.shape group hg, h.ready group hg⟩).and
      (yields_prefillRows h.inv.live h.settled h.peopled s.live fun i => by rw [Nat.zero_add])
  refine hdecodes.bind fun decodes hdecodes => hprefills.bind fun result ⟨hsized, hkinds⟩ => ?_
  have hcount : Plan.tokens decodes = chosen.length := by
    rw [Plan.tokens, forall₂_map (f := fun _ => 1) hdecodes fun _ _ h => h.2, map_const',
      sum_replicate_nat, Nat.mul_one]
  have hdecoded : Sized (max nBatch 1) 0 (chosen ≠ []) (decodes, chosen.length) :=
    ⟨by rw [hcount, Nat.zero_add], fun _ => hlength, fun _ hne => by
      rintro rfl
      exact hne (forall₂_nil_right_iff.mp hdecodes)⟩
  have hboth := hdecoded.append hsized
  refine ⟨⟨hboth.count, hboth.le, fun hpos hlive => ?_⟩, fun hmode => ?_⟩
  · -- when all groups decode their live members are due, else a group that prefills is
    by_cases hall : ∀ group ∈ s.live, group.phase = .decode
    · refine hboth.some hpos (hsome hall ?_)
      obtain ⟨group, hg⟩ := exists_mem_of_ne_nil _ hlive
      obtain ⟨member, hmem, hmlive⟩ := h.peopled group hg
      obtain ⟨g, hg'⟩ := mem_iff_getElem?.mp hg
      obtain ⟨m, hm⟩ := mem_iff_getElem?.mp hmem
      have hin : (g, m) ∈ decodeList s.live :=
        mem_decodeList.mpr ⟨group, member, hg', hall group hg, hm, hmlive⟩
      exact ne_nil_of_mem hin
    · by_cases hroom : chosen.length < max nBatch 1
      · exact append_ne_nil_of_right_ne_nil _ (hsized.some hroom (by simpa using hall))
      · exact hboth.some hpos (ne_nil_of_length_pos (by omega))
  · rcases hlockstep hmode with rfl | hall
    · cases hdecodes
      exact .inr fun entry hentry => (hkinds.rows entry hentry).2.1
    · refine .inl fun entry hentry => ?_
      rcases mem_append.mp hentry with hentry | hentry
      · obtain ⟨i, -, hi, -⟩ := forall₂_mem hdecodes hentry
        exact ⟨_, _, hi⟩
      · obtain ⟨row, kind⟩ := entry
        have hall' := fun {g m group member} (hat : RowAt s g m group member row) =>
          hall group (mem_of_getElem? hat.at_.atGroup)
        cases (hkinds.rows _ hentry).2.2 with
        | decode hat => exact ⟨_, _, rfl⟩
        | prefill hat phase | terminal hat phase =>
          rw [hall' hat] at phase
          cases phase

end Retrograd.Infer
