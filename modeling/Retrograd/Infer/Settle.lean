import Retrograd.Infer.Step

/-!
# Accounting a step

After a successful step the slots are ahead of the phases by the rows that are **still to be
accounted**. Accounting a row moves its member, or its group's phase, up to its slot; when all
rows are accounted everything is settled again.
-/

namespace Retrograd.Infer

open Logic List

variable {w : World} {s s' : Scheduler} {pending : List Queued} {g m : ℕ} {group : LiveGroup}
  {member : LiveMember} {kind : RowKind} {plan : Plan} {rest : List RowKind}
  {extra : ℕ → ℕ → ℕ}

/-- A row that is to be accounted: its member's slot is ahead by its tokens. -/
inductive Due (s : Scheduler) (extra : ℕ → ℕ → ℕ) : RowKind → Prop where
  | decode {g m : ℕ} {group : LiveGroup} {member : LiveMember}
      (hat : LiveAt s g m group member) (phase : group.phase = .decode) (one : extra g m = 1) :
      Due s extra (.decode g m)
  | prefill {g pos finish : ℕ} {group : LiveGroup} {leader : LiveMember}
      (hat : LiveAt s g group.leader group leader) (phase : group.phase = .prefill pos)
      (lt : pos < finish) (le : finish ≤ group.prefixEnd)
      (len : extra g group.leader = finish - pos) :
      Due s extra (.prefill g finish
        (if group.members.length = 1 ∧ finish = group.prompt.length then some 0 else none))
  | terminal {g m next : ℕ} {group : LiveGroup} {member : LiveMember}
      (hat : LiveAt s g m group member) (phase : group.phase = .terminal next) (le : next ≤ m)
      (one : extra g m = 1) : Due s extra (.terminal g m)

/-- The member whose slot a row extends. -/
def RowKind.Owns (s : Scheduler) (g m : ℕ) : RowKind → Prop
  | .decode g' m' | .terminal g' m' => g' = g ∧ m' = m
  | .prefill g' _ _ => g' = g ∧ ∃ group, s.live[g]? = some group ∧ group.leader = m

/-- The rows `rest` of a step are still to be accounted. -/
structure Owing (w : World) (s : Scheduler) (rest : List RowKind) (extra : ℕ → ℕ → ℕ) : Prop where
  sound : Sound w s (fun _ => []) extra
  due : ∀ kind ∈ rest, Due s extra kind
  order : rest.Pairwise Before
  terminals : ∀ {g m group next}, RowKind.terminal g m ∈ rest → s.live[g]? = some group →
    group.phase = .terminal next → ∀ {m' member}, next ≤ m' → m' < m →
    group.members[m']? = some member → member.live = true → RowKind.terminal g m' ∈ rest
  only : ∀ g m, extra g m ≠ 0 → ∃ kind ∈ rest, kind.Owns s g m

/-- When nothing is left to be accounted, everything is settled. -/
theorem Owing.settled (h : Owing w s [] extra) : Settled w s := by
  refine settled_iff.mpr fun g group hg => ?_
  have hzero : extra g = fun _ => 0 := funext fun m => by
    by_contra hne
    obtain ⟨kind, hmem, -⟩ := h.only g m hne
    cases hmem
  rw [← hzero]
  exact h.sound g group hg

/-- How far slots are ahead after the row of member `m` of group `g` was accounted. -/
def accounted (extra : ℕ → ℕ → ℕ) (g m : ℕ) : ℕ → ℕ → ℕ :=
  fun i j => if i = g ∧ j = m then 0 else extra i j

theorem accounted_group_ne {i : ℕ} (hi : i ≠ g) : accounted extra g m i = extra i :=
  funext fun _ => if_neg fun h => hi h.1

theorem accounted_ne {j : ℕ} (hj : j ≠ m) : accounted extra g m g j = extra g j :=
  if_neg fun h => hj h.2

theorem accounted_self : accounted extra g m g m = 0 := if_pos ⟨rfl, rfl⟩

/-- Accounting a row changes one group only. -/
theorem Owing.account {group' : LiveGroup} (h : Owing w s (kind :: rest) extra)
    (hg : s.live[g]? = some group) (hlive : s'.live = s.live.set g group')
    (hslots : ∀ i j x y, i ≠ g → LiveAt s i j x y →
      s'.backend.slots y.slot = s.backend.slots y.slot)
    (hleader : group'.leader = group.leader) (howns : ∀ i j, kind.Owns s i j → i = g ∧ j = m)
    (hgroup : GroupOk w s' group' [] (accounted extra g m g))
    (hdue : ∀ kind' ∈ rest, kind'.groupIndex = g → Due s' (accounted extra g m) kind')
    (hterminals : ∀ {m' next}, RowKind.terminal g m' ∈ rest → group'.phase = .terminal next →
      ∀ {j x}, next ≤ j → j < m' → group'.members[j]? = some x → x.live = true →
      RowKind.terminal g j ∈ rest) (hhead : kind.groupIndex = g) :
    Owing w s' rest (accounted extra g m) := by
  have hother : ∀ i, i ≠ g → s'.live[i]? = s.live[i]? := fun i hi => by
    rw [hlive, getElem?_set_ne (Ne.symm hi)]
  have hself : s'.live[g]? = some group' := by
    rw [hlive, getElem?_set_self (List.getElem?_eq_some_iff.mp hg).1]
  have hat : ∀ {i j x y}, i ≠ g → LiveAt s i j x y → LiveAt s' i j x y := fun hi hx =>
    { hx with atGroup := by rw [hother _ hi]; exact hx.atGroup }
  constructor
  case sound =>
    refine h.sound.update hother hslots (fun i hi => ⟨rfl, accounted_group_ne hi⟩) fun x hx => ?_
    rw [hself] at hx
    cases hx
    exact hgroup
  case order => exact (pairwise_cons.mp h.order).2
  case due =>
    intro kind' hkind'
    by_cases hgroup' : kind'.groupIndex = g
    · exact hdue kind' hkind' hgroup'
    cases h.due kind' (mem_cons_of_mem _ hkind') with
    | decode hx phase one =>
      exact .decode (hat hgroup' hx) phase ((congrFun (accounted_group_ne hgroup') _).trans one)
    | prefill hx phase lt le len =>
      exact .prefill (hat hgroup' hx) phase lt le 
        ((congrFun (accounted_group_ne hgroup') _).trans len)
    | terminal hx phase le one =>
      exact .terminal (hat hgroup' hx) phase le ((congrFun (accounted_group_ne hgroup') _).trans one)
  case terminals =>
    intro i m' x next hin hx hphase j y hle hlt hy hylive
    by_cases hi : i = g
    · subst hi
      rw [hself] at hx
      cases hx
      exact hterminals hin hphase hle hlt hy hylive
    · rw [hother i hi] at hx
      have hin' := h.terminals (mem_cons_of_mem _ hin) hx hphase hle hlt hy hylive
      refine (mem_cons.mp hin').resolve_left fun heq => hi ?_
      rw [← heq] at hhead
      exact hhead
  case only =>
    intro i j hne
    have hij : ¬(i = g ∧ j = m) := fun hij => hne (if_pos hij)
    rw [accounted, if_neg hij] at hne
    obtain ⟨kind', hkind', howner⟩ := h.only i j hne
    rcases mem_cons.mp hkind' with rfl | hkind'
    · exact absurd (howns i j howner) hij
    refine ⟨kind', hkind', ?_⟩
    cases kind' with
    | decode | terminal => exact howner
    | prefill i' finish sampled =>
      obtain ⟨rfl, x, hx, hj⟩ := howner
      refine ⟨rfl, ?_⟩
      by_cases hi : i' = g
      · subst hi
        rw [hg] at hx
        cases hx
        exact ⟨group', hself, hleader.trans hj⟩
      · exact ⟨x, by rw [hother i' hi]; exact hx, hj⟩

/-- A member that was fed its row's token is up to its slot, when its group is done
prefilling. -/
theorem GroupOk.fed {member' : LiveMember} {token : Token} {phase : GroupPhase}
    (hok : GroupOk w s group [] (extra g)) (hat : LiveAt s g m group member)
    (hshape : Shape group) (hm : Moved g m group member member' s s')
    (hf : Fed token member member') (hdone : ∀ pos, group.phase ≠ .prefill pos)
    (hdone' : ∀ pos, phase ≠ .prefill pos) (hone : extra g m = 1)
    (hphase : PhaseOk { group.moved m member member' with phase } []) :
    GroupOk w s' { group.moved m member member' with phase } [] (accounted extra g m g) := by
  have hpositive := length_pos_iff.mpr hshape.prompt_ne
  have hlen : ∀ {group : LiveGroup} {i : ℕ} {x : LiveMember}, (∀ pos, group.phase ≠ .prefill pos) →
      group.residentLen i x = group.prompt.length + x.generated - 1 := by
    intro group i x hne
    unfold LiveGroup.residentLen
    split
    · next pos heq => exact absurd heq (hne pos)
    · rfl
  constructor
  case phase => exact hphase
  case more =>
    intro x hx hlive
    have hx : x ∈ (group.moved m member member').members := hx
    rcases moved_mem hx with rfl | hx
    · exact hf.generated_lt hlive
    · exact hok.more x hx hlive
  case synced =>
    intro hw i x hx hlive _
    have hx : (group.moved m member member').members[i]? = some x := hx
    have hkept : s'.backend.slots x.slot = s.backend.slots x.slot :=
      hm.kept (mem_map_of_mem (mem_liveOf.mpr
        ⟨_, mem_of_getElem? (hm.getElem?_self hat), mem_of_getElem? hx, hlive⟩))
    rw [hkept, hlen hdone']
    show _ = group.prompt.length + x.generated - 1 + _
    rcases moved_getElem? hx with ⟨rfl, rfl⟩ | ⟨hne, hx⟩
    · rw [hm.same.slot, hok.synced hw i member hat.atMember hat.live not_mem_nil, hlen hdone,
        hone, hf.generated hlive, accounted_self]
      omega
    · rw [hok.synced hw i x hx hlive not_mem_nil, hlen hdone, accounted_ne hne]

/-- Accounting a decode row. -/
theorem settle_decode (h : Inv w pending s) (ho : Owing w s (.decode g m :: rest) extra)
    (produced : StepOutRow) :
    wp (emitSampled w g m produced) (fun _ s' => Inv w pending s' ∧ Aside s s' ∧
      ∃ extra', Owing w s' rest extra') (Broken w pending s) s := by
  obtain ⟨group, member, hat, hphase, hone⟩ : ∃ group member, LiveAt s g m group member ∧
      group.phase = .decode ∧ extra g m = 1 := by
    cases ho.due _ mem_cons_self with
    | decode hat phase one => exact ⟨_, _, hat, phase, one⟩
  have hmem := mem_of_getElem? hat.atMember
  have hok := ho.sound g group hat.atGroup
  have hphaseOk := hok.phase
  unfold PhaseOk at hphaseOk
  rw [hphase] at hphaseOk
  refine wp_mono (emitSampled_spec h hat (hok.more member hmem hat.live) produced) ?_
    fun _ _ hf => hf
  rintro _ s₁ ⟨h₁, member', hm, hf⟩
  have hmoved : group.moved m member member'
      = { group.moved m member member' with phase := .decode } := by
    rw [← hphase]
    rfl
  refine ⟨h₁, hm.aside, accounted extra g m, ?_⟩
  refine ho.account (m := m) hat.atGroup hm.live (fun i j x y hi hy => hm.kept ?_) rfl
    (fun i j hij => ⟨hij.1.symm, hij.2.symm⟩) ?_ (fun kind' hkind' hgroup' => ?_) ?_ rfl
  · exact LiveAt.mem_slots (s := s₁) { hy with
      atGroup := by rw [hm.live, getElem?_set_ne (Ne.symm hi)]; exact hy.atGroup }
  · rw [hmoved]
    refine hok.fed hat (h.live.shape group (mem_of_getElem? hat.atGroup)) hm hf
      (by rw [hphase]; nofun) nofun hone fun x hx hlive => ?_
    have hx : x ∈ (group.moved m member member').members := hx
    rcases moved_mem hx with rfl | hx
    · rw [hf.generated hlive]
      exact Nat.succ_pos _
    · exact hphaseOk x hx hlive
  · -- the other rows of a decoding group are decode rows of other members
    have hbefore := (pairwise_cons.mp ho.order).1 kind' hkind'
    cases ho.due kind' (mem_cons_of_mem _ hkind') with
    | @decode g' m' group' member₁ hat' phase' one' =>
      have hg' : g' = g := hgroup'
      subst hg'
      have hne : m' ≠ m := fun heq => hbefore (by rw [heq])
      have hsame := hat.group_eq hat'
      subst hsame
      refine .decode ⟨hm.getElem?_self hat, ?_, hat'.live⟩ phase' (by rw [accounted_ne hne]; exact one')
      show (group'.members.set m member')[m']? = _
      rw [getElem?_set_ne (Ne.symm hne)]
      exact hat'.atMember
    | prefill hat' phase' | terminal hat' phase' =>
      cases hgroup'
      rw [hat.group_eq hat', hphase] at phase'
      cases phase'
  · intro m' next _ hphase'
    rw [hmoved] at hphase'
    cases hphase'

/-- Accounting a terminal row: its group decodes once the last member has been sampled. -/
theorem settle_terminal (h : Inv w pending s) (ho : Owing w s (.terminal g m :: rest) extra)
    (row : ℕ) :
    wp (settleRow w row (.terminal g m)) (fun _ s' => Inv w pending s' ∧ Aside s s' ∧
      ∃ extra', Owing w s' rest extra') (Broken w pending s) s := by
  obtain ⟨group, member, next, hat, hphase, hle, hone⟩ : ∃ group member next,
      LiveAt s g m group member ∧ group.phase = .terminal next ∧ next ≤ m ∧ extra g m = 1 := by
    cases ho.due _ mem_cons_self with
    | terminal hat phase le one => exact ⟨_, _, _, hat, phase, le, one⟩
  have hmem := mem_of_getElem? hat.atMember
  have hok := ho.sound g group hat.atGroup
  have hphaseOk := hok.phase
  unfold PhaseOk at hphaseOk
  rw [hphase] at hphaseOk
  have hbefore := (pairwise_cons.mp ho.order).1
  -- the members between the phase's index and this row have ended
  have hskipped : ∀ {j x}, next ≤ j → j < m → group.members[j]? = some x → x.live = false := by
    intro j x hge hlt hx
    by_contra hlive
    have hin := ho.terminals mem_cons_self hat.atGroup hphase hge hlt hx (by simpa using hlive)
    rcases mem_cons.mp hin with heq | hin
    · cases heq
      exact lt_irrefl _ hlt
    · have := hbefore _ hin rfl
      omega
  unfold settleRow
  dsimp only
  rw [wp_bind, wp_get, wp_bind]
  refine wp_mono (emitSampled_spec h hat (hok.more member hmem hat.live) _) ?_ fun _ _ hf => hf
  rintro _ s₁ ⟨h₁, member', hm, hf⟩
  have hg₁ := hm.getElem?_self hat
  obtain ⟨phase, hphase'⟩ : ∃ phase, phase = if group.members.length ≤ max next (m + 1)
      then GroupPhase.decode else .terminal (max next (m + 1)) := ⟨_, rfl⟩
  have hnext : max next (m + 1) = m + 1 := by omega
  have hlength : (group.moved m member member').members.length = group.members.length :=
    length_set ..
  have hmoved : (group.moved m member member').phase = .terminal next := hphase
  have hset : ∀ f : LiveGroup → LiveGroup,
      f (group.moved m member member') = { group.moved m member member' with phase } →
      s₁.setGroup g f = s₁.setGroup g fun group => { group with phase } := by
    intro f hfeq
    show ({ s₁ with live := s₁.live.modify g f } : Scheduler) = { s₁ with live := s₁.live.modify g _ }
    rw [modify_eq_set hg₁ hfeq, modify_eq_set hg₁ rfl]
  rw [wp_modify, hset _ (by dsimp only; rw [hmoved]; dsimp only; rw [hlength, ← hphase'])]
  have hlive₂ : (s₁.setGroup g fun group => { group with phase }).live
      = s.live.set g { group.moved m member member' with phase } := by
    show s₁.live.modify g _ = _
    rw [modify_eq_set hg₁ rfl, hm.live, set_set]
  have hdone : ∀ pos, phase ≠ .prefill pos := by
    intro pos heq
    rw [hphase'] at heq
    split_ifs at heq
  refine ⟨h₁.setPhase hg₁ phase, hm.aside.trans ⟨rfl, rfl, rfl, rfl, rfl, rfl⟩,
    accounted extra g m, ?_⟩
  refine ho.account (m := m) hat.atGroup hlive₂ (fun i j x y hi hy => ?_) rfl
    (fun i j hij => ⟨hij.1.symm, hij.2.symm⟩) ?_ (fun kind' hkind' hgroup' => ?_) ?_ rfl
  · have hy₁ : LiveAt s₁ i j x y := { hy with
      atGroup := by rw [hm.live, getElem?_set_ne (Ne.symm hi)]; exact hy.atGroup }
    exact hm.kept hy₁.mem_slots
  · refine GroupOk.congr (s := s₁) (hok.fed hat (h.live.shape group
      (mem_of_getElem? hat.atGroup)) hm hf (by rw [hphase]; nofun) hdone hone ?_)
      fun _ _ _ => rfl
    have hfed : ∀ {i x}, (group.moved m member member').members[i]? = some x → x.live = true →
        (i < m + 1 → 0 < x.generated) ∧ (m + 1 ≤ i → x.generated = 0) := by
      intro i x hx hlive
      rcases moved_getElem? hx with ⟨rfl, rfl⟩ | ⟨hne, hx⟩
      · rw [hf.generated hlive]
        exact ⟨fun _ => Nat.succ_pos _, fun hge => by omega⟩
      · obtain ⟨hlow, hhigh⟩ := hphaseOk.2 i x hx hlive
        refine ⟨fun hlt => ?_, fun hge => hhigh (by omega)⟩
        by_cases hin : i < next
        · exact hlow hin
        · have := hskipped (Nat.not_lt.mp hin) (by omega) hx
          rw [this] at hlive
          cases hlive
    unfold PhaseOk
    rw [hphase', hnext]
    split_ifs with hlast
    · intro x hx hlive
      obtain ⟨i, hi⟩ := mem_iff_getElem?.mp hx
      have hi : (group.moved m member member').members[i]? = some x := hi
      have hilt := (List.getElem?_eq_some_iff.mp hi).1
      rw [hlength] at hilt
      exact (hfed hi hlive).1 (by omega)
    · exact ⟨by rw [hlength]; exact hphaseOk.1, fun i x hx hlive => hfed hx hlive⟩
  · -- the other rows of the group are terminal rows of later members
    have hafter := hbefore kind' hkind'
    cases ho.due kind' (mem_cons_of_mem _ hkind') with
    | @terminal g' m' next' group' member₁ hat' phase' le' one' =>
      have hg' : g' = g := hgroup'
      subst hg'
      have hlt : m < m' := hafter rfl
      have hsame := hat.group_eq hat'
      subst hsame
      have hmlt := (List.getElem?_eq_some_iff.mp hat'.atMember).1
      refine @Due.terminal _ _ _ _ (m + 1) { group'.moved m member member' with phase } member₁
        ⟨?_, ?_, hat'.live⟩ ?_ hlt (by rw [accounted_ne (by omega)]; exact one')
      · exact setGroup_getElem? hg₁
      · show (group'.members.set m member')[m']? = _
        rw [getElem?_set_ne (by omega)]
        exact hat'.atMember
      · show phase = _
        rw [hphase', hnext, if_neg (by omega)]
    | decode hat' phase' | prefill hat' phase' =>
      cases hgroup'
      rw [hat.group_eq hat', hphase] at phase'
      cases phase'
  · intro m' next' hin hphase₂ j x hge hlt hx hxlive
    have hphase₂ : phase = .terminal next' := hphase₂
    rw [hphase', hnext] at hphase₂
    split_ifs at hphase₂
    cases hphase₂
    have hx : (group.moved m member member').members[j]? = some x := hx
    rcases moved_getElem? hx with ⟨rfl, -⟩ | ⟨hne, hx⟩
    · omega
    have hin' := ho.terminals (mem_cons_of_mem _ hin) hat.atGroup hphase (by omega) hlt hx
      hxlive
    refine (mem_cons.mp hin').resolve_left fun heq => ?_
    cases heq
    exact hne rfl

/-- Accounting a prefill row: the group's position moves, and a single member whose prompt is
complete is sampled. -/
theorem settle_prefill {finish : ℕ} {sampled : Option ℕ} (h : Inv w pending s)
    (ho : Owing w s (.prefill g finish sampled :: rest) extra) (row : ℕ) :
    wp (settleRow w row (.prefill g finish sampled)) (fun _ s' => Inv w pending s' ∧ Aside s s' ∧
      ∃ extra', Owing w s' rest extra') (Broken w pending s) s := by
  obtain ⟨group, leader, pos, hat, hphase, hlt, hle, hlen, hsampled⟩ : ∃ group leader pos,
      LiveAt s g group.leader group leader ∧ group.phase = .prefill pos ∧ pos < finish ∧
      finish ≤ group.prefixEnd ∧ extra g group.leader = finish - pos ∧ sampled =
        if group.members.length = 1 ∧ finish = group.prompt.length then some 0 else none := by
    cases ho.due _ mem_cons_self with
    | prefill hat phase lt le len => exact ⟨_, _, _, hat, phase, lt, le, len, rfl⟩
  have hok := ho.sound g group hat.atGroup
  have hshape := h.live.shape group (mem_of_getElem? hat.atGroup)
  have hphaseOk := hok.phase
  unfold PhaseOk at hphaseOk
  rw [hphase] at hphaseOk
  obtain ⟨-, hleads, hgenerated⟩ := hphaseOk
  have hprefix : group.prefixEnd ≤ group.prompt.length := by
    rw [hshape.prefixEnd]
    split_ifs <;> omega
  have hzero : ∀ x ∈ group.members, x.live = true → x.generated = 0 := fun x hx hlive => by
    rw [hgenerated x hx hlive, if_neg (by omega)]
  have hresident : ∀ {group : LiveGroup} {n i : ℕ} {x : LiveMember}, group.phase = .prefill n →
      group.residentLen i x = if i = group.leader then n else 0 := fun hn => by
    rw [LiveGroup.residentLen, hn]
  -- no other row belongs to the group
  have hothers : ∀ kind' ∈ rest, kind'.groupIndex ≠ g := by
    intro kind' hkind' heq
    have hbefore := (pairwise_cons.mp ho.order).1 kind' hkind'
    cases ho.due kind' (mem_cons_of_mem _ hkind') with
    | prefill hat' => exact hbefore heq.symm
    | decode hat' phase' | terminal hat' phase' =>
      cases heq
      rw [hat.group_eq hat', hphase] at phase'
      cases phase'
  obtain ⟨group₁, hgroup₁⟩ : ∃ group₁ : LiveGroup, group₁ = { group with phase := .prefill finish } :=
    ⟨_, rfl⟩
  obtain ⟨s₁, hs₁⟩ : ∃ s₁ : Scheduler,
      s₁ = s.setGroup g fun group => { group with phase := .prefill finish } := ⟨_, rfl⟩
  have h₁ : Inv w pending s₁ := hs₁ ▸ h.setPhase hat.atGroup _
  have ha₁ : Aside s s₁ := by
    rw [hs₁]
    exact ⟨rfl, rfl, rfl, rfl, rfl, rfl⟩
  have hlive₁ : s₁.live = s.live.set g group₁ := by
    rw [hs₁, hgroup₁]
    exact modify_eq_set hat.atGroup rfl
  have hbackend₁ : s₁.backend = s.backend := by rw [hs₁]; rfl
  have hat₁ : LiveAt s₁ g group.leader group₁ leader := by
    refine ⟨?_, by rw [hgroup₁]; exact hat.atMember, hat.live⟩
    rw [hlive₁, getElem?_set_self (List.getElem?_eq_some_iff.mp hat.atGroup).1]
  have howns : ∀ i j, RowKind.Owns s i j (.prefill g finish sampled) →
      i = g ∧ j = group.leader := by
    rintro i j ⟨rfl, x, hx, rfl⟩
    rw [hat.atGroup] at hx
    cases hx
    exact ⟨rfl, rfl⟩
  have hstart : ∀ f : LiveGroup → LiveGroup, f group = group₁ → s.setGroup g f = s₁ := by
    intro f hf
    show ({ s with live := s.live.modify g f } : Scheduler) = _
    rw [modify_eq_set hat.atGroup hf, ← hlive₁, hs₁]
    rfl
  unfold settleRow
  dsimp only
  rw [wp_bind, wp_modify, hstart _ (by rw [hphase, hgroup₁])]
  by_cases hlast : group.members.length = 1 ∧ finish = group.prompt.length
  swap
  · -- the prompt goes on, or other members take it over
    rw [if_neg hlast] at hsampled
    rw [hsampled] at howns ⊢
    refine ⟨h₁, ha₁, accounted extra g group.leader, ?_⟩
    refine ho.account hat.atGroup hlive₁ (fun _ _ _ _ _ _ => by rw [hbackend₁])
      (by rw [hgroup₁]) (by rw [hsampled]; exact howns) ?_
      (fun kind' hkind' heq => absurd heq (hothers kind' hkind')) ?_ rfl
    · rw [hgroup₁]
      refine ⟨hok.more, ⟨hle, hleads, fun x hx hlive => ?_⟩, fun hw i x hx hlive _ => ?_⟩
      · rw [if_neg hlast]
        exact hzero x hx hlive
      · rw [hbackend₁, hok.synced hw i x hx hlive not_mem_nil, hresident hphase, hresident rfl]
        split_ifs with hi
        · rw [hi, hlen, accounted_self]
          omega
        · rw [accounted_ne hi]
    · intro m' next _ hphase'
      rw [hgroup₁] at hphase'
      cases hphase'
  rw [if_pos hlast] at hsampled
  have hleader : group.leader = 0 := by
    have := hshape.leader_lt
    omega
  rw [hleader] at hat₁
  rw [hsampled]
  dsimp only
  rw [wp_bind, wp_get]
  have hlimit : leader.generated < leader.limit :=
    hok.more leader (mem_of_getElem? hat.atMember) hat.live
  refine wp_mono (emitSampled_spec h₁ hat₁ hlimit _) ?_ fun _ _ hf =>
    ⟨hf.1, hf.2.1, ha₁.trans hf.2.2⟩
  rintro _ s₂ ⟨h₂, member', hm, hf⟩
  have hlive₂ : s₂.live = s.live.set g (group₁.moved 0 leader member') := by
    rw [hm.live, hlive₁, set_set]
  have hlength : (group₁.moved 0 leader member').members.length = 1 := by
    show (group₁.members.set 0 member').length = 1
    rw [length_set, hgroup₁]
    exact hlast.1
  -- the only live member is the one that was sampled
  have honly : ∀ {i x}, (group₁.moved 0 leader member').members[i]? = some x →
      i = 0 ∧ x = member' := by
    intro i x hx
    have hilt := (List.getElem?_eq_some_iff.mp hx).1
    rw [hlength] at hilt
    rcases moved_getElem? hx with hsame | ⟨hne, -⟩
    · exact hsame
    · omega
  have hphase₂ : (group₁.moved 0 leader member').phase = .prefill finish := by
    rw [hgroup₁]
    rfl
  refine ⟨h₂, ha₁.trans hm.aside, accounted extra g group.leader, ?_⟩
  refine ho.account hat.atGroup hlive₂ (fun i j x y hi hy => ?_) (by rw [hgroup₁]; rfl) howns
    ?_ (fun kind' hkind' heq => absurd heq (hothers kind' hkind')) ?_ rfl
  · rw [hm.kept, hbackend₁]
    have hy₂ : LiveAt s₂ i j x y := { hy with
      atGroup := by rw [hlive₂, getElem?_set_ne (Ne.symm hi)]; exact hy.atGroup }
    exact hy₂.mem_slots
  · constructor
    case more =>
      intro x hx hlive
      obtain ⟨i, hi⟩ := mem_iff_getElem?.mp hx
      obtain ⟨-, rfl⟩ := honly hi
      exact hf.generated_lt hlive
    case phase =>
      unfold PhaseOk
      rw [hphase₂]
      refine ⟨by rw [hgroup₁]; exact hle, fun i x hx hlive _ => ⟨not_mem_nil, ?_⟩,
        fun x hx hlive => ?_⟩
      · obtain ⟨rfl, rfl⟩ := honly hx
        have hleader₂ : (group₁.moved 0 leader x).leader = 0 := by
          rw [hgroup₁]
          exact hleader
        rw [hleader₂]
        exact ⟨_, hx, hlive⟩
      · obtain ⟨i, hi⟩ := mem_iff_getElem?.mp hx
        obtain ⟨-, rfl⟩ := honly hi
        have hprompt : finish = (group₁.moved 0 leader x).prompt.length := by
          rw [hgroup₁]
          exact hlast.2
        rw [if_pos ⟨hlength, hprompt⟩, hf.generated hlive,
          hzero leader (mem_of_getElem? hat.atMember) hat.live]
    case synced =>
      intro hw i x hx hlive _
      have hmem : x ∈ (group₁.moved 0 leader member').members := mem_of_getElem? hx
      obtain ⟨rfl, rfl⟩ := honly hx
      have hkept := hm.kept (mem_map_of_mem (mem_liveOf.mpr
        ⟨_, mem_of_getElem? (hm.getElem?_self hat₁), hmem, hlive⟩))
      have hleader₂ : 0 = (group₁.moved 0 leader x).leader := by
        rw [hgroup₁]
        exact hleader.symm
      rw [hkept, hbackend₁, hm.same.slot, hok.synced hw _ leader hat.atMember hat.live
        not_mem_nil, hresident hphase, hresident hphase₂, if_pos rfl, if_pos hleader₂, hlen,
        ← hleader, accounted_self]
      omega
  · intro m' next _ hphase'
    rw [hphase₂] at hphase'
    cases hphase'

/-- Accounting one row. -/
theorem settleRow_spec (h : Inv w pending s) (ho : Owing w s (kind :: rest) extra) (row : ℕ) :
    wp (settleRow w row kind) (fun _ s' => Inv w pending s' ∧ Aside s s' ∧
      ∃ extra', Owing w s' rest extra') (Broken w pending s) s := by
  cases kind with
  | prefill => exact settle_prefill h ho row
  | terminal => exact settle_terminal h ho row
  | decode =>
    unfold settleRow
    dsimp only
    rw [wp_bind, wp_get]
    exact settle_decode h ho _

/-- Accounting every row of a step settles the scheduler. -/
theorem settleRows_spec (rows : List ((StepRow × RowKind) × ℕ)) : ∀ {s : Scheduler}
    {extra : ℕ → ℕ → ℕ}, Inv w pending s → Owing w s (rows.map fun row => row.1.2) extra →
    wp (rows.forM fun ((_, kind), row) => settleRow w row kind) (fun _ s' => Inv w pending s' ∧
      Aside s s' ∧ Settled w s') (Broken w pending s) s := by
  induction rows with
  | nil => exact fun h ho => ⟨h, Aside.refl _, ho.settled⟩
  | cons entry rows ih =>
    intro s extra h ho
    obtain ⟨⟨step, kind⟩, row⟩ := entry
    show wp (settleRow w row kind >>= fun _ => rows.forM _) _ _ s
    rw [wp_bind]
    refine wp_mono (settleRow_spec h ho row) ?_ fun _ _ hf => hf
    rintro _ s₁ ⟨h₁, ha₁, extra₁, ho₁⟩
    refine wp_mono (ih h₁ ho₁) ?_ fun _ _ hf => hf.trans ha₁
    rintro _ s₂ ⟨h₂, ha₂, hs₂⟩
    exact ⟨h₂, ha₁.trans ha₂, hs₂⟩

end Retrograd.Infer
