import Mathlib.Data.Multiset.Dedup
import Retrograd.Container.Pool

/-!
# The books of a pool

What a pool and the tasks that act on it hold between them: every container counted as live is
kept by someone, leased, or a slot still vacant; **the rest are being discarded**. Where a container
is makes no difference to the books, so most sections leave them as they are, and the others are
one of the dozen entries of `Books.Step`. `Books.Sound` is what every entry keeps.
-/

namespace Retrograd.Container

open List Multiset Function

/-! ### The uses of a container -/

/-- A container that may be leased: it never was, or it was wiped after a healthy release. -/
def Ready (uses : List Use) : Prop :=
  .leased ∉ uses ∨ ∃ earlier, uses = .recycled :: .released true :: earlier

/-- Every lease found the container ready. -/
def Reused (uses : List Use) : Prop :=
  ∀ earlier, .leased :: earlier <:+ uses → Ready earlier

/-- What is known of a container someone keeps. -/
inductive Phase
  /-- It may be leased again, having been so many times. -/
  | fit (leases : ℕ)
  /-- It came back. -/
  | back (healthy : Bool) (leases : ℕ)
  /-- It came back healthy and is to be wiped. -/
  | cleared (leases : ℕ)
  /-- It is not to be used again. -/
  | spent
  deriving DecidableEq

/-- What a phase says of the uses so far. -/
def Phase.Holds (maxLeases : ℕ) (uses : List Use) : Phase → Prop
  | .fit leases => Ready uses ∧ uses.count .leased = leases ∧ (leases = 0 ∨ leases < maxLeases)
  | .back healthy leases => uses.head? = some (.released healthy) ∧ uses.count .leased = leases
  | .cleared leases => uses.head? = some (.released true) ∧ uses.count .leased = leases ∧
    leases < maxLeases
  | .spent => True

theorem Reused.cons {uses : List Use} (h : Reused uses) {use : Use}
    (hready : use = .leased → Ready uses) : Reused (use :: uses) := by
  intro earlier hsuffix
  rcases suffix_cons_iff.mp hsuffix with heq | hsuffix
  · obtain ⟨rfl, rfl⟩ := cons.inj heq
    exact hready rfl
  · exact h earlier hsuffix

/-! ### The books -/

@[ext] structure Books where
  live : ℕ
  closed : Bool
  nextToken : ℕ
  nextContainer : ℕ
  alive : Multiset ℕ
  uses : ℕ → List Use
  /-- The containers counted as live and not leased. -/
  kept : Multiset (ℕ × Phase)
  /-- The slots counted as live that have no container. -/
  vacant : ℕ
  /-- The containers no longer counted. -/
  discarded : Multiset ℕ
  leased : Multiset (ℕ × Entry)
  /-- The leases that are out, by token and container. -/
  held : Multiset (ℕ × ℕ)
  /-- The leases that were dropped. -/
  returned : Multiset (ℕ × Bool)

namespace Books

/-- The containers the books know of. -/
def containers (books : Books) : Multiset ℕ :=
  books.kept.map Prod.fst + books.leased.map (fun lease => lease.2.container) + books.discarded

/-- What the books always say. -/
structure Sound (config : PoolConfig) (books : Books) : Prop where
  live_eq : books.live = books.kept.card + books.leased.card + books.vacant
  bound : books.live + books.discarded.card ≤ config.maxLive
  opened : books.closed = false → books.discarded = 0
  distinct : books.containers.Nodup
  born : ∀ container ∈ books.containers, container < books.nextContainer
  unborn : ∀ container, books.nextContainer ≤ container → books.uses container = []
  alive_le : books.alive ≤ books.containers
  tokens : books.leased.map Prod.fst = books.held.map Prod.fst + books.returned.map Prod.fst
  tokens_nodup : (books.leased.map Prod.fst).Nodup
  tokens_lt : ∀ token ∈ books.leased.map Prod.fst, token < books.nextToken
  kept_holds : ∀ container phase, (container, phase) ∈ books.kept →
    phase.Holds config.maxLeasesPerContainer (books.uses container)
  held_spec : ∀ token container, (token, container) ∈ books.held →
    ∃ leases, (token, ⟨container, leases⟩) ∈ books.leased ∧
      (books.uses container).count .leased = leases
  returned_spec : ∀ token healthy, (token, healthy) ∈ books.returned →
    ∃ entry, (token, entry) ∈ books.leased ∧
      (books.uses entry.container).head? = some (.released healthy) ∧
      (books.uses entry.container).count .leased = entry.leases
  reused : ∀ container, Reused (books.uses container)
  leases_le : ∀ container,
    (books.uses container).count .leased ≤ max 1 config.maxLeasesPerContainer

/-- No more containers exist than the bound allows. -/
theorem Sound.alive_card_le {config : PoolConfig} {books : Books} (h : books.Sound config) :
    books.alive.card ≤ config.maxLive := by
  have halive := card_le_card h.alive_le
  have hlive := h.live_eq
  have hbound := h.bound
  simp only [containers, card_add, card_map] at halive
  omega

/-- The uses once one more is recorded. -/
def recorded (books : Books) (container : ℕ) (use : Use) : ℕ → List Use :=
  Function.update books.uses container (use :: books.uses container)

/-- The entries of the books. -/
inductive Step (config : PoolConfig) : Books → Books → Prop
  /-- A slot is taken. -/
  | opens {books} (hopen : books.closed = false) (hroom : books.live < config.maxLive) :
    Step config books { books with live := books.live + 1, vacant := books.vacant + 1 }
  /-- A vacant slot is given back. -/
  | frees {books vacant} (hvacant : books.vacant = vacant + 1) :
    Step config books { books with live := books.live - 1, vacant }
  /-- A container is created for a vacant slot. -/
  | bears {books vacant} (hvacant : books.vacant = vacant + 1) :
    Step config books { books with
      vacant
      nextContainer := books.nextContainer + 1
      alive := books.nextContainer ::ₘ books.alive
      kept := (books.nextContainer, .fit 0) ::ₘ books.kept }
  /-- A counted container is destroyed. -/
  | buries {books container phase kept} (hkept : books.kept = (container, phase) ::ₘ kept) :
    Step config books { books with
      vacant := books.vacant + 1
      alive := books.alive.erase container
      kept }
  /-- A container is no longer counted. -/
  | discards {books container phase kept} (hkept : books.kept = (container, phase) ::ₘ kept)
      (hclosed : books.closed = true) :
    Step config books { books with
      live := books.live - 1
      kept
      discarded := container ::ₘ books.discarded }
  /-- And it is destroyed. -/
  | forgets {books container discarded} (hdiscarded : books.discarded = container ::ₘ discarded) :
    Step config books { books with alive := books.alive.erase container, discarded }
  /-- Something else is known of a kept container. -/
  | regards {books container phase kept} (phase' : Phase)
      (hkept : books.kept = (container, phase) ::ₘ kept)
      (hphase : ∀ uses, phase.Holds config.maxLeasesPerContainer uses →
        phase'.Holds config.maxLeasesPerContainer uses) :
    Step config books { books with kept := (container, phase') ::ₘ kept }
  /-- A fit container is leased. -/
  | lends {books container leases kept} (hkept : books.kept = (container, .fit leases) ::ₘ kept) :
    Step config books { books with
      nextToken := books.nextToken + 1
      uses := books.recorded container .leased
      kept
      leased := (books.nextToken, ⟨container, leases + 1⟩) ::ₘ books.leased
      held := (books.nextToken, container) ::ₘ books.held }
  /-- A lease is dropped. -/
  | releases {books token container held} (healthy : Bool)
      (hheld : books.held = (token, container) ::ₘ held) :
    Step config books { books with
      uses := books.recorded container (.released healthy)
      held
      returned := (token, healthy) ::ₘ books.returned }
  /-- What a dropped lease held is taken back. -/
  | reclaims {books token healthy returned entry leased}
      (hreturned : books.returned = (token, healthy) ::ₘ returned)
      (hleased : books.leased = (token, entry) ::ₘ leased) :
    Step config books { books with
      kept := (entry.container, .back healthy entry.leases) ::ₘ books.kept
      leased
      returned }
  /-- A container that came back healthy is wiped. -/
  | recycles {books container leases kept}
      (hkept : books.kept = (container, .cleared leases) ::ₘ kept) :
    Step config books { books with
      uses := books.recorded container .recycled
      kept := (container, .fit leases) ::ₘ kept }
  | closes {books} : Step config books { books with closed := true }

/-- A container the books know of is destroyed behind their back. -/
def swept (books : Books) (container : ℕ) : Books :=
  { books with alive := books.alive.erase container }

/-! ### What every entry keeps -/

variable {config : PoolConfig} {books books' : Books} {container token : ℕ} {phase : Phase}
  {kept : Multiset (ℕ × Phase)}

theorem containers_of_kept (hkept : books.kept = (container, phase) ::ₘ kept) :
    books.containers = container ::ₘ { books with kept }.containers := by
  simp [containers, hkept, cons_add]

variable {discarded : Multiset ℕ}

theorem containers_of_discarded (h : books.discarded = container ::ₘ discarded) :
    books.containers = container ::ₘ { books with discarded }.containers := by
  simp [containers, h, add_cons]

variable {entry : Entry} {leased : Multiset (ℕ × Entry)}

theorem containers_of_leased (h : books.leased = (token, entry) ::ₘ leased) :
    books.containers = entry.container ::ₘ { books with leased }.containers := by
  simp [containers, h, cons_add, add_cons]

theorem mem_containers_of_kept (h : (container, phase) ∈ books.kept) :
    container ∈ books.containers := by
  obtain ⟨kept, hkept⟩ := exists_cons_of_mem h
  exact containers_of_kept hkept ▸ Multiset.mem_cons_self _ _

theorem mem_containers_of_leased (h : (token, entry) ∈ books.leased) :
    entry.container ∈ books.containers := by
  obtain ⟨leased, hleased⟩ := exists_cons_of_mem h
  exact containers_of_leased hleased ▸ Multiset.mem_cons_self _ _

/-- A container appears once in the books. -/
theorem Sound.ne_of_kept (h : books.Sound config)
    (hkept : books.kept = (container, phase) ::ₘ kept) {other : ℕ}
    (hother : other ∈ { books with kept }.containers) : other ≠ container := by
  have hnodup := h.distinct
  rw [containers_of_kept hkept, Multiset.nodup_cons] at hnodup
  rintro rfl
  exact hnodup.1 hother

/-- A leased container is leased once, and kept by nobody. -/
theorem Sound.ne_of_leased (h : books.Sound config) (hleased : (token, entry) ∈ books.leased) :
    (∀ other phase, (other, phase) ∈ books.kept → other ≠ entry.container) ∧
      ∀ other entry', (other, entry') ∈ books.leased → other ≠ token →
        entry'.container ≠ entry.container := by
  obtain ⟨leased, hcons⟩ := exists_cons_of_mem hleased
  have hnodup := h.distinct
  rw [containers_of_leased hcons, Multiset.nodup_cons] at hnodup
  refine ⟨fun other phase hother heq => hnodup.1 ?_, fun other entry' hother hne heq => hnodup.1 ?_⟩
  · exact heq ▸ @mem_containers_of_kept { books with leased } _ _ hother
  · rw [hcons, Multiset.mem_cons] at hother
    rcases hother with hsame | hother
    · exact absurd (congrArg Prod.fst hsame) hne
    · exact heq ▸ @mem_containers_of_leased { books with leased } _ _ hother

theorem Sound.opens (h : books.Sound config) (hopen : books.closed = false)
    (hroom : books.live < config.maxLive) :
    Sound config { books with live := books.live + 1, vacant := books.vacant + 1 } :=
  { h with
    live_eq := by
      have := h.live_eq
      dsimp only
      omega
    bound := by
      have hnone : books.discarded = 0 := h.opened hopen
      simp only [hnone, card_zero]
      omega }

theorem Sound.frees (h : books.Sound config) {vacant : ℕ} (hvacant : books.vacant = vacant + 1) :
    Sound config { books with live := books.live - 1, vacant } :=
  { h with
    live_eq := by
      have := h.live_eq
      dsimp only
      omega
    bound := (Nat.add_le_add_right (Nat.sub_le _ _) _).trans h.bound }

theorem Sound.bears (h : books.Sound config) {vacant : ℕ} (hvacant : books.vacant = vacant + 1) :
    Sound config { books with
      vacant
      nextContainer := books.nextContainer + 1
      alive := books.nextContainer ::ₘ books.alive
      kept := (books.nextContainer, .fit 0) ::ₘ books.kept } := by
  have hcons : ∀ vacant nextContainer alive, containers { books with
      vacant, nextContainer, alive, kept := (books.nextContainer, .fit 0) ::ₘ books.kept } =
      books.nextContainer ::ₘ books.containers := fun _ _ _ =>
    @containers_of_kept { books with
      vacant := _, nextContainer := _, alive := _, kept := _ } _ _ _ rfl
  exact { h with
    live_eq := by
      have := h.live_eq
      simp only [card_cons]
      omega
    distinct := by
      rw [hcons, Multiset.nodup_cons]
      exact ⟨fun hmem => lt_irrefl _ (h.born _ hmem), h.distinct⟩
    born := by
      rw [hcons]
      intro container hmem
      rcases Multiset.mem_cons.mp hmem with rfl | hmem
      · exact Nat.lt_succ_self _
      · exact Nat.lt_succ_of_lt (h.born _ hmem)
    unborn := fun container hle => h.unborn container (Nat.le_of_succ_le hle)
    alive_le := by
      rw [hcons]
      exact Multiset.cons_le_cons _ h.alive_le
    kept_holds := by
      intro container phase hmem
      rcases Multiset.mem_cons.mp hmem with heq | hmem
      · obtain ⟨rfl, rfl⟩ := Prod.mk.inj heq
        have hunborn : books.uses books.nextContainer = [] := h.unborn _ le_rfl
        dsimp only
        rw [hunborn]
        exact ⟨.inl not_mem_nil, rfl, .inl rfl⟩
      · exact h.kept_holds container phase hmem }

/-- Whatever leaves the books leaves no more containers than exist. -/
theorem alive_erase_le (h : books.alive ≤ books.containers) {rest : Multiset ℕ}
    (hcons : books.containers = container ::ₘ rest) : books.alive.erase container ≤ rest :=
  erase_le_iff_le_cons.mpr (hcons ▸ h)

theorem Sound.buries (h : books.Sound config)
    (hkept : books.kept = (container, phase) ::ₘ kept) :
    Sound config { books with
      vacant := books.vacant + 1
      alive := books.alive.erase container
      kept } := by
  have hcons := containers_of_kept hkept
  have hnodup := h.distinct
  rw [hcons, Multiset.nodup_cons] at hnodup
  exact { h with
    live_eq := by
      have := h.live_eq
      rw [hkept, card_cons] at this
      dsimp only
      omega
    distinct := hnodup.2
    born := fun other hmem => h.born other (hcons ▸ Multiset.mem_cons_of_mem hmem)
    alive_le := alive_erase_le h.alive_le hcons
    kept_holds := fun other phase' hmem =>
      h.kept_holds other phase' (hkept ▸ Multiset.mem_cons_of_mem hmem) }

theorem Sound.discards (h : books.Sound config)
    (hkept : books.kept = (container, phase) ::ₘ kept) (hclosed : books.closed = true) :
    Sound config { books with
      live := books.live - 1
      kept
      discarded := container ::ₘ books.discarded } := by
  have hlive := h.live_eq
  rw [hkept, card_cons] at hlive
  have hsame : containers { books with
      live := books.live - 1, kept, discarded := container ::ₘ books.discarded } =
      books.containers := by
    simp only [containers, hkept, Multiset.map_cons, cons_add, add_cons]
  exact { h with
    live_eq := by
      dsimp only
      omega
    bound := by
      have := h.bound
      simp only [card_cons]
      omega
    opened := fun hopen => absurd hopen (by simp [hclosed])
    distinct := hsame ▸ h.distinct
    born := hsame ▸ h.born
    alive_le := hsame ▸ h.alive_le
    kept_holds := fun other phase' hmem =>
      h.kept_holds other phase' (hkept ▸ Multiset.mem_cons_of_mem hmem) }

theorem Sound.forgets (h : books.Sound config)
    (hdiscarded : books.discarded = container ::ₘ discarded) :
    Sound config { books with alive := books.alive.erase container, discarded } := by
  have hcons := containers_of_discarded hdiscarded
  have hnodup := h.distinct
  rw [hcons, Multiset.nodup_cons] at hnodup
  exact { h with
    bound := by
      have := h.bound
      rw [hdiscarded, card_cons] at this
      dsimp only
      omega
    opened := fun hopen => by
      have := h.opened hopen
      simp [hdiscarded] at this
    distinct := hnodup.2
    born := fun other hmem => h.born other (hcons ▸ Multiset.mem_cons_of_mem hmem)
    alive_le := alive_erase_le h.alive_le hcons }

theorem Sound.regards (h : books.Sound config)
    (hkept : books.kept = (container, phase) ::ₘ kept) {phase' : Phase}
    (hphase : ∀ uses, phase.Holds config.maxLeasesPerContainer uses →
      phase'.Holds config.maxLeasesPerContainer uses) :
    Sound config { books with kept := (container, phase') ::ₘ kept } := by
  have hsame : containers { books with kept := (container, phase') ::ₘ kept } =
      books.containers := by
    simp only [containers, hkept, Multiset.map_cons]
  exact { h with
    live_eq := by
      have := h.live_eq
      rw [hkept, card_cons] at this
      simpa only [card_cons] using this
    distinct := hsame ▸ h.distinct
    born := hsame ▸ h.born
    alive_le := hsame ▸ h.alive_le
    kept_holds := by
      intro other phase'' hmem
      rcases Multiset.mem_cons.mp hmem with heq | hmem
      · obtain ⟨rfl, rfl⟩ := Prod.mk.inj heq
        exact hphase _ (h.kept_holds other phase (hkept ▸ Multiset.mem_cons_self _ _))
      · exact h.kept_holds other phase'' (hkept ▸ Multiset.mem_cons_of_mem hmem) }

theorem Sound.closes (h : books.Sound config) : Sound config { books with closed := true } :=
  { h with opened := fun hopen => nomatch hopen }

theorem swept_of_notMem (h : container ∉ books.alive) : books.swept container = books := by
  rw [swept, erase_of_notMem h]

theorem Sound.swept (h : books.Sound config) (container : ℕ) :
    (books.swept container).Sound config :=
  { h with alive_le := (erase_le _ _).trans h.alive_le }

/-! ### Uses that are recorded -/

@[simp] theorem recorded_self (use : Use) :
    books.recorded container use container = use :: books.uses container :=
  update_self ..

theorem recorded_of_ne (use : Use) {other : ℕ} (h : other ≠ container) :
    books.recorded container use other = books.uses other :=
  update_of_ne h ..

/-- Only a lease counts as one. -/
theorem count_recorded {use : Use} (huse : use ≠ .leased) (other : ℕ) :
    (books.recorded container use other).count .leased = (books.uses other).count .leased := by
  by_cases h : other = container
  · subst h
    rw [recorded_self, List.count_cons_of_ne huse]
  · rw [recorded_of_ne use h]

theorem Sound.unborn_recorded (h : books.Sound config) (hmem : container ∈ books.containers)
    (use : Use) (other : ℕ) (hle : books.nextContainer ≤ other) :
    books.recorded container use other = [] := by
  rw [recorded_of_ne use ((h.born container hmem).trans_le hle).ne']
  exact h.unborn other hle

theorem Sound.reused_recorded (h : books.Sound config) {use : Use}
    (hready : use = .leased → Ready (books.uses container)) (other : ℕ) :
    Reused (books.recorded container use other) := by
  by_cases hother : other = container
  · subst hother
    rw [recorded_self]
    exact (h.reused other).cons hready
  · rw [recorded_of_ne use hother]
    exact h.reused other

theorem Sound.leases_recorded (h : books.Sound config) {use : Use} (huse : use ≠ .leased)
    (other : ℕ) : (books.recorded container use other).count .leased ≤
      max 1 config.maxLeasesPerContainer :=
  (count_recorded huse other).trans_le (h.leases_le other)

/-- The kept containers that are not the one used. -/
theorem Sound.kept_recorded (h : books.Sound config) {use : Use}
    (hne : ∀ other phase, (other, phase) ∈ kept → (other, phase) ∈ books.kept ∧ other ≠ container)
    (other : ℕ) (phase : Phase) (hmem : (other, phase) ∈ kept) :
    phase.Holds config.maxLeasesPerContainer (books.recorded container use other) := by
  obtain ⟨hkept, hother⟩ := hne other phase hmem
  rw [recorded_of_ne use hother]
  exact h.kept_holds other phase hkept

theorem Sound.lends (h : books.Sound config) {leases : ℕ}
    (hkept : books.kept = (container, .fit leases) ::ₘ kept) :
    Sound config { books with
      nextToken := books.nextToken + 1
      uses := books.recorded container .leased
      kept
      leased := (books.nextToken, ⟨container, leases + 1⟩) ::ₘ books.leased
      held := (books.nextToken, container) ::ₘ books.held } := by
  have hmine : (container, Phase.fit leases) ∈ books.kept := hkept ▸ Multiset.mem_cons_self _ _
  obtain ⟨hready, hcount, hroom⟩ := h.kept_holds container _ hmine
  have hsame : ∀ uses nextToken held, containers { books with
      nextToken, uses, kept, held
      leased := (books.nextToken, ⟨container, leases + 1⟩) ::ₘ books.leased } =
      books.containers := by
    intro _ _ _
    simp only [containers, hkept, Multiset.map_cons, cons_add, add_cons]
  have hleased : ∀ token entry, (token, entry) ∈ books.leased → entry.container ≠ container :=
    fun token entry hmem => h.ne_of_kept hkept
      (@mem_containers_of_leased { books with kept } _ _ hmem)
  have hnew : books.nextToken ∉ books.leased.map Prod.fst :=
    fun hmem => lt_irrefl _ (h.tokens_lt _ hmem)
  exact { h with
    live_eq := by
      have := h.live_eq
      rw [hkept, card_cons] at this
      simp only [card_cons]
      omega
    distinct := hsame _ _ _ ▸ h.distinct
    born := hsame _ _ _ ▸ h.born
    unborn := h.unborn_recorded (mem_containers_of_kept hmine) _
    alive_le := hsame _ _ _ ▸ h.alive_le
    tokens := by
      have := h.tokens
      simp only [Multiset.map_cons, cons_add, this]
    tokens_nodup := by
      simp only [Multiset.map_cons, Multiset.nodup_cons]
      exact ⟨hnew, h.tokens_nodup⟩
    tokens_lt := by
      simp only [Multiset.map_cons]
      intro token hmem
      rcases Multiset.mem_cons.mp hmem with rfl | hmem
      · exact Nat.lt_succ_self _
      · exact Nat.lt_succ_of_lt (h.tokens_lt token hmem)
    kept_holds := h.kept_recorded fun other phase hmem =>
      ⟨hkept ▸ Multiset.mem_cons_of_mem hmem,
        h.ne_of_kept hkept (@mem_containers_of_kept { books with kept } _ _ hmem)⟩
    held_spec := by
      intro token other hmem
      rcases Multiset.mem_cons.mp hmem with heq | hmem
      · obtain ⟨rfl, rfl⟩ := Prod.mk.inj heq
        refine ⟨leases + 1, Multiset.mem_cons_self _ _, ?_⟩
        dsimp only
        rw [recorded_self, List.count_cons_self, hcount]
      · obtain ⟨n, hmem, hn⟩ := h.held_spec token other hmem
        refine ⟨n, Multiset.mem_cons_of_mem hmem, ?_⟩
        dsimp only
        rw [recorded_of_ne _ (hleased _ _ hmem), hn]
    returned_spec := by
      intro token healthy hmem
      obtain ⟨entry, hmem, hentry⟩ := h.returned_spec token healthy hmem
      refine ⟨entry, Multiset.mem_cons_of_mem hmem, ?_⟩
      dsimp only
      rwa [recorded_of_ne _ (hleased _ _ hmem)]
    reused := h.reused_recorded fun _ => hready
    leases_le := by
      intro other
      by_cases hother : other = container
      · subst hother
        dsimp only
        rw [recorded_self, List.count_cons_self, hcount]
        omega
      · dsimp only
        rw [recorded_of_ne _ hother]
        exact h.leases_le other }

theorem Sound.releases (h : books.Sound config) (healthy : Bool) {held : Multiset (ℕ × ℕ)}
    (hheld : books.held = (token, container) ::ₘ held) :
    Sound config { books with
      uses := books.recorded container (.released healthy)
      held
      returned := (token, healthy) ::ₘ books.returned } := by
  obtain ⟨leases, hmine, hcount⟩ := h.held_spec token container (hheld ▸ Multiset.mem_cons_self _ _)
  obtain ⟨hkept, hothers⟩ := h.ne_of_leased hmine
  have huse : Use.released healthy ≠ .leased := nofun
  have htokens := h.tokens
  have hnodup := h.tokens_nodup
  rw [htokens, hheld, Multiset.map_cons, cons_add, Multiset.nodup_cons] at hnodup
  exact { h with
    unborn := h.unborn_recorded (mem_containers_of_leased hmine) _
    tokens := by
      rw [htokens, hheld]
      simp only [Multiset.map_cons, cons_add, add_cons]
    kept_holds := h.kept_recorded fun other phase hmem => ⟨hmem, hkept other phase hmem⟩
    held_spec := by
      intro token' other hmem
      obtain ⟨n, hmem, hn⟩ := h.held_spec token' other (hheld ▸ Multiset.mem_cons_of_mem hmem)
      exact ⟨n, hmem, (count_recorded huse other).trans hn⟩
    returned_spec := by
      intro token' healthy' hmem
      rcases Multiset.mem_cons.mp hmem with heq | hin
      · obtain ⟨rfl, rfl⟩ := Prod.mk.inj heq
        refine ⟨⟨container, leases⟩, hmine, ?_, (count_recorded huse _).trans hcount⟩
        dsimp only
        rw [recorded_self, head?_cons]
      · obtain ⟨entry, hentry, hhead, hn⟩ := h.returned_spec token' healthy' hin
        have htoken' : token' ∈ books.returned.map Prod.fst := Multiset.mem_map_of_mem Prod.fst hin
        have hne : token' ≠ token := by
          rintro rfl
          exact hnodup.1 (mem_add.mpr (.inr htoken'))
        refine ⟨entry, hentry, ?_, (count_recorded huse _).trans hn⟩
        dsimp only
        rwa [recorded_of_ne _ (hothers token' entry hentry hne)]
    reused := h.reused_recorded fun heq => absurd heq huse
    leases_le := h.leases_recorded huse }

theorem Sound.reclaims (h : books.Sound config) {healthy : Bool} {returned : Multiset (ℕ × Bool)}
    (hreturned : books.returned = (token, healthy) ::ₘ returned)
    (hleased : books.leased = (token, entry) ::ₘ leased) : Sound config { books with
      kept := (entry.container, .back healthy entry.leases) ::ₘ books.kept
      leased
      returned } := by
  have hsame : ∀ returned, containers { books with
      kept := (entry.container, .back healthy entry.leases) ::ₘ books.kept, leased, returned } =
      books.containers := by
    intro _
    simp only [containers, hleased, Multiset.map_cons, cons_add, add_cons]
  have htokens := h.tokens
  have hnodup := h.tokens_nodup
  rw [hleased, Multiset.map_cons, Multiset.nodup_cons] at hnodup
  rw [hleased, hreturned, Multiset.map_cons, Multiset.map_cons, add_cons,
    Multiset.cons_inj_right] at htokens
  -- the other leases stay, their tokens being others
  have hstays {token' : ℕ} {entry' : Entry} (hmem : (token', entry') ∈ books.leased)
      (htoken : token' ∈ leased.map Prod.fst) : (token', entry') ∈ leased := by
    rw [hleased] at hmem
    rcases Multiset.mem_cons.mp hmem with heq | hmem
    · obtain ⟨rfl, -⟩ := Prod.mk.inj heq
      exact absurd htoken hnodup.1
    · exact hmem
  exact { h with
    live_eq := by
      have := h.live_eq
      rw [hleased, card_cons] at this
      simp only [card_cons]
      omega
    distinct := hsame _ ▸ h.distinct
    born := hsame _ ▸ h.born
    alive_le := hsame _ ▸ h.alive_le
    tokens := htokens
    tokens_nodup := hnodup.2
    tokens_lt := fun token' hmem => h.tokens_lt token' (by
      rw [hleased, Multiset.map_cons]
      exact Multiset.mem_cons_of_mem hmem)
    kept_holds := by
      intro other phase hmem
      rcases Multiset.mem_cons.mp hmem with heq | hmem
      · obtain ⟨rfl, rfl⟩ := Prod.mk.inj heq
        obtain ⟨entry', hentry, hspec⟩ :=
          h.returned_spec token healthy (hreturned ▸ Multiset.mem_cons_self _ _)
        rw [hleased] at hentry
        rcases Multiset.mem_cons.mp hentry with heq | hentry
        · obtain ⟨-, rfl⟩ := Prod.mk.inj heq
          exact hspec
        · exact absurd (Multiset.mem_map_of_mem Prod.fst hentry) hnodup.1
      · exact h.kept_holds other phase hmem
    held_spec := by
      intro token' other hmem
      obtain ⟨n, hentry, hn⟩ := h.held_spec token' other hmem
      refine ⟨n, hstays hentry ?_, hn⟩
      rw [htokens]
      exact mem_add.mpr (.inl (Multiset.mem_map_of_mem Prod.fst hmem))
    returned_spec := by
      intro token' healthy' hmem
      obtain ⟨entry', hentry, hspec⟩ :=
        h.returned_spec token' healthy' (hreturned ▸ Multiset.mem_cons_of_mem hmem)
      refine ⟨entry', hstays hentry ?_, hspec⟩
      rw [htokens]
      exact mem_add.mpr (.inr (Multiset.mem_map_of_mem Prod.fst hmem)) }

theorem Sound.recycles (h : books.Sound config) {leases : ℕ}
    (hkept : books.kept = (container, .cleared leases) ::ₘ kept) :
    Sound config { books with
      uses := books.recorded container .recycled
      kept := (container, .fit leases) ::ₘ kept } := by
  have hmine : (container, Phase.cleared leases) ∈ books.kept := hkept ▸ Multiset.mem_cons_self _ _
  obtain ⟨hhead, hcount, hroom⟩ := h.kept_holds container _ hmine
  have huse : Use.recycled ≠ .leased := nofun
  have hleased : ∀ token entry, (token, entry) ∈ books.leased → entry.container ≠ container :=
    fun token entry hmem => h.ne_of_kept hkept
      (@mem_containers_of_leased { books with kept } _ _ hmem)
  have hsame : ∀ uses, containers { books with uses, kept := (container, .fit leases) ::ₘ kept } =
      books.containers := by
    intro _
    simp only [containers, hkept, Multiset.map_cons]
  exact { h with
    live_eq := by
      have := h.live_eq
      rw [hkept, card_cons] at this
      simpa only [card_cons] using this
    distinct := hsame _ ▸ h.distinct
    born := hsame _ ▸ h.born
    unborn := h.unborn_recorded (mem_containers_of_kept hmine) _
    alive_le := hsame _ ▸ h.alive_le
    kept_holds := by
      intro other phase hmem
      rcases Multiset.mem_cons.mp hmem with heq | hmem
      · obtain ⟨rfl, rfl⟩ := Prod.mk.inj heq
        obtain ⟨earlier, hearlier⟩ := head?_eq_some_iff.mp hhead
        dsimp only
        refine ⟨.inr ⟨earlier, ?_⟩, (count_recorded huse _).trans hcount, .inr hroom⟩
        rw [recorded_self, hearlier]
      · exact h.kept_recorded (fun other phase hmem =>
          ⟨hkept ▸ Multiset.mem_cons_of_mem hmem,
            h.ne_of_kept hkept (@mem_containers_of_kept { books with kept } _ _ hmem)⟩)
          other phase hmem
    held_spec := by
      intro token other hmem
      obtain ⟨n, hmem, hn⟩ := h.held_spec token other hmem
      exact ⟨n, hmem, (count_recorded huse other).trans hn⟩
    returned_spec := by
      intro token healthy hmem
      obtain ⟨entry, hmem, hhead, hn⟩ := h.returned_spec token healthy hmem
      refine ⟨entry, hmem, ?_, (count_recorded huse _).trans hn⟩
      dsimp only
      rwa [recorded_of_ne _ (hleased _ _ hmem)]
    reused := h.reused_recorded fun heq => absurd heq huse
    leases_le := h.leases_recorded huse }

/-- **Every entry keeps the books sound.** -/
theorem Sound.step (h : books.Sound config) (hstep : Step config books books') :
    books'.Sound config := by
  cases hstep with
  | opens hopen hroom => exact h.opens hopen hroom
  | frees hvacant => exact h.frees hvacant
  | bears hvacant => exact h.bears hvacant
  | buries hkept => exact h.buries hkept
  | discards hkept hclosed => exact h.discards hkept hclosed
  | forgets hdiscarded => exact h.forgets hdiscarded
  | regards phase' hkept hphase => exact h.regards hkept hphase
  | lends hkept => exact h.lends hkept
  | releases healthy hheld => exact h.releases healthy hheld
  | reclaims hreturned hleased => exact h.reclaims hreturned hleased
  | recycles hkept => exact h.recycles hkept
  | closes => exact h.closes

/-- No container is held twice. -/
theorem Sound.held_nodup (h : books.Sound config) : (books.held.map Prod.snd).Nodup := by
  have htokens := h.tokens_nodup
  rw [h.tokens, nodup_add] at htokens
  refine Multiset.Nodup.map_on ?_ htokens.1.of_map
  rintro ⟨token, container⟩ hmem ⟨token', other⟩ hmem' (rfl : container = other)
  obtain ⟨leases, hleased, -⟩ := h.held_spec token container hmem
  obtain ⟨leases', hleased', -⟩ := h.held_spec token' container hmem'
  by_contra hne
  refine (h.ne_of_leased hleased).2 token' _ hleased' (fun htoken => hne ?_) rfl
  rw [htoken]

/-- Nothing of the books is gone behind their back. -/
def Exact (books : Books) : Prop := books.alive = books.containers

theorem Exact.step (h : books.Exact) (hstep : Step config books books') : books'.Exact := by
  have hgone {container : ℕ} {rest : Multiset ℕ} (hcons : books.containers = container ::ₘ rest) :
      books.alive.erase container = rest := by
    rw [show books.alive = _ from h, hcons, Multiset.erase_cons_head]
  cases hstep with
  | opens | frees | releases | closes => exact h
  | bears hvacant =>
    show _ ::ₘ books.alive = _
    rw [show books.alive = _ from h]
    simp [containers, cons_add]
  | buries hkept => exact hgone (containers_of_kept hkept)
  | forgets hdiscarded => exact hgone (containers_of_discarded hdiscarded)
  | discards hkept hclosed =>
    refine Eq.trans (show books.alive = _ from h) ?_
    simp [containers, hkept, cons_add, add_cons]
  | regards phase' hkept hphase =>
    refine Eq.trans (show books.alive = _ from h) ?_
    simp [containers, hkept]
  | lends hkept =>
    refine Eq.trans (show books.alive = _ from h) ?_
    simp [containers, hkept, cons_add, add_cons]
  | reclaims hreturned hleased =>
    refine Eq.trans (show books.alive = _ from h) ?_
    simp [containers, hleased, cons_add, add_cons]
  | recycles hkept =>
    refine Eq.trans (show books.alive = _ from h) ?_
    simp [containers, hkept]

end Books

end Retrograd.Container
