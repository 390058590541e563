import Retrograd.Infer.KvRuns

/-!
# How long a prefix the lookup finds

The walk of `longestPrefix` follows the prompt to the deepest node whose path is a prefix of it,
then **probes one child** for a slot. Every answer is sound, and the longest *full* prefix is
always found. A longer *partial* hit is found when the probed child's subtree holds a slot; when
it holds none the walk does not look at the other branches, and then the answer is the longest
one exactly when no branch of the walk holds a slot that no full prefix covers. A detached slot
is enough to reach a tree where it is not.
-/

namespace Retrograd.Infer

open Logic List Option

namespace PrefixTree

/-! ### What the lookup should find -/

/-- The caller's check that accepts exactly the nodes that own a slot. -/
def bearsSlot (t : PrefixTree) (node _hit : ℕ) : Bool := (t.nodes node).slot.isSome

/-- The node `i` of the namespace `ns` is at the end of `path`. -/
def Stored (t : PrefixTree) (ns : Namespace) (i : ℕ) (path : List Token) : Prop :=
  ∃ keys, t.At ns keys i path

/-- The node `i` of `ns`, at the end of `path`, owns a slot. -/
def Holding (t : PrefixTree) (ns : Namespace) (i : ℕ) (path : List Token) : Prop :=
  t.Stored ns i path ∧ (t.nodes i).slot.isSome

/-- A sound answer: a node of the namespace that owns a slot and agrees with the tokens on the
whole hit. -/
structure SoundHit (t : PrefixTree) (ns : Namespace) (tokens : List Token) (partialOk : Bool)
    (node hit : ℕ) : Prop where
  path : ∃ path, t.Holding ns node path ∧ path.take hit = tokens.take hit
  le_depth : hit ≤ (t.nodes node).depth
  le_tokens : hit ≤ tokens.length
  exact : partialOk = false → hit = (t.nodes node).depth

/-- No node that owns a slot shares more than `hit` tokens; without partial hits, none is a
longer full prefix. -/
def Maximal (t : PrefixTree) (ns : Namespace) (tokens : List Token) (partialOk : Bool)
    (hit : ℕ) : Prop :=
  ∀ i path, t.Holding ns i path →
    if partialOk then commonLen path tokens ≤ hit
    else path <+: tokens → path.length ≤ hit

/-- The deepest node whose path is a prefix of the tokens. -/
def Stop (t : PrefixTree) (ns : Namespace) (tokens : List Token) (cur : ℕ)
    (path : List Token) : Prop :=
  t.Stored ns cur path ∧ path <+: tokens ∧
    ∀ i q, t.Stored ns i q → q <+: tokens → q.length ≤ path.length

/-- The child the lookup probes below its last node: the one that continues the prompt, or else
the first in key order. -/
def probe (t : PrefixTree) (cur : ℕ) (rest : List Token) : Option ℕ :=
  (rest.head?.bind (t.nodes cur).children.get).or (t.nodes cur).children.values.head?

/-- A slot lies below the child the lookup probes. -/
def ProbeHolds (t : PrefixTree) (ns : Namespace) (tokens : List Token) : Prop :=
  ∃ cur path child, t.Stop ns tokens cur path ∧
    t.probe cur (tokens.drop path.length) = some child ∧
    ∃ i q, t.Holding ns i q ∧ path ++ (t.nodes child).edge <+: q

/-- Every slot below a node on the walk is covered: the walk meets a slot at that node or
further down. -/
def WalkCovers (t : PrefixTree) (ns : Namespace) (tokens : List Token) : Prop :=
  ∀ i path, t.Stored ns i path → path ≠ [] → path <+: tokens →
    (∃ j q, t.Holding ns j q ∧ path <+: q) → ∃ j q, t.Holding ns j q ∧ q <+: tokens ∧ path <+: q

variable {t : PrefixTree} {P : Labels} {ns : Namespace} {p q rest tokens : List Token}
  {i j cur child r : ℕ} {a : Token}

namespace Stores

variable (h : Stores t P)

include h

theorem stored_iff : t.Stored ns i p ↔ P i = some (ns, p) :=
  ⟨fun ⟨_, hat⟩ => h.at_label hat, h.exists_at⟩

theorem holding_iff : t.Holding ns i p ↔ P i = some (ns, p) ∧ (t.nodes i).slot.isSome :=
  and_congr_left' h.stored_iff

/-- A node whose path extends another's lies below it, through the child its next token keys. -/
theorem child_of_prefix (hi : P i = some (ns, p)) (hj : P j = some (ns, q)) (hpq : p <+: q)
    (hne : p ≠ q) : ∃ a c keys path, (t.nodes i).children.get a = some c ∧
      t.follow c keys = some (j, path) ∧ q = p ++ (t.nodes c).edge ++ path := by
  obtain ⟨keys, r, hr, hfollow⟩ := h.exists_at hi
  obtain ⟨keys', r', hr', hfollow'⟩ := h.exists_at hj
  obtain rfl : r = r' := some.inj (hr.symm.trans hr')
  obtain ⟨more, rfl⟩ := h.follow_prefix ((h.root_iff ns r).mp hr) hfollow hfollow' hpq
  obtain ⟨path, hmore, hq⟩ := follow_append_eq_some hfollow hfollow'
  cases more with
  | nil =>
    cases hmore
    exact absurd (by rw [hq, append_nil]) hne
  | cons a more =>
    obtain ⟨c, path', hget, hrest, rfl⟩ := follow_cons_eq_some hmore
    exact ⟨a, c, more, path', hget, hrest, by rw [hq, append_assoc]⟩

end Stores

/-! ### Common heads -/

theorem commonLen_append (p s u : List Token) :
    commonLen (p ++ s) (p ++ u) = p.length + commonLen s u := by
  induction p with
  | nil => simp
  | cons a p ih =>
    rw [cons_append, cons_append, commonLen, if_pos rfl, ih, length_cons]
    omega

theorem commonLen_nil (s : List Token) : commonLen [] s = 0 := by simp [commonLen]

/-- What follows an edge that the tokens leave does not matter. -/
theorem commonLen_append_left {edge rest : List Token} (more : List Token)
    (h : commonLen edge rest < edge.length) : commonLen (edge ++ more) rest = commonLen edge rest := by
  induction edge, rest using commonLen.induct with
  | case1 a edge tokens ih =>
    rw [commonLen, if_pos rfl, length_cons] at h
    rw [cons_append, commonLen, if_pos rfl, commonLen, if_pos rfl, ih (by omega)]
  | case2 a edge b tokens hab =>
    rw [cons_append, commonLen, if_neg hab, commonLen, if_neg hab]
  | case3 edge tokens hne =>
    cases edge with
    | nil => simp at h
    | cons a edge =>
      cases tokens with
      | nil => simp [commonLen]
      | cons b tokens => exact absurd rfl (hne a edge b tokens rfl)

theorem commonLen_of_starts (h : p <+: tokens) : commonLen p tokens = p.length := by
  obtain ⟨rest, rfl⟩ := h
  have heq := commonLen_append p [] rest
  rwa [append_nil, commonLen_nil, Nat.add_zero] at heq

/-- A common head of both is no longer than the common length. -/
theorem le_commonLen (h : p <+: q) (h' : p <+: tokens) : p.length ≤ commonLen q tokens := by
  obtain ⟨s, rfl⟩ := h
  obtain ⟨u, rfl⟩ := h'
  rw [commonLen_append]
  omega

/-! ### Where a path leaves the prompt -/

/-- A stored path is a full prefix of the tokens, or leaves them at a node on the walk, or
leaves them inside the edge the walk stops at. -/
theorem Stores.leaves (h : Stores t P) (hstop : t.Stop ns tokens cur p) :
    ∀ {keys : List Token} {x : ℕ} {path rest : List Token}, P x = some (ns, path) →
      path <+: tokens → t.follow x keys = some (i, rest) →
        path ++ rest <+: tokens ∨
        (∃ y r, P y = some (ns, r) ∧ r <+: tokens ∧ r <+: path ++ rest ∧
          commonLen (path ++ rest) tokens = r.length) ∨
        ∃ a child, (tokens.drop p.length).head? = some a ∧
          (t.nodes cur).children.get a = some child ∧
          p ++ (t.nodes child).edge <+: path ++ rest ∧
          commonLen (path ++ rest) tokens =
            p.length + commonLen (t.nodes child).edge (tokens.drop p.length) := by
  obtain ⟨hcur, hprefix, hdeepest⟩ := hstop
  rw [h.stored_iff] at hcur
  intro keys
  induction keys with
  | nil =>
    intro x path rest hx hpath hfollow
    cases hfollow
    rw [append_nil]
    exact .inl hpath
  | cons a keys ih =>
    intro x path rest hx hpath hfollow
    obtain ⟨c, more, hget, hmore, rfl⟩ := follow_cons_eq_some hfollow
    obtain ⟨hc, -, hhead⟩ := h.child x ns path a c hx hget
    obtain ⟨tail, rfl⟩ := hpath
    rw [← append_assoc]
    by_cases hwhole : (t.nodes c).edge <+: tail
    · exact ih hc ((prefix_append_right_inj path).mpr hwhole) hmore
    have hlt : commonLen (t.nodes c).edge tail < (t.nodes c).edge.length := by
      refine lt_of_le_of_ne (commonLen_le _ _) fun heq => hwhole ?_
      exact ⟨_, append_drop_of_commonLen heq⟩
    have hcommon : commonLen (path ++ (t.nodes c).edge ++ more) (path ++ tail)
        = path.length + commonLen (t.nodes c).edge tail := by
      rw [append_assoc, commonLen_append, commonLen_append_left _ hlt]
    by_cases hzero : commonLen (t.nodes c).edge tail = 0
    · refine .inr (.inl ⟨x, path, hx, prefix_append .., ?_, by rw [hcommon, hzero]; rfl⟩)
      rw [append_assoc]
      exact prefix_append ..
    -- the tokens go on into the edge, so the walk comes to the same node and stops there
    have htail : tail.head? = some a := by
      obtain ⟨edge, hedge⟩ := head?_eq_some_iff.mp hhead
      rw [hedge] at hzero
      cases tail with
      | nil => simp [commonLen] at hzero
      | cons b tail =>
        by_cases hab : a = b
        · rw [hab]; rfl
        · simp [commonLen, hab] at hzero
    have hle := hdeepest x path (h.stored_iff.mpr hx) (prefix_append ..)
    have hpp : path <+: p := prefix_of_prefix_length_le (prefix_append ..) hprefix hle
    have hsame : path = p := by
      by_contra hne
      obtain ⟨b, d, keys', way, hget', -, hp⟩ := h.child_of_prefix hx hcur hpp hne
      have hd := (h.child x ns path b d hx hget').2.2
      rw [hp, append_assoc, prefix_append_right_inj] at hprefix
      obtain ⟨u, hu⟩ := hprefix
      have hba : b = a := by
        obtain ⟨edge, hedge⟩ := head?_eq_some_iff.mp hd
        rw [← hu, hedge] at htail
        exact some.inj htail
      subst b
      obtain rfl : c = d := some.inj (hget.symm.trans hget')
      exact hwhole ⟨way ++ u, by rw [← hu, append_assoc]⟩
    subst hsame
    obtain rfl : x = cur := h.label_unique hx hcur
    rw [drop_left]
    refine .inr (.inr ⟨a, c, htail, hget, ?_, hcommon⟩)
    exact prefix_append ..

/-! ### Slots below a child -/

/-- A fold that keeps the deepest slot keeps one as soon as it meets one. -/
private theorem foldl_deepest_isSome (t : PrefixTree) (visited : List ℕ) :
    ∀ best : Option ℕ, best.isSome ∨ (∃ i ∈ visited, (t.nodes i).slot.isSome) →
      (visited.foldl (fun best i =>
        if (t.nodes i).slot.isSome && best.all fun b => (t.nodes b).depth < (t.nodes i).depth then
          some i
        else best) best).isSome := by
  induction visited with
  | nil => intro best hbest; simpa using hbest
  | cons x visited ih =>
    intro best hbest
    rw [foldl_cons]
    refine ih _ ?_
    cases best with
    | some b =>
      left
      split <;> rfl
    | none =>
      by_cases hx : (t.nodes x).slot.isSome
      · left
        simp [hx]
      · right
        simpa [hx] using hbest

/-- Every node of the child's subtree is visited. -/
theorem visited_of_follow {visited : List ℕ}
    (hclosed : ∀ x ∈ visited, ∀ c ∈ (t.nodes x).children.values, c ∈ visited) :
    ∀ {keys : List Token} {x : ℕ} {path : List Token}, x ∈ visited →
      t.follow x keys = some (i, path) → i ∈ visited := by
  intro keys
  induction keys with
  | nil => intro x path hx hfollow; cases hfollow; exact hx
  | cons a keys ih =>
    intro x path hx hfollow
    obtain ⟨c, rest, hget, hrest, -⟩ := follow_cons_eq_some hfollow
    exact ih (hclosed x hx c (Map.mem_values.mpr ⟨a, hget⟩)) hrest

/-- A slot is found below a child exactly when one is there. -/
theorem deepestSlotInSubtree_isSome (h : Stores t P) (hi : P i = some (ns, p))
    (hc : child ∈ (t.nodes i).children.values) {found : Option ℕ}
    (hfound : t.deepestSlotInSubtree child = some found) :
    found.isSome ↔ ∃ j q, t.Holding ns j q ∧ p ++ (t.nodes child).edge <+: q := by
  obtain ⟨hchild, -, -⟩ := h.mem_values hi hc
  constructor
  · intro hsome
    obtain ⟨node, rfl⟩ := isSome_iff_exists.mp hsome
    obtain ⟨found', heq, hspec⟩ := deepestSlotInSubtree_spec h hi hc
    rw [hfound] at heq
    cases heq
    obtain ⟨hslot, suffix, hpath⟩ := hspec node rfl
    exact ⟨node, _, h.holding_iff.mpr ⟨hpath, hslot⟩, prefix_append ..⟩
  · rintro ⟨j, q, hholding, hbelow⟩
    obtain ⟨hj, hslot⟩ := h.holding_iff.mp hholding
    obtain ⟨visited, hv⟩ := visit_child h hi hc
    obtain ⟨hstack, hclosed⟩ := visit_closed t.len hv
    have hmem : j ∈ visited := by
      by_cases hsame : p ++ (t.nodes child).edge = q
      · rw [← hsame] at hj
        obtain rfl := h.label_unique hj hchild
        exact hstack j mem_cons_self
      · obtain ⟨a, c, keys, path, hget, hfollow, -⟩ := h.child_of_prefix hchild hj hbelow hsame
        refine visited_of_follow hclosed ?_ hfollow
        exact hclosed child (hstack child mem_cons_self) c (Map.mem_values.mpr ⟨a, hget⟩)
    rw [deepestSlotInSubtree, hv, map_some] at hfound
    rw [← some.inj hfound]
    exact foldl_deepest_isSome t visited none (.inr ⟨j, hmem, hslot⟩)

/-! ### The walk to the stop -/

/-- `best` is the longest full prefix above depth `n`. -/
structure Best (t : PrefixTree) (ns : Namespace) (tokens : List Token) (n : ℕ)
    (best : Option (ℕ × ℕ)) : Prop where
  hit : ∀ node hit, best = some (node, hit) →
    ∃ q, t.Holding ns node q ∧ q <+: tokens ∧ q.length = hit
  longest : ∀ i q, t.Holding ns i q → q <+: tokens → q.length < n → q.length ≤ best.elim 0 Prod.snd

/-- The walk takes a node on the way that owns a slot for its best. -/
theorem Best.node {best : Option (ℕ × ℕ)} (hbest : Best t ns tokens p.length best)
    (h : Stores t P) (hcur : P cur = some (ns, p)) (hp : p <+: tokens) :
    Best t ns tokens (p.length + 1)
      (if 0 < (t.nodes cur).depth && t.bearsSlot cur (t.nodes cur).depth then
        some (cur, (t.nodes cur).depth) else best) := by
  rw [h.depth_eq cur ns p hcur]
  constructor
  · intro node hit heq
    split at heq
    · next hslot =>
      cases heq
      exact ⟨p, h.holding_iff.mpr ⟨hcur, (Bool.and_eq_true_iff.mp hslot).2⟩, hp, rfl⟩
    · exact hbest.hit node hit heq
  · intro i q hi hq hshort
    split
    · exact Nat.le_of_lt_succ hshort
    · next hnot =>
      rcases Nat.lt_or_eq_of_le (Nat.le_of_lt_succ hshort) with hlt | heq
      · exact hbest.longest i q hi hq hlt
      · -- the node at `p` itself owns a slot only when it is the root
        obtain rfl : q = p := (prefix_of_prefix_length_le hq hp heq.le).eq_of_length heq
        obtain ⟨hP, hslot⟩ := h.holding_iff.mp hi
        obtain rfl := h.label_unique hP hcur
        by_cases hq : 0 < q.length
        · exact absurd (by rw [bearsSlot, hslot, decide_eq_true hq]; rfl) hnot
        · omega

/-- The walk ends at the deepest node whose path is a prefix of the prompt, with the longest
full prefix in hand. -/
theorem longestPrefixFrom_stop (h : Stores t P) (partialOk : Bool) (fuel : ℕ) :
    ∀ {cur : ℕ} {p rest : List Token} {best : Option (ℕ × ℕ)}, P cur = some (ns, p) →
      tokens = p ++ rest → rest.length < fuel → Best t ns tokens p.length best →
      ∃ cur' p' best', t.Stop ns tokens cur' p' ∧ Best t ns tokens (p'.length + 1) best' ∧
        t.longestPrefixFrom partialOk t.bearsSlot fuel cur p.length rest best =
          if partialOk then
            t.partialHit t.bearsSlot (t.probe cur' (tokens.drop p'.length))
              (p'.length + (((tokens.drop p'.length).head?.bind
                (t.nodes cur').children.get).elim 0
                  fun child => commonLen (t.nodes child).edge (tokens.drop p'.length))) best'
          else some best' := by
  induction fuel with
  | zero => intro cur p rest best _ _ hfuel; omega
  | succ fuel ih =>
    intro cur p rest best hcur htokens hfuel hbest
    have hdepth := h.depth_eq cur ns p hcur
    have hdrop : tokens.drop p.length = rest := by rw [htokens, drop_left]
    obtain ⟨best', hbestEq⟩ : ∃ best', best' = if 0 < (t.nodes cur).depth &&
      t.bearsSlot cur (t.nodes cur).depth then some (cur, (t.nodes cur).depth) else best :=
        ⟨_, rfl⟩
    have hbest' : Best t ns tokens (p.length + 1) best' := hbestEq ▸ hbest.node h hcur
      (htokens ▸ prefix_append ..)
    have hstop : (∀ child, rest.head?.bind (t.nodes cur).children.get = some child →
        ¬ (t.nodes child).edge <+: rest) → t.Stop ns tokens cur p := by
      intro hleave
      refine ⟨h.stored_iff.mpr hcur, htokens ▸ prefix_append .., fun j q hj hq => ?_⟩
      rw [h.stored_iff] at hj
      by_contra hlong
      have hpq : p <+: q := prefix_of_prefix_length_le (htokens ▸ prefix_append ..) hq
        (Nat.le_of_not_le hlong)
      obtain ⟨a, c, keys, path, hget, -, hpath⟩ := h.child_of_prefix hcur hj hpq
        (by rintro rfl; exact hlong le_rfl)
      obtain ⟨edge, hedge⟩ := head?_eq_some_iff.mp (h.child cur ns p a c hcur hget).2.2
      rw [hpath, htokens, append_assoc, prefix_append_right_inj] at hq
      obtain ⟨u, hu⟩ := hq
      refine hleave c ?_ ⟨path ++ u, by rw [← hu, append_assoc]⟩
      rw [← hu, hedge]
      exact hget
    unfold longestPrefixFrom
    simp only [← hbestEq]
    cases hnext : rest.head?.bind (t.nodes cur).children.get with
    | some child =>
      obtain ⟨first, hfirst, hget⟩ := bind_eq_some_iff.mp hnext
      obtain ⟨hpath, -, hhead⟩ := h.child cur ns p first child hcur hget
      dsimp only
      split
      · next hwhole =>
        have happend := append_drop_of_commonLen hwhole
        have hle := commonLen_le_right (t.nodes child).edge rest
        have hpos : 0 < (t.nodes child).edge.length := by
          obtain ⟨edge, hedge⟩ := head?_eq_some_iff.mp hhead
          simp [hedge]
        rw [hwhole] at happend hle ⊢
        rw [← length_append]
        refine ih hpath ?_ ?_ ⟨hbest'.hit, ?_⟩
        · rw [append_assoc, happend, htokens]
        · rw [length_drop]
          omega
        · -- between this node and the child the walk goes to there is no other
          intro i q hi hq hshort
          refine hbest'.longest i q hi hq (Nat.lt_succ_of_le ?_)
          by_contra hlong
          have hpq : p <+: q := prefix_of_prefix_length_le (htokens ▸ prefix_append ..) hq
            (Nat.le_of_not_le hlong)
          obtain ⟨a, c, keys, path, hget', -, hq'⟩ := h.child_of_prefix hcur
            (h.holding_iff.mp hi).1 hpq (by rintro rfl; exact hlong le_rfl)
          obtain ⟨edge, hedge⟩ := head?_eq_some_iff.mp (h.child cur ns p a c hcur hget').2.2
          have ha : rest.head? = some a := by
            rw [hq', htokens, append_assoc, prefix_append_right_inj] at hq
            obtain ⟨u, hu⟩ := hq
            rw [← hu, hedge]
            rfl
          rw [hfirst] at ha
          cases ha
          obtain rfl : child = c := some.inj (hget.symm.trans hget')
          rw [hq', length_append] at hshort
          omega
      · next hpart =>
        refine ⟨cur, p, best', hstop fun c hc hprefix => ?_, hbest', ?_⟩
        · rw [hnext] at hc
          cases hc
          exact hpart (commonLen_of_starts hprefix)
        · rw [hdrop, probe, hnext]
          rfl
    | none =>
      refine ⟨cur, p, best', hstop fun c hc => ?_, hbest', ?_⟩
      · rw [hnext] at hc
        cases hc
      · rw [hdrop, probe, hnext]
        rfl

/-! ### When the answer is the longest -/

variable {best : Option (ℕ × ℕ)}

/-- The longest full prefix is among those up to the stop. -/
theorem Best.le (hbest : Best t ns tokens (p.length + 1) best) (hstop : t.Stop ns tokens cur p)
    (hi : t.Holding ns i q) (hq : q <+: tokens) : q.length ≤ best.elim 0 Prod.snd :=
  hbest.longest i q hi hq (Nat.lt_succ_of_le (hstop.2.2 i q hi.1 hq))

/-- Where nothing shares more than the longest full prefix, every slot below the walk is
covered. -/
theorem Best.covers (hbest : Best t ns tokens (p.length + 1) best)
    (hmax : t.Maximal ns tokens true (best.elim 0 Prod.snd)) : t.WalkCovers ns tokens := by
  rintro i path - hne hpath ⟨j, q, hj, hbelow⟩
  have hlen : path.length ≤ best.elim 0 Prod.snd :=
    (le_commonLen hbelow hpath).trans (by simpa using hmax j q hj)
  have hpos := length_pos_iff.mpr hne
  cases best with
  | none =>
    rw [elim_none] at hlen
    omega
  | some found =>
    obtain ⟨z, hz, hprefix, hlong⟩ := hbest.hit found.1 found.2 rfl
    rw [elim_some, ← hlong] at hlen
    exact ⟨found.1, z, hz, hprefix, prefix_of_prefix_length_le hpath hprefix hlen⟩

/-- A slot on a covered walk shares no more than the longest full prefix, unless it lies below
the child that continues the prompt. -/
theorem Best.maximal (h : Stores t P) (hbest : Best t ns tokens (p.length + 1) best)
    (hstop : t.Stop ns tokens cur p) {bound : ℕ} (hbound : best.elim 0 Prod.snd ≤ bound)
    (hwalk : t.WalkCovers ns tokens ∨ p.length ≤ bound)
    (hprobe : ∀ child a, (tokens.drop p.length).head? = some a →
      (t.nodes cur).children.get a = some child →
      (∃ j q, t.Holding ns j q ∧ p ++ (t.nodes child).edge <+: q) →
      p.length + commonLen (t.nodes child).edge (tokens.drop p.length) ≤ bound) :
    t.Maximal ns tokens true bound := by
  intro i q hi
  rw [if_pos rfl]
  obtain ⟨hP, hslot⟩ := h.holding_iff.mp hi
  obtain ⟨keys, r, hr, hfollow⟩ := h.exists_at hP
  rcases h.leaves hstop ((h.root_iff ns r).mp hr) nil_prefix hfollow with
    hq | ⟨y, s, hy, hs, hsq, hlen⟩ | ⟨a, child, ha, hget, hbelow, hlen⟩
  · rw [nil_append] at hq
    rw [commonLen_of_starts hq]
    exact (hbest.le hstop hi hq).trans hbound
  · rw [nil_append] at hlen hsq
    rw [hlen]
    rcases hwalk with hcover | hdeep
    · by_cases hne : s = []
      · rw [hne]
        exact Nat.zero_le _
      · obtain ⟨j, z, hj, hz, hsz⟩ := hcover y s (h.stored_iff.mpr hy) hne hs ⟨i, q, hi, hsq⟩
        exact hsz.length_le.trans ((hbest.le hstop hj hz).trans hbound)
    · exact (hstop.2.2 y s (h.stored_iff.mpr hy) hs).trans hdeep
  · rw [nil_append] at hlen hbelow
    rw [hlen]
    exact hprobe child a ha hget ⟨i, q, hi, hbelow⟩

/-- The child that continues the prompt is the one probed. -/
theorem probe_of_continues (ha : rest.head? = some a)
    (hget : (t.nodes cur).children.get a = some child) : t.probe cur rest = some child := by
  rw [probe, ha, bind_some, hget]
  rfl

theorem probe_mem_values (hprobe : t.probe cur rest = some child) :
    child ∈ (t.nodes cur).children.values := by
  rw [probe] at hprobe
  rcases or_eq_some_iff.mp hprobe with hnext | ⟨-, hfirst⟩
  · obtain ⟨a, -, hget⟩ := bind_eq_some_iff.mp hnext
    exact Map.mem_values.mpr ⟨a, hget⟩
  · exact mem_of_head? hfirst

/-- The probe serves its hit when it is longer than the best and a slot lies below the child. -/
theorem partialHit_eq (h : Stores t P) (hcur : P cur = some (ns, p)) (rest : List Token)
    (hit : ℕ) :
    ∃ found, t.partialHit t.bearsSlot (t.probe cur rest) hit best = some found ∧
      ((∃ child, t.probe cur rest = some child ∧
          ∃ j q, t.Holding ns j q ∧ p ++ (t.nodes child).edge <+: q) →
        found.elim 0 Prod.snd = max hit (best.elim 0 Prod.snd)) ∧
      ((¬ ∃ child, t.probe cur rest = some child ∧
          ∃ j q, t.Holding ns j q ∧ p ++ (t.nodes child).edge <+: q) → found = best) := by
  cases hprobe : t.probe cur rest with
  | none =>
    refine ⟨best, rfl, ?_, fun _ => rfl⟩
    rintro ⟨child, heq, -⟩
    cases heq
  | some child =>
    have hmem := probe_mem_values hprobe
    obtain ⟨deepest, hdeepest, hspec⟩ := deepestSlotInSubtree_spec h hcur hmem
    have hsome := deepestSlotInSubtree_isSome h hcur hmem hdeepest
    have hexists : (∃ c, some child = some c ∧
        ∃ j q, t.Holding ns j q ∧ p ++ (t.nodes c).edge <+: q) ↔ deepest.isSome := by
      rw [hsome]
      constructor
      · rintro ⟨c, heq, hslot⟩
        cases heq
        exact hslot
      · exact fun hslot => ⟨child, rfl, hslot⟩
    rw [hexists]
    unfold partialHit
    dsimp only
    split
    · next hroom =>
      simp only [Bool.and_eq_true, decide_eq_true_eq] at hroom
      rw [hdeepest, map_some]
      refine ⟨_, rfl, fun hslot => ?_, fun hslot => ?_⟩
      · obtain ⟨node, rfl⟩ := isSome_iff_exists.mp hslot
        have hbears : t.bearsSlot node hit = true := (hspec node rfl).1
        dsimp only
        rw [if_pos hbears, elim_some]
        cases best with
        | none => simp
        | some found =>
          have hlt : found.2 < hit := by simpa using hroom.2
          exact (Nat.max_eq_left hlt.le).symm
      · cases deepest with
        | none => rfl
        | some node => exact absurd rfl hslot
    · next hroom =>
      refine ⟨best, rfl, fun _ => ?_, fun _ => rfl⟩
      cases best with
      | none =>
        have hzero : hit = 0 := by simpa using hroom
        rw [hzero]
        rfl
      | some found =>
        have hle : hit ≤ found.2 := by
          simp only [Bool.and_eq_true, decide_eq_true_eq, all_some, not_and, not_lt] at hroom
          rcases Nat.eq_zero_or_pos hit with hzero | hpos
          · omega
          · exact hroom hpos
        exact (Nat.max_eq_right hle).symm

/-- Every answer of the lookup is a sound one. -/
theorem Hit.sound {partialOk : Bool} {node hit : ℕ} (h : Stores t P)
    (hhit : Hit t P ns tokens partialOk t.bearsSlot node hit) :
    t.SoundHit ns tokens partialOk node hit := by
  obtain ⟨q, hq, htake⟩ := hhit.path
  exact ⟨⟨q, h.holding_iff.mpr ⟨hq, hhit.usable⟩, htake⟩, hhit.le_depth, hhit.le_tokens,
    hhit.exact⟩

/-- With partial hits, the answer is the longest one exactly when the probed child holds a slot
or the walk covers every slot below it. -/
theorem maximal_iff (h : Stores t P) (hstop : t.Stop ns tokens cur p)
    (hbest : Best t ns tokens (p.length + 1) best) {found : Option (ℕ × ℕ)}
    (hfound : t.partialHit t.bearsSlot (t.probe cur (tokens.drop p.length))
      (p.length + (((tokens.drop p.length).head?.bind (t.nodes cur).children.get).elim 0
        fun child => commonLen (t.nodes child).edge (tokens.drop p.length))) best = some found) :
    t.Maximal ns tokens true (found.elim 0 Prod.snd) ↔
      t.ProbeHolds ns tokens ∨ t.WalkCovers ns tokens := by
  have hcur := h.stored_iff.mp hstop.1
  obtain ⟨rest, hrest⟩ : ∃ rest, rest = tokens.drop p.length := ⟨_, rfl⟩
  rw [← hrest] at hfound
  obtain ⟨found', heq, hprobed, hslotless⟩ := partialHit_eq h hcur rest
    (p.length + ((rest.head?.bind (t.nodes cur).children.get).elim 0
      fun child => commonLen (t.nodes child).edge rest))
  obtain rfl : found = found' := some.inj (hfound.symm.trans heq)
  by_cases hholds : ∃ child, t.probe cur rest = some child ∧
      ∃ j q, t.Holding ns j q ∧ p ++ (t.nodes child).edge <+: q
  · have hprobe : t.ProbeHolds ns tokens := by
      obtain ⟨child, hchild, hslot⟩ := hholds
      exact ⟨cur, p, child, hstop, hrest ▸ hchild, hslot⟩
    refine iff_of_true ?_ (.inl hprobe)
    have hlen := hprobed hholds
    refine hbest.maximal h hstop (by omega) (.inr (by omega)) fun child a ha hget _ => ?_
    rw [← hrest] at ha ⊢
    rw [hlen, ha, bind_some, hget, elim_some]
    exact Nat.le_max_left ..
  · obtain rfl := hslotless hholds
    constructor
    · exact fun hmax => .inr (hbest.covers hmax)
    · rintro (hprobe | hcover)
      · -- the deepest node on the walk is unique, so nothing else is probed
        obtain ⟨cur', p', child, hstop', hchild, hslot⟩ := hprobe
        have hlen := Nat.le_antisymm (hstop.2.2 cur' p' hstop'.1 hstop'.2.1)
          (hstop'.2.2 cur p hstop.1 hstop.2.1)
        obtain rfl : p' = p :=
          (prefix_of_prefix_length_le hstop'.2.1 hstop.2.1 hlen.le).eq_of_length hlen
        obtain rfl := h.label_unique (h.stored_iff.mp hstop'.1) hcur
        exact absurd ⟨child, hrest ▸ hchild, hslot⟩ hholds
      · refine hbest.maximal h hstop le_rfl (.inl hcover) fun child a ha hget hslot => ?_
        rw [← hrest] at ha
        exact absurd ⟨child, probe_of_continues ha hget, hslot⟩ hholds

/-- In every tree of a run the lookup ends and its answer is sound. Without partial hits it is
always the longest full prefix; with them it is the longest shared prefix exactly when a slot
lies below the probed child or the walk covers every slot below its nodes. -/
theorem longestPrefix_maximal {t : PrefixTree} {ledger : List Attached} (hrun : Run t ledger)
    (ns : Namespace) (tokens : List Token) (partialOk : Bool) :
    ∃ found, t.longestPrefix ns tokens partialOk t.bearsSlot = some found ∧
      (∀ node hit, found = some (node, hit) → t.SoundHit ns tokens partialOk node hit) ∧
      (t.Maximal ns tokens partialOk (found.elim 0 Prod.snd) ↔
        (partialOk = true → t.ProbeHolds ns tokens ∨ t.WalkCovers ns tokens)) := by
  obtain ⟨P, haccounts⟩ := hrun.accounts
  have h := haccounts.stores
  obtain ⟨found, hfound, hsound⟩ := longestPrefix_spec h ns tokens partialOk t.bearsSlot
  refine ⟨found, hfound, fun node hit heq => (hsound node hit heq).sound h, ?_⟩
  unfold longestPrefix at hfound
  cases hroot : t.root ns with
  | none =>
    -- nothing is stored in the namespace
    have hnone : ∀ i q, ¬ t.Stored ns i q := by
      rintro i q ⟨keys, r, hr, -⟩
      rw [hroot] at hr
      cases hr
    refine iff_of_true (fun i q hi => absurd hi.1 (hnone i q)) fun _ => .inr ?_
    exact fun i q hi => absurd hi (hnone i q)
  | some r =>
    have hstart : Best t ns tokens 0 none :=
      ⟨fun _ _ heq => (nomatch heq), fun _ _ _ _ hlt => absurd hlt (Nat.not_lt_zero _)⟩
    obtain ⟨cur, p, best, hstop, hbest, heq⟩ := longestPrefixFrom_stop h partialOk
      (tokens.length + 1) (p := []) ((h.root_iff ns r).mp hroot) rfl (Nat.lt_succ_self _) hstart
    rw [hroot] at hfound
    have hanswer := heq.symm.trans hfound
    cases partialOk with
    | true =>
      rw [if_pos rfl] at hanswer
      exact (maximal_iff h hstop hbest hanswer).trans ⟨fun hright _ => hright, fun hright => hright rfl⟩
    | false =>
      refine iff_of_true (fun i q hi => ?_) fun hpart => nomatch hpart
      rw [if_neg Bool.false_ne_true]
      obtain rfl : best = found := Option.some.inj hanswer
      exact hbest.le hstop hi

/-- A full prefix between two branches of its own is found. -/
theorem longestPrefix_maximal_split : ∃ t : PrefixTree,
    t.longestPrefix 0 [1, 2, 7] false t.bearsSlot = some (some (1, 2)) ∧
      t.Maximal 0 [1, 2, 7] false 2 := by
  have hrun : Run _ [⟨0, 3, 6⟩, ⟨0, 1, 5⟩] :=
    @Run.step _ _ _ (.insert 0 [1, 3] 6) _
      (@Run.step _ _ _ (.insert 0 [1, 2] 5) _ .new trivial rfl) trivial rfl
  obtain ⟨found, hfound, -, hmax⟩ := longestPrefix_maximal hrun 0 [1, 2, 7] false
  obtain rfl : some (1, 2) = found := Option.some.inj (Eq.trans (by decide) hfound)
  exact ⟨_, hfound, hmax.mpr fun hpart => nomatch hpart⟩

/-- Two continuations of one token, the first with its slot detached: the prompt `1, 9` shares
a token with the second, but the lookup finds nothing. -/
theorem slotless_branch_hides_prefix : ∃ t ledger, Run t ledger ∧
    t.longestPrefix 0 [1, 9] true t.bearsSlot = some none ∧ ¬ t.Maximal 0 [1, 9] true 0 := by
  have hrun : Run _ [⟨0, 3, 6⟩] :=
    @Run.step _ _ _ (.detachSlot 1) _ (@Run.step _ _ _ (.insert 0 [1, 3] 6) _
      (@Run.step _ _ _ (.insert 0 [1, 2] 5) _ .new trivial rfl) trivial rfl)
      ⟨by decide, by decide, rfl⟩ rfl
  refine ⟨_, _, hrun, by decide, fun hmax => ?_⟩
  exact absurd (hmax 3 [1, 3] ⟨⟨[1, 3], 0, rfl, rfl⟩, rfl⟩) (by decide)

end PrefixTree

end Retrograd.Infer
