import Retrograd.Infer.KvInsert

/-!
# Lookup in the prefix tree

A depth-first walk pops every descendant of its start once (`visit_total`), so the fuel it is
given is enough. On that rests `longestPrefix`: it returns a node of the asked namespace whose
path agrees with the prompt on the whole hit, and a hit the caller's check accepted.
-/

namespace Retrograd.Infer

open Logic List Option

namespace PrefixTree

variable {t : PrefixTree} {P : Labels} {ns : Namespace} {p q rest tokens : List Token}
  {i j cur child r : ℕ}

/-! ### Depth-first walks -/

/-- The nodes popped so far and those on the stack, below the node `r`: all distinct, and each
hangs from `r` or from a popped node. -/
structure Walk (t : PrefixTree) (P : Labels) (ns : Namespace) (p : List Token) (r : ℕ)
    (popped stack : List ℕ) : Prop where
  nodup : (popped ++ stack).Nodup
  parent : ∀ c ∈ popped ++ stack, (t.nodes c).parent = r ∨ (t.nodes c).parent ∈ popped
  path : ∀ c ∈ popped ++ stack, ∃ q, P c = some (ns, q) ∧ p.length < q.length

theorem Stores.mem_values (h : Stores t P) (hi : P i = some (ns, p)) {c : ℕ}
    (hc : c ∈ (t.nodes i).children.values) :
    P c = some (ns, p ++ (t.nodes c).edge) ∧ (t.nodes c).parent = i ∧
      p.length < (p ++ (t.nodes c).edge).length := by
  obtain ⟨a, hget⟩ := Map.mem_values.mp hc
  obtain ⟨hpath, hparent, hhead⟩ := h.child i ns p a c hi hget
  refine ⟨hpath, hparent, ?_⟩
  obtain ⟨edge, hedge⟩ := head?_eq_some_iff.mp hhead
  simp [hedge]

theorem Stores.values_nodup (h : Stores t P) (hi : P i = some (ns, p)) :
    (t.nodes i).children.values.Nodup := by
  refine Map.values_nodup fun a a' c hc hc' => ?_
  have hhead := (h.child i ns p a c hi hc).2.2
  rw [(h.child i ns p a' c hi hc').2.2] at hhead
  exact (some.inj hhead).symm

/-- Popping a node pushes its children and keeps the walk. -/
theorem Walk.pop (h : Stores t P) (hr : P r = some (ns, p))
    {popped stack : List ℕ} {x : ℕ} (hw : Walk t P ns p r popped (x :: stack)) :
    Walk t P ns p r (popped ++ [x]) ((t.nodes x).children.values.reverse ++ stack) := by
  have hx : x ∈ popped ++ x :: stack := by simp
  obtain ⟨q, hq, hlen⟩ := hw.path x hx
  have hmem : ∀ c, c ∈ popped ++ [x] ++ ((t.nodes x).children.values.reverse ++ stack) ↔
      c ∈ (t.nodes x).children.values ∨ c ∈ popped ++ x :: stack := by
    intro c
    simp only [mem_append, mem_cons, mem_reverse, not_mem_nil, or_false]
    tauto
  have hnotMem : ∀ c ∈ (t.nodes x).children.values, c ∉ popped ++ x :: stack := by
    intro c hc hold
    obtain ⟨-, hparent, -⟩ := h.mem_values hq hc
    rcases hw.parent c hold with hpr | hpp
    · rw [hparent] at hpr
      subst hpr
      rw [hr] at hq
      cases hq
      exact lt_irrefl _ hlen
    · rw [hparent] at hpp
      exact (nodup_append.mp hw.nodup).2.2 x hpp x mem_cons_self rfl
  refine ⟨?_, fun c hc => ?_, fun c hc => ?_⟩
  · have hperm : (popped ++ [x] ++ ((t.nodes x).children.values.reverse ++ stack)).Perm
        ((t.nodes x).children.values ++ (popped ++ x :: stack)) := by
      rw [perm_iff_count]
      intro c
      simp only [count_append, count_cons, count_nil, count_reverse]
      omega
    rw [hperm.nodup_iff, nodup_append]
    exact ⟨h.values_nodup hq, hw.nodup, fun a ha b hb hab => hnotMem a ha (hab ▸ hb)⟩
  · rcases (hmem c).mp hc with hnew | hold
    · right
      rw [(h.mem_values hq hnew).2.1]
      simp
    · rcases hw.parent c hold with hpr | hpp
      · exact .inl hpr
      · exact .inr (mem_append_left _ hpp)
  · rcases (hmem c).mp hc with hnew | hold
    · obtain ⟨hpath, -, hlong⟩ := h.mem_values hq hnew
      exact ⟨_, hpath, hlen.trans hlong⟩
    · exact hw.path c hold

/-- Popped nodes are distinct nodes of the arena, so their number is enough fuel. -/
theorem visit_total (h : Stores t P) (hr : P r = some (ns, p)) (fuel : ℕ) :
    ∀ {popped stack : List ℕ}, Walk t P ns p r popped stack → t.len ≤ popped.length + fuel →
      ∃ visited, t.visit fuel stack = some visited ∧ (popped ++ visited).Nodup := by
  induction fuel with
  | zero =>
    intro popped stack hw hlen
    cases stack with
    | nil => exact ⟨[], rfl, hw.nodup⟩
    | cons x stack =>
      have hle : (popped ++ x :: stack).length ≤ t.len := by
        rw [← length_range (n := t.len)]
        refine hw.nodup.subperm (fun c hc => ?_) |>.length_le
        obtain ⟨q, hq, -⟩ := hw.path c hc
        exact mem_range.mpr (h.lt_len hq)
      simp at hle
      omega
  | succ fuel ih =>
    intro popped stack hw hlen
    cases stack with
    | nil => exact ⟨[], rfl, hw.nodup⟩
    | cons x stack =>
      obtain ⟨visited, heq, hnodup⟩ := ih (hw.pop h hr) (by simp; omega)
      refine ⟨x :: visited, by simp [visit, heq], ?_⟩
      rwa [append_assoc, singleton_append] at hnodup

/-- Every stacked node is visited, and with a node all its children. -/
theorem visit_closed (fuel : ℕ) : ∀ {stack visited : List ℕ}, t.visit fuel stack = some visited →
    (∀ x ∈ stack, x ∈ visited) ∧
      ∀ x ∈ visited, ∀ c ∈ (t.nodes x).children.values, c ∈ visited := by
  induction fuel with
  | zero =>
    intro stack visited hv
    cases stack with
    | nil =>
      obtain rfl : visited = [] := by simpa [visit, eq_comm] using hv
      simp
    | cons x stack => simp [visit] at hv
  | succ fuel ih =>
    intro stack visited hv
    cases stack with
    | nil =>
      obtain rfl : visited = [] := by simpa [visit, eq_comm] using hv
      simp
    | cons x stack =>
      simp only [visit, map_eq_some_iff] at hv
      obtain ⟨rest, hrest, rfl⟩ := hv
      obtain ⟨hstack, hchildren⟩ := ih hrest
      refine ⟨fun y hy => ?_, fun y hy c hc => ?_⟩
      · rcases mem_cons.mp hy with rfl | hy
        · exact mem_cons_self
        · exact mem_cons_of_mem _ (hstack y (mem_append_right _ hy))
      · rcases mem_cons.mp hy with rfl | hy
        · exact mem_cons_of_mem _ (hstack c (by simp [hc]))
        · exact mem_cons_of_mem _ (hchildren y hy c hc)

/-- What holds of the stacked nodes and passes from a node to its children holds of every
visited node. -/
theorem visit_induct {Q : ℕ → Prop} (hstep : ∀ x, Q x → ∀ c ∈ (t.nodes x).children.values, Q c)
    (fuel : ℕ) : ∀ {stack visited : List ℕ}, t.visit fuel stack = some visited →
      (∀ x ∈ stack, Q x) → ∀ x ∈ visited, Q x := by
  induction fuel with
  | zero =>
    intro stack visited hv
    cases stack with
    | nil =>
      obtain rfl : visited = [] := by simpa [visit, eq_comm] using hv
      simp
    | cons x stack => simp [visit] at hv
  | succ fuel ih =>
    intro stack visited hv hstack
    cases stack with
    | nil =>
      obtain rfl : visited = [] := by simpa [visit, eq_comm] using hv
      simp
    | cons x stack =>
      simp only [visit, map_eq_some_iff] at hv
      obtain ⟨rest, hrest, rfl⟩ := hv
      have hx := hstack x mem_cons_self
      have hvisited := ih hrest fun y hy => by
        rcases mem_append.mp hy with hy | hy
        · exact hstep x hx y (mem_reverse.mp hy)
        · exact hstack y (mem_cons_of_mem _ hy)
      intro y hy
      rcases mem_cons.mp hy with rfl | hy
      · exact hx
      · exact hvisited y hy

/-! ### The deepest slot of a subtree -/

/-- The walk below a child of a stored node always ends. -/
theorem visit_child (h : Stores t P) (hi : P i = some (ns, p))
    (hc : child ∈ (t.nodes i).children.values) :
    ∃ visited, t.visit t.len [child] = some visited := by
  obtain ⟨hpath, hparent, hlen⟩ := h.mem_values hi hc
  have hw : Walk t P ns p i [] [child] :=
    ⟨by simp, by simp [hparent], fun c hc => by
      obtain rfl : c = child := by simpa using hc
      exact ⟨_, hpath, hlen⟩⟩
  obtain ⟨visited, hv, -⟩ := visit_total h hi t.len hw (by simp)
  exact ⟨visited, hv⟩

private theorem foldl_deepest (t : PrefixTree) (visited : List ℕ) :
    ∀ best : Option ℕ, ∀ node, visited.foldl (fun best i =>
      if (t.nodes i).slot.isSome && best.all fun b => (t.nodes b).depth < (t.nodes i).depth then
        some i
      else best) best = some node →
      best = some node ∨ node ∈ visited ∧ (t.nodes node).slot.isSome := by
  induction visited with
  | nil => intro best node h; exact .inl h
  | cons x visited ih =>
    intro best node h
    rw [foldl_cons] at h
    rcases ih _ node h with hb | ⟨hmem, hslot⟩
    · split at hb
      · next hx =>
        cases hb
        exact .inr ⟨mem_cons_self, (Bool.and_eq_true_iff.mp hx).1⟩
      · exact .inl hb
    · exact .inr ⟨mem_cons_of_mem x hmem, hslot⟩

/-- The deepest slot-bearing node below a child lies on a path that extends the child's. -/
theorem deepestSlotInSubtree_spec (h : Stores t P) (hi : P i = some (ns, p))
    (hc : child ∈ (t.nodes i).children.values) :
    ∃ found, t.deepestSlotInSubtree child = some found ∧ ∀ node, found = some node →
      (t.nodes node).slot.isSome ∧
      ∃ suffix, P node = some (ns, p ++ (t.nodes child).edge ++ suffix) := by
  obtain ⟨visited, hv⟩ := visit_child h hi hc
  refine ⟨_, by rw [deepestSlotInSubtree, hv, map_some], fun node hnode => ?_⟩
  rcases foldl_deepest t visited none node hnode with hnone | ⟨hmem, hslot⟩
  · cases hnone
  · refine ⟨hslot, visit_induct (Q := fun x =>
      ∃ suffix, P x = some (ns, p ++ (t.nodes child).edge ++ suffix)) ?_ t.len hv ?_ node hmem⟩
    · rintro x ⟨suffix, hx⟩ c hcx
      exact ⟨suffix ++ (t.nodes c).edge, by rw [(h.mem_values hx hcx).1]; simp⟩
    · intro x hx
      obtain rfl : x = child := by simpa using hx
      exact ⟨[], by simpa using (h.mem_values hi hc).1⟩

/-! ### The longest usable prefix -/

/-- A sound answer for `tokens`: a stored node of the namespace whose path agrees with the
tokens on the whole hit, accepted by the caller's check. -/
structure Hit (t : PrefixTree) (P : Labels) (ns : Namespace) (tokens : List Token)
    (partialOk : Bool) (usable : ℕ → ℕ → Bool) (node hit : ℕ) : Prop where
  usable : usable node hit = true
  pos : 0 < hit
  le_tokens : hit ≤ tokens.length
  le_depth : hit ≤ (t.nodes node).depth
  exact : partialOk = false → hit = (t.nodes node).depth
  path : ∃ q, P node = some (ns, q) ∧ q.take hit = tokens.take hit

variable {partialOk : Bool} {usable : ℕ → ℕ → Bool} {best : Option (ℕ × ℕ)}

/-- A mid-sequence hit below a child that shares `matched` tokens of its edge with the rest of
the prompt. -/
theorem partialHit_spec (h : Stores t P) (hcur : P cur = some (ns, p)) {matched : ℕ}
    (hc : child ∈ (t.nodes cur).children.values)
    (htokens : tokens = p ++ rest)
    (hmatched : (t.nodes child).edge.take matched = rest.take matched)
    (hle : matched ≤ (t.nodes child).edge.length) (hle' : matched ≤ rest.length)
    (hbest : ∀ node hit, best = some (node, hit) → Hit t P ns tokens true usable node hit) :
    ∃ found, t.partialHit usable (some child) (p.length + matched) best = some found ∧
      ∀ node hit, found = some (node, hit) → Hit t P ns tokens true usable node hit := by
  unfold partialHit
  dsimp only
  split
  · next hpos =>
    obtain ⟨deepest, heq, hspec⟩ := deepestSlotInSubtree_spec h hcur hc
    rw [heq, map_some]
    refine ⟨_, rfl, fun node hit hfound => ?_⟩
    cases deepest with
    | none => exact hbest node hit hfound
    | some found =>
      dsimp only at hfound
      split at hfound
      · next husable =>
        cases hfound
        obtain ⟨-, suffix, hpath⟩ := hspec node rfl
        simp only [Bool.and_eq_true, decide_eq_true_eq] at hpos
        refine ⟨husable, hpos.1, ?_, ?_, by simp, _, hpath, ?_⟩
        · rw [htokens, length_append]
          omega
        · rw [h.depth_eq node ns _ hpath, length_append, length_append]
          omega
        · rw [htokens, append_assoc, take_length_add_append,
            take_length_add_append, take_append_of_le_length hle, hmatched]
      · exact hbest node hit hfound
  · exact ⟨best, rfl, hbest⟩

theorem longestPrefixFrom_spec (h : Stores t P) (fuel : ℕ) :
    ∀ {cur : ℕ} {p rest : List Token} {best : Option (ℕ × ℕ)}, P cur = some (ns, p) →
      tokens = p ++ rest → rest.length < fuel →
      (∀ node hit, best = some (node, hit) → Hit t P ns tokens partialOk usable node hit) →
      ∃ found, t.longestPrefixFrom partialOk usable fuel cur p.length rest best = some found ∧
        ∀ node hit, found = some (node, hit) → Hit t P ns tokens partialOk usable node hit := by
  induction fuel with
  | zero => intro cur p rest best _ _ hfuel; omega
  | succ fuel ih =>
    intro cur p rest best hcur htokens hfuel hbest
    have hdepth := h.depth_eq cur ns p hcur
    obtain ⟨best', hbestEq⟩ : ∃ best', best' = if 0 < (t.nodes cur).depth &&
      usable cur (t.nodes cur).depth then some (cur, (t.nodes cur).depth) else best := ⟨_, rfl⟩
    have hbest' : ∀ node hit, best' = some (node, hit) →
        Hit t P ns tokens partialOk usable node hit := by
      intro node hit hfound
      rw [hbestEq] at hfound
      split at hfound
      · next hroom =>
        cases hfound
        simp only [Bool.and_eq_true, decide_eq_true_eq] at hroom
        refine ⟨hroom.2, hroom.1, ?_, le_rfl, fun _ => rfl, p, hcur, ?_⟩
        · rw [hdepth, htokens, length_append]
          omega
        · rw [hdepth, htokens, take_left', take_length]
          rfl
      · exact hbest node hit hfound
    unfold longestPrefixFrom
    simp only [← hbestEq]
    cases hnext : rest.head?.bind (t.nodes cur).children.get with
    | some child =>
      obtain ⟨first, hfirst, hget⟩ := bind_eq_some_iff.mp hnext
      have hmem := Map.mem_values.mpr ⟨first, hget⟩
      have htake := take_commonLen (t.nodes child).edge rest
      have hle := commonLen_le (t.nodes child).edge rest
      have hle' := commonLen_le_right (t.nodes child).edge rest
      dsimp only
      split
      · next hwhole =>
        obtain ⟨hpath, -, hhead⟩ := h.child cur ns p first child hcur hget
        have happend := append_drop_of_commonLen hwhole
        have hpos : 0 < (t.nodes child).edge.length := by
          obtain ⟨edge, hedge⟩ := head?_eq_some_iff.mp hhead
          simp [hedge]
        rw [hwhole] at happend ⊢
        rw [← length_append]
        refine ih hpath ?_ ?_ hbest'
        · rw [append_assoc, happend, htokens]
        · rw [length_drop]
          omega
      · split
        · next hpart =>
          rw [hpart] at hbest' ⊢
          exact partialHit_spec h hcur hmem htokens htake hle hle' hbest'
        · exact ⟨best', rfl, hbest'⟩
    | none =>
      dsimp only
      split
      · next hpart =>
        rw [hpart] at hbest' ⊢
        cases hhead : (t.nodes cur).children.values.head? with
        | none => exact ⟨best', rfl, hbest'⟩
        | some child =>
          refine @partialHit_spec _ _ _ _ _ _ _ _ _ _ h hcur 0 (mem_of_head? hhead) htokens (by simp)
            (by simp) (by simp) hbest'
      · exact ⟨best', rfl, hbest'⟩

/-- The lookup always ends, and its answer is sound. -/
theorem longestPrefix_spec (h : Stores t P) (ns : Namespace) (tokens : List Token)
    (partialOk : Bool) (usable : ℕ → ℕ → Bool) :
    ∃ found, t.longestPrefix ns tokens partialOk usable = some found ∧
      ∀ node hit, found = some (node, hit) → Hit t P ns tokens partialOk usable node hit := by
  unfold longestPrefix
  cases hroot : t.root ns with
  | none => exact ⟨none, rfl, by simp⟩
  | some r =>
    exact longestPrefixFrom_spec (p := []) h (tokens.length + 1) ((h.root_iff ns r).mp hroot) rfl
      (Nat.lt_succ_self _) (by simp)

/-! ### The node at an exact path -/

private theorem findExact_end (h : Stores t P) (hcur : P cur = some (ns, p)) {node : ℕ}
    (hnode : (if t.isRoot cur then none else some cur) = some node) :
    P node = some (ns, p ++ []) ∧ p ++ [] ≠ [] := by
  split at hnode
  · cases hnode
  · next hroot =>
    cases hnode
    rw [append_nil]
    exact ⟨hcur, fun hp => hroot ((h.isRoot_iff hcur).mpr hp)⟩

theorem findExactFrom_spec (h : Stores t P) (fuel : ℕ) :
    ∀ {cur : ℕ} {p rest : List Token}, P cur = some (ns, p) → rest.length ≤ fuel →
      ∃ found, t.findExactFrom fuel cur rest = some found ∧
        ∀ node, found = some node → P node = some (ns, p ++ rest) ∧ p ++ rest ≠ [] := by
  induction fuel with
  | zero =>
    intro cur p rest hcur hlen
    obtain rfl : rest = [] := length_eq_zero_iff.mp (Nat.le_zero.mp hlen)
    exact ⟨_, rfl, fun node hnode => findExact_end h hcur hnode⟩
  | succ fuel ih =>
    intro cur p rest hcur hlen
    cases rest with
    | nil => exact ⟨_, rfl, fun node hnode => findExact_end h hcur hnode⟩
    | cons first rest =>
      cases hget : (t.nodes cur).children.get first with
      | none => exact ⟨none, by simp [findExactFrom, hget], by simp⟩
      | some child =>
        obtain ⟨hpath, -, hhead⟩ := h.child cur ns p first child hcur hget
        by_cases hprefix : (t.nodes child).edge.isPrefixOf (first :: rest)
        · obtain ⟨suffix, hsuffix⟩ := isPrefixOf_iff_prefix.mp hprefix
          have hdrop : (first :: rest).drop (t.nodes child).edge.length = suffix := by
            rw [← hsuffix, drop_left]
          have hpos : 0 < (t.nodes child).edge.length := by
            obtain ⟨edge, hedge⟩ := head?_eq_some_iff.mp hhead
            simp [hedge]
          have hsum := congrArg List.length hsuffix
          simp only [length_append, length_cons] at hsum hlen
          have hshort : suffix.length ≤ fuel := by omega
          obtain ⟨found, heq, hfound⟩ := ih hpath hshort
          refine ⟨found, by simp only [findExactFrom, hget, hprefix, if_true, hdrop, heq], ?_⟩
          rwa [append_assoc, hsuffix] at hfound
        · exact ⟨none, by simp [findExactFrom, hget, hprefix], by simp⟩

/-- The exact search always ends, and finds only a non-root node at exactly the path. -/
theorem findExact_spec (h : Stores t P) (ns : Namespace) (tokens : List Token) :
    ∃ found, t.findExact ns tokens = some found ∧
      ∀ node, found = some node → P node = some (ns, tokens) ∧ tokens ≠ [] := by
  unfold findExact
  cases hroot : t.root ns with
  | none => exact ⟨none, rfl, by simp⟩
  | some r =>
    exact findExactFrom_spec (p := []) h tokens.length ((h.root_iff ns r).mp hroot) le_rfl

end PrefixTree

end Retrograd.Infer
