import Retrograd.Decision.Spellings
import Retrograd.Logic.Passes
import Mathlib.Algebra.Order.Group.Nat
import Mathlib.Data.Nat.Find
import Mathlib.Algebra.Order.BigOperators.Group.List

/-!
# Breaking the spellings of special tokens

The lfm3 models keep a spelling text by a zero-width space after its first character, and look
again until nothing is found, since a broken spelling may uncover one that overlapped it. That
ends for every text **exactly when every spelling is breakable**: it does not begin with a
zero-width space, and has another character than that behind its first.
-/

namespace Retrograd.Decision

open Logic List

/-- U+200B. -/
def zwsp : Char := '\u200b'

/-- A zero-width space after the first character of a spelling. -/
def breakSpelling : List Char → List Char
  | [] => []
  | c :: rest => c :: zwsp :: rest

/-- One walk over the text, and whether a spelling was broken. -/
def breakPass (spellings : List (List Char)) (text : List Char) : List Char × Bool :=
  let parts := scan (hitAt spellings) text
  (rewriteParts parts breakSpelling, parts.any Sum.isRight)

/-- A zero-width space after the first character of each special token text in the input, again
until a match that overlapped a broken one is broken too, within `fuel` walks. -/
def d1Break (spellings : List (List Char)) (fuel : ℕ) (text : List Char) : Option (List Char) :=
  passes (breakPass spellings) fuel text

/-- A text with zero-width spaces put in. -/
inductive Padded : List Char → List Char → Prop
  | nil : Padded [] []
  | keep {text out : List Char} (c : Char) (h : Padded text out) : Padded (c :: text) (c :: out)
  | insert {text out : List Char} (h : Padded text out) : Padded text (zwsp :: out)

/-- A spelling that a zero-width space after its first character breaks for good. -/
def Breakable (s : List Char) : Prop := s.head? ≠ some zwsp ∧ ∃ c ∈ s.tail, c ≠ zwsp

variable {spellings : List (List Char)} {text out s : List Char} {parts : List (Char ⊕ List Char)}

/-! ### What one walk does -/

namespace Padded

theorem refl (text : List Char) : Padded text text := by
  induction text with
  | nil => exact .nil
  | cons c text ih => exact ih.keep c

theorem trans {mid : List Char} (h : Padded text mid) (h' : Padded mid out) : Padded text out := by
  induction h' generalizing text with
  | nil => exact h
  | keep c _ ih =>
    cases h with
    | keep _ h => exact (ih h).keep c
    | insert h => exact (ih h).insert
  | insert _ ih => exact (ih h).insert

theorem append {text' out' : List Char} (h : Padded text out) (h' : Padded text' out') :
    Padded (text ++ text') (out ++ out') := by
  induction h with
  | nil => exact h'
  | keep c _ ih => exact ih.keep c
  | insert _ ih => exact ih.insert

theorem breakSpelling (s : List Char) : Padded s (breakSpelling s) := by
  cases s with
  | nil => exact .nil
  | cons c rest => exact (refl rest).insert.keep c

end Padded

/-- A walk only puts in zero-width spaces. -/
theorem padded_rewriteParts (h : Scanned (hitAt spellings) text parts) :
    Padded text (rewriteParts parts breakSpelling) := by
  induction h with
  | nil => exact .nil
  | pass _ _ ih => exact ih.keep _
  | skip _ _ ih => exact (Padded.breakSpelling _).append ih

/-- A walk that breaks nothing leaves the text as it is. -/
theorem rewriteParts_eq (h : Scanned (hitAt spellings) text parts)
    (hnone : parts.any Sum.isRight = false) : rewriteParts parts breakSpelling = text := by
  induction h with
  | nil => rfl
  | pass _ _ ih => exact congrArg _ (ih (by simpa using hnone))
  | skip _ _ _ => simp at hnone

/-- A walk that breaks nothing found no spelling. -/
theorem not_infix_of_scanned (hne : ∀ s ∈ spellings, s ≠ [])
    (h : Scanned (hitAt spellings) text parts) (hnone : parts.any Sum.isRight = false) :
    ∀ s ∈ spellings, ¬ s <:+: text := by
  induction h with
  | nil =>
    intro s hs hwithin
    exact hne s hs (infix_nil.mp hwithin)
  | pass hhit _ ih =>
    intro s hs hwithin
    rcases infix_cons_iff.mp hwithin with hfront | hrest
    · exact (hitAt_eq_none hne).mp hhit s hs hfront
    · exact ih (by simpa using hnone) s hs hrest
  | skip _ _ _ => simp at hnone

/-! ### Breakable spellings -/

/-- The zero-width spaces at the front of a text. -/
def gap : List Char → ℕ
  | [] => 0
  | c :: rest => if c = zwsp then gap rest + 1 else 0

/-- How many more zero-width spaces may be put behind the characters of a text, when a spelling is
only found where at most `most` of them follow its first character. -/
def slack (most : ℕ) : List Char → ℕ
  | [] => 0
  | c :: rest => (if c = zwsp then 0 else most + 1 - gap rest) + slack most rest

theorem gap_append (h : ∃ c ∈ s, c ≠ zwsp) (text : List Char) : gap (s ++ text) = gap s := by
  induction s with
  | nil => simp at h
  | cons c s ih =>
    rw [cons_append, gap, gap]
    split_ifs with hc
    · rw [ih (by simpa [hc] using h)]
    · rfl

theorem gap_append_congr (h : gap out = gap text) (s : List Char) : gap (s ++ out) = gap (s ++ text) := by
  induction s with
  | nil => exact h
  | cons c s ih => rw [cons_append, cons_append, gap, gap, ih]

theorem slack_append_le {most : ℕ} (hgap : gap out = gap text) (h : slack most out ≤ slack most text)
    (s : List Char) : slack most (s ++ out) ≤ slack most (s ++ text) := by
  induction s with
  | nil => exact h
  | cons c s ih =>
    rw [cons_append, cons_append, slack, slack, gap_append_congr hgap]
    exact Nat.add_le_add_left ih _

theorem gap_rewriteParts (hgood : ∀ s ∈ spellings, Breakable s)
    (hne : ∀ s ∈ spellings, s ≠ []) (h : Scanned (hitAt spellings) text parts) :
    gap (rewriteParts parts breakSpelling) = gap text := by
  induction h with
  | nil => rfl
  | @pass a rest parts _ _ ih =>
    change gap (a :: rewriteParts parts breakSpelling) = _
    rw [gap, gap, ih]
  | @skip m rest parts hhit _ ih =>
    have hm := (hgood m (of_hitAt hne hhit).1).1
    cases m with
    | nil => exact absurd rfl (hne _ (of_hitAt hne hhit).1)
    | cons c m =>
      have hc : c ≠ zwsp := fun heq => hm (heq ▸ rfl)
      change gap (c :: zwsp :: (m ++ rewriteParts parts breakSpelling)) = _
      rw [cons_append, gap, if_neg hc, gap, if_neg hc]

/-- A walk that breaks a spelling leaves less room for others. -/
theorem slack_rewriteParts {most : ℕ} (hgood : ∀ s ∈ spellings, Breakable s)
    (hmost : ∀ s ∈ spellings, gap s.tail ≤ most) (hne : ∀ s ∈ spellings, s ≠ [])
    (h : Scanned (hitAt spellings) text parts) :
    slack most (rewriteParts parts breakSpelling) ≤ slack most text ∧
      (parts.any Sum.isRight → slack most (rewriteParts parts breakSpelling) < slack most text) := by
  induction h with
  | nil => exact ⟨Nat.le_refl _, nofun⟩
  | @pass a rest parts _ hrest ih =>
    have hgap := gap_rewriteParts hgood hne hrest
    change slack most (a :: rewriteParts parts breakSpelling) ≤ _ ∧
      (_ → slack most (a :: rewriteParts parts breakSpelling) < _)
    rw [slack, slack, hgap]
    exact ⟨Nat.add_le_add_left ih.1 _, fun hany => Nat.add_lt_add_left (ih.2 (by simpa using hany)) _⟩
  | @skip m rest parts hhit hrest ih =>
    have hmem := (of_hitAt hne hhit).1
    have hgap := gap_rewriteParts hgood hne hrest
    cases m with
    | nil => exact absurd rfl (hne _ hmem)
    | cons c m =>
      have hfirst := (hgood _ hmem).1
      have hother : ∃ c ∈ m, c ≠ zwsp := (hgood _ hmem).2
      have hc : c ≠ zwsp := fun heq => hfirst (heq ▸ rfl)
      have hfits : gap m ≤ most := hmost _ hmem
      have hless : slack most (c :: zwsp :: (m ++ rewriteParts parts breakSpelling)) <
          slack most (c :: m ++ rest) := by
        have hrestLe := slack_append_le hgap ih.1 m
        rw [cons_append, slack, slack, slack, if_neg hc, if_neg hc, if_pos rfl, gap, if_pos rfl,
          gap_append_congr hgap, gap_append hother]
        omega
      exact ⟨hless.le, fun _ => hless⟩

/-- With breakable spellings every text comes to an end. -/
theorem d1Break_ends (hgood : ∀ s ∈ spellings, Breakable s) (hne : ∀ s ∈ spellings, s ≠ [])
    (text : List Char) : ∃ fuel result, d1Break spellings fuel text = some result ∧
      (∀ s ∈ spellings, ¬ s <:+: result) ∧ Padded text result := by
  have hscanned (text : List Char) : Scanned (hitAt spellings) text (scan (hitAt spellings) text) :=
    scanned_scan (matches_hitAt hne) text
  let most := (spellings.map fun s => gap s.tail).sum
  have hmost : ∀ s ∈ spellings, gap s.tail ≤ most := fun s hs =>
    le_sum_of_mem (mem_map_of_mem hs)
  obtain ⟨last, hresult, hlast, hpadded⟩ := @passes_some _ (breakPass spellings) (slack most) Padded
    (fun _ _ _ => Padded.trans) (fun text => padded_rewriteParts (hscanned text))
    (fun text hchanged => (slack_rewriteParts hgood hmost hne (hscanned text)).2 hchanged) text
  refine ⟨_, _, hresult, ?_, hpadded⟩
  have hsame : (breakPass spellings last).1 = last := rewriteParts_eq (hscanned last) hlast
  rw [hsame]
  exact not_infix_of_scanned hne (hscanned last) hlast

/-! ### Other spellings -/

theorem padded_replicate {n : ℕ} (h : Padded (List.replicate n zwsp) out) :
    ∃ n', n ≤ n' ∧ out = List.replicate n' zwsp := by
  generalize htext : List.replicate n zwsp = text at h
  induction h generalizing n with
  | nil => exact ⟨n, Nat.le_refl _, htext.symm⟩
  | keep c _ ih =>
    cases n with
    | zero => cases htext
    | succ n =>
      obtain ⟨rfl, hrest⟩ := cons.inj htext
      obtain ⟨n', hle, rfl⟩ := ih hrest
      exact ⟨n' + 1, Nat.succ_le_succ hle, rfl⟩
  | insert _ ih =>
    obtain ⟨n', hle, rfl⟩ := ih htext
    exact ⟨n' + 1, Nat.le_succ_of_le hle, rfl⟩

/-- Where a spelling stands in front, the walk begins by breaking one. -/
theorem scanned_front (hne : ∀ s ∈ spellings, s ≠ []) (hs : s ∈ spellings) (hfront : s <+: text)
    (h : Scanned (hitAt spellings) text parts) : ∃ m rest tail, m ∈ spellings ∧ text = m ++ rest ∧
      parts = .inr m :: tail ∧ Scanned (hitAt spellings) rest tail := by
  cases hhit : hitAt spellings text with
  | none => exact absurd hfront ((hitAt_eq_none hne).mp hhit s hs)
  | some m =>
    have htext : text ≠ [] := fun hnil => hne s hs (prefix_nil.mp (hnil ▸ hfront))
    obtain ⟨rest, tail, hrest⟩ := h.of_some hhit htext
    exact ⟨m, rest, tail, (of_hitAt hne hhit).1, hrest⟩

section Endless

variable (hne : ∀ s ∈ spellings, s ≠ [])

include hne

theorem scanned (text : List Char) : Scanned (hitAt spellings) text (scan (hitAt spellings) text) :=
  scanned_scan (matches_hitAt hne) text

/-- Zero-width spaces that are a spelling are broken into more of them. -/
theorem endless_spaces {j : ℕ} (hs : List.replicate j zwsp ∈ spellings) (fuel : ℕ) :
    d1Break spellings fuel (List.replicate j zwsp) = none := by
  refine @passes_none _ _ (fun text => ∃ n, j ≤ n ∧ text = List.replicate n zwsp) ?_ _
    ⟨j, Nat.le_refl _, rfl⟩ fuel
  rintro _ ⟨n, hn, rfl⟩
  have hscan := scanned hne (List.replicate n zwsp)
  obtain ⟨m, rest, tail, -, -, hparts, -⟩ := scanned_front hne hs
    (by rw [prefix_iff_eq_take, take_replicate]; simp [hn]) hscan
  obtain ⟨n', hn', hout⟩ := padded_replicate (padded_rewriteParts hscan)
  exact ⟨by rw [breakPass, hparts]; rfl, n', hn.trans hn', hout⟩

/-- Zero-width spaces behind the first character of a spelling that has nothing else behind it are
only more of the same. -/
theorem endless_first {c : Char} {k : ℕ} (hs : c :: List.replicate k zwsp ∈ spellings) (fuel : ℕ) :
    d1Break spellings fuel (c :: List.replicate k zwsp) = none := by
  refine @passes_none _ _ (fun text => ∃ n, k ≤ n ∧ text = c :: List.replicate n zwsp) ?_ _
    ⟨k, Nat.le_refl _, rfl⟩ fuel
  rintro _ ⟨n, hn, rfl⟩
  have hscan := scanned hne (c :: List.replicate n zwsp)
  obtain ⟨m, rest, tail, hm, htext, hparts, htail⟩ := scanned_front hne hs
    (by rw [cons_prefix_cons, prefix_iff_eq_take, take_replicate]; simp [hn]) hscan
  cases m with
  | nil => exact absurd rfl (hne _ hm)
  | cons d m =>
    obtain ⟨rfl, hcons⟩ := cons.inj htext
    have hspaces : List.replicate n zwsp = m ++ rest := hcons
    have hpadded := (Padded.refl m).append (padded_rewriteParts htail)
    rw [← hspaces] at hpadded
    obtain ⟨n', hn', hout⟩ := padded_replicate hpadded
    refine ⟨by rw [breakPass, hparts]; rfl, n' + 1, by omega, ?_⟩
    rw [breakPass, hparts]
    change c :: zwsp :: (m ++ rewriteParts tail breakSpelling) = _
    rw [hout]
    rfl

/-- What follows the zero-width spaces at the front of a text. -/
def body (text : List Char) : List Char := text.dropWhile (· = zwsp)

omit hne in
theorem replicate_body (text : List Char) :
    ∃ j, text = List.replicate j zwsp ++ body text ∧ (body text).head? ≠ some zwsp := by
  induction text with
  | nil => exact ⟨0, rfl, nofun⟩
  | cons c text ih =>
    by_cases hc : c = zwsp
    · obtain ⟨j, htext, hhead⟩ := ih
      have hbody : body (c :: text) = body text := dropWhile_cons_of_pos (by simpa using hc)
      rw [hbody, hc]
      exact ⟨j + 1, congrArg (zwsp :: ·) htext, hhead⟩
    · have hbody : body (c :: text) = c :: text := dropWhile_cons_of_neg (by simpa using hc)
      rw [hbody]
      exact ⟨0, rfl, by simpa using hc⟩

omit hne in
theorem body_append {w : List Char} (hw : w.head? ≠ some zwsp) (j : ℕ) :
    body (List.replicate j zwsp ++ w) = w := by
  induction j with
  | zero =>
    cases w with
    | nil => rfl
    | cons c w => exact dropWhile_cons_of_neg (by simpa using hw)
  | succ j ih => exact (dropWhile_cons_of_pos (by simp)).trans ih

/-- Behind zero-width spaces the only spelling found is all that follows, when no spelling is only
zero-width spaces and none that begins with one has a shorter body. -/
theorem hit_body {w m : List Char} (hhead : w.head? ≠ some zwsp)
    (hspaces : ∀ i, List.replicate i zwsp ∉ spellings)
    (hleast : ∀ s ∈ spellings, s.head? = some zwsp → w.length ≤ (body s).length) {n : ℕ}
    (hhit : hitAt spellings (List.replicate (n + 1) zwsp ++ w) = some m) :
    m = List.replicate (n + 1) zwsp ++ w := by
  obtain ⟨hm, hfront⟩ := of_hitAt hne hhit
  rcases prefix_or_prefix_of_prefix hfront (prefix_append ..) with hall | hpast
  · rw [prefix_iff_eq_take, take_replicate] at hall
    exact absurd (hall ▸ hm) (hspaces _)
  · obtain ⟨w', rfl⟩ := hpast
    rw [prefix_append_right_inj] at hfront
    have hhead' : w'.head? ≠ some zwsp := by
      cases w' with
      | nil => nofun
      | cons c w' =>
        obtain ⟨rest, rfl⟩ := hfront
        exact hhead
    have hlength := hleast _ hm rfl
    rw [body_append hhead'] at hlength
    rw [hfront.eq_of_length (Nat.le_antisymm hfront.length_le hlength)]

/-- A spelling that begins with zero-width spaces is found behind any more of them, and the walk
only makes them more. -/
theorem scanned_body {j : ℕ} {w : List Char} (hs : List.replicate (j + 1) zwsp ++ w ∈ spellings)
    (hhead : w.head? ≠ some zwsp) (hspaces : ∀ i, List.replicate i zwsp ∉ spellings)
    (hleast : ∀ s ∈ spellings, s.head? = some zwsp → w.length ≤ (body s).length) {n : ℕ} (hn : j ≤ n)
    {parts : List (Char ⊕ List Char)}
    (h : Scanned (hitAt spellings) (List.replicate (n + 1) zwsp ++ w) parts) :
    parts.any Sum.isRight ∧
      rewriteParts parts breakSpelling = List.replicate (n + 2) zwsp ++ w := by
  have hwhole {n : ℕ} {parts : List (Char ⊕ List Char)} {m : List Char}
      (h : Scanned (hitAt spellings) (List.replicate (n + 1) zwsp ++ w) parts)
      (hhit : hitAt spellings (List.replicate (n + 1) zwsp ++ w) = some m) :
      parts.any Sum.isRight ∧
        rewriteParts parts breakSpelling = List.replicate (n + 2) zwsp ++ w := by
    obtain rfl := hit_body hne hhead hspaces hleast hhit
    obtain ⟨rest, tail, htext, rfl, htail⟩ := h.of_some hhit (by simp)
    obtain rfl : rest = [] := self_eq_append_right.mp htext
    cases htail.scan_eq (matches_hitAt hne)
    exact ⟨rfl, append_nil _⟩
  induction n, hn using Nat.le_induction generalizing parts with
  | base =>
    cases hhit : hitAt spellings (List.replicate (j + 1) zwsp ++ w) with
    | none => exact absurd (prefix_refl _) ((hitAt_eq_none hne).mp hhit _ hs)
    | some m => exact hwhole h hhit
  | succ n hn ih =>
    cases hhit : hitAt spellings (List.replicate (n + 1 + 1) zwsp ++ w) with
    | none =>
      obtain ⟨tail, rfl, htail⟩ := h.of_none hhit
      obtain ⟨hany, hout⟩ := ih htail
      exact ⟨hany, congrArg (zwsp :: ·) hout⟩
    | some m => exact hwhole h hhit

/-- A spelling that begins with a zero-width space is found again behind every further one. -/
theorem endless_body (hspaces : ∀ i, List.replicate i zwsp ∉ spellings)
    (hs : ∃ s ∈ spellings, s.head? = some zwsp) : ∃ text, ∀ fuel, d1Break spellings fuel text = none := by
  -- the spelling with the shortest body is found whole
  obtain ⟨s, hs, hhead, hleast⟩ : ∃ s ∈ spellings, s.head? = some zwsp ∧
      ∀ s' ∈ spellings, s'.head? = some zwsp → (body s).length ≤ (body s').length := by
    have hex : ∃ n, ∃ s ∈ spellings, s.head? = some zwsp ∧ (body s).length = n := by
      obtain ⟨s, hs, hhead⟩ := hs
      exact ⟨_, s, hs, hhead, rfl⟩
    obtain ⟨s, hs, hhead, hlength⟩ := Nat.find_spec hex
    exact ⟨s, hs, hhead, fun s' hs' hhead' =>
      hlength ▸ Nat.find_min' hex ⟨s', hs', hhead', rfl⟩⟩
  obtain ⟨j, htext, hbody⟩ := replicate_body s
  cases j with
  | zero =>
    rw [replicate_zero, nil_append] at htext
    rw [← htext] at hbody
    exact absurd hhead hbody
  | succ j =>
    refine ⟨s, @passes_none _ _ (fun text => ∃ n, j ≤ n ∧
      text = List.replicate (n + 1) zwsp ++ body s) ?_ _ ⟨j, Nat.le_refl _, htext⟩⟩
    rintro _ ⟨n, hn, rfl⟩
    obtain ⟨hany, hout⟩ := scanned_body hne (htext ▸ hs) hbody hspaces hleast hn (scanned hne _)
    exact ⟨hany, n + 1, Nat.le_succ_of_le hn, hout⟩

/-- Without a breakable spelling there is a text that never comes to an end. -/
theorem endless (hbad : ¬ ∀ s ∈ spellings, Breakable s) :
    ∃ text, ∀ fuel, d1Break spellings fuel text = none := by
  by_cases hspaces : ∀ i, List.replicate i zwsp ∉ spellings
  · by_cases hhead : ∃ s ∈ spellings, s.head? = some zwsp
    · exact endless_body hne hspaces hhead
    · obtain ⟨s, hs, hunbroken⟩ : ∃ s ∈ spellings, ¬ Breakable s := by
        simpa using hbad
      cases s with
      | nil => exact absurd rfl (hne _ hs)
      | cons c s =>
        have hrest : ∀ d ∈ s, d = zwsp := by
          intro d hd
          by_contra hother
          exact hunbroken ⟨fun h => hhead ⟨_, hs, h⟩, d, hd, hother⟩
        rw [eq_replicate_of_mem hrest] at hs
        exact ⟨_, endless_first hne hs⟩
  · obtain ⟨i, hi⟩ := not_forall_not.mp hspaces
    exact ⟨_, endless_spaces hne hi⟩

end Endless

/-! ### The vocabulary decides -/

/-- The spellings of the control tokens that are at least two bytes long. -/
def breakSpellings (tokens : List SpecialToken) : List (List Char) :=
  (quotedSpellings tokens false 2).map String.toList

theorem ne_nil_of_mem_breakSpellings {tokens : List SpecialToken} :
    ∀ s ∈ breakSpellings tokens, s ≠ [] := by
  intro s hs hnil
  obtain ⟨text, htext, rfl⟩ := mem_map.mp hs
  have hlong := mem_quotedSpellings htext
  rw [String.toList_eq_nil_iff.mp hnil] at hlong
  exact absurd hlong (by decide)

/-- Breaking comes to an end for every text, with no spelling left and nothing but zero-width
spaces put in, **exactly when** every spelling of the vocabulary is breakable. -/
theorem d1Break_ends_iff (tokens : List SpecialToken) :
    (∀ text, ∃ fuel result, d1Break (breakSpellings tokens) fuel text = some result ∧
      (∀ s ∈ breakSpellings tokens, ¬ s <:+: result) ∧ Padded text result) ↔
      ∀ s ∈ breakSpellings tokens, Breakable s := by
  have hne := @ne_nil_of_mem_breakSpellings tokens
  constructor
  · intro hends
    by_contra hbad
    obtain ⟨text, hnever⟩ := endless hne hbad
    obtain ⟨fuel, result, hresult, -⟩ := hends text
    rw [hnever fuel] at hresult
    cases hresult
  · exact fun hgood text => d1Break_ends hgood hne text

/-- A control token spelled by one character of two bytes is broken forever. -/
theorem d1Break_never : breakSpellings [⟨"é", true, false⟩] = [['é']] ∧
    ∀ fuel, d1Break (breakSpellings [⟨"é", true, false⟩]) fuel ['é'] = none := by
  have hspellings : breakSpellings [⟨"é", true, false⟩] = [['é']] := by decide +kernel
  refine ⟨hspellings, fun fuel => ?_⟩
  rw [hspellings]
  exact endless_first (c := 'é') (k := 0) (by simp) (by simp) fuel

end Retrograd.Decision
