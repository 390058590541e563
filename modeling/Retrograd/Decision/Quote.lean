import Retrograd.Decision.Spellings
import Retrograd.Logic.Occurs
import Mathlib.Data.List.TakeWhile

/-!
# Quoting the spellings of special tokens

Two more rewritings keep text from being read as special tokens. One breaks the bars of every
`<|name|>`, and leaves **no such text**. The other writes the angle brackets of the spellings of
the vocabulary as JSON escapes: a spelling **without angle brackets stays as it is**.
-/

namespace Retrograd.Decision

open Logic List

/-! ### Bars -/

/-- U+00A6. -/
def brokenBar : Char := '\u00a6'

def opening : List Char := ['<', '|']
def closing : List Char := ['|', '>']

def isName (c : Char) : Bool := c.isAlphanum || c == '_'

/-- The characters of `text` from `start` up to `stop`. -/
def slice (text : List Char) (start stop : ℕ) : List Char := (text.take stop).drop start

/-- What is written of `text`, and how many of its characters that is. The next opening is looked
for from `front` on. -/
def escapeFrom (text : List Char) : ℕ → List Char → ℕ → ℕ → List Char × ℕ
  | 0, out, done, _ => (out, done)
  | fuel + 1, out, done, front =>
    match position opening (text.drop front) with
    | none => (out, done)
    | some offset =>
      let start := front + offset
      let stop := start + 2 + ((text.drop (start + 2)).takeWhile isName).length
      if start + 2 < stop ∧ closing.isPrefixOf (text.drop stop) then
        let out := out ++ slice text done start ++ ['<', brokenBar]
          ++ slice text (start + 2) stop ++ [brokenBar, '>']
        escapeFrom text fuel out (stop + 2) (max (stop + 2) (start + 1))
      else escapeFrom text fuel out done (max done (start + 1))

/-- Text written as `<|name|>` would be parsed as a special token: its bars become U+00A6, so it
stays text. -/
def escapeSpecialTokens (text : List Char) : List Char :=
  let (out, done) := escapeFrom text (text.length + 1) [] 0 0
  if done = 0 then text else out ++ text.drop done

/-- A text `<|name|>`. -/
def IsSpecial (m : List Char) : Prop :=
  ∃ name, name ≠ [] ∧ (∀ c ∈ name, isName c) ∧ m = opening ++ name ++ closing

/-- The characters of a name behind the first two characters of `text`. -/
def nameAt (text : List Char) : List Char := (text.drop 2).takeWhile isName

/-- The `<|name|>` that `text` starts with. -/
def specialAt (text : List Char) : Option (List Char) :=
  if opening <+: text ∧ nameAt text ≠ [] ∧ closing <+: text.drop (2 + (nameAt text).length) then
    some (opening ++ nameAt text ++ closing)
  else none

/-- A text with its bars broken. -/
def breakBars (m : List Char) : List Char := m.map fun c => if c = '|' then brokenBar else c

variable {text out m : List Char} {parts : List (Char ⊕ List Char)}

theorem takeWhile_isName {name : List Char} (h : ∀ c ∈ name, isName c) (rest : List Char) :
    (name ++ closing ++ rest).takeWhile isName = name := by
  rw [append_assoc, takeWhile_append_of_pos h]
  exact append_nil name

theorem specialAt_eq_some : specialAt text = some m ↔ IsSpecial m ∧ m <+: text := by
  constructor
  · intro h
    unfold specialAt at h
    split_ifs at h with hspecial
    obtain ⟨hopening, hname, hclosing⟩ := hspecial
    obtain rfl := Option.some.inj h
    refine ⟨⟨_, hname, fun c hc => mem_takeWhile_imp hc, rfl⟩, ?_⟩
    obtain ⟨rest, rfl⟩ := hopening
    obtain ⟨after, hafter⟩ := hclosing
    refine ⟨after, ?_⟩
    have hrest : rest.takeWhile isName ++ rest.drop (rest.takeWhile isName).length = rest :=
      prefix_iff_eq_append.mp ( takeWhile_prefix _)
    have hdrop : (opening ++ rest).drop (2 + (nameAt (opening ++ rest)).length) =
        rest.drop (rest.takeWhile isName).length := by
      rw [← drop_drop]
      rfl
    rw [hdrop] at hafter
    rw [append_assoc, hafter, append_assoc]
    exact congrArg _ hrest
  · rintro ⟨⟨name, hname, hall, rfl⟩, rest, rfl⟩
    have hnameAt : nameAt (opening ++ name ++ closing ++ rest) = name :=
      takeWhile_isName hall rest
    have hdrop : (opening ++ name ++ closing ++ rest).drop (2 + name.length) = closing ++ rest := by
      rw [append_assoc, append_assoc, ← drop_drop]
      exact drop_left
    unfold specialAt
    rw [hnameAt, hdrop]
    exact if_pos ⟨by simp [append_assoc], hname, prefix_append ..⟩

theorem matches_specialAt : Matches specialAt := by
  intro text m h
  obtain ⟨⟨name, -, -, rfl⟩, hfront⟩ := specialAt_eq_some.mp h
  exact ⟨by simp [opening], hfront⟩

theorem specialAt_eq_none (h : ¬ opening <+: text) : specialAt text = none :=
  if_neg fun hspecial => h hspecial.1

theorem slice_add (text : List Char) (i n : ℕ) : slice text i (i + n) = (text.drop i).take n := by
  rw [slice, drop_take, Nat.add_sub_cancel_left]

theorem slice_self (text : List Char) (n : ℕ) : slice text n n = [] := by
  rw [slice, drop_take, Nat.sub_self, take_zero]

theorem slice_append {i j k : ℕ} (hij : i ≤ j) (hjk : j ≤ k) :
    slice text i j ++ slice text j k = slice text i k := by
  obtain ⟨n, rfl⟩ := Nat.exists_eq_add_of_le hij
  obtain ⟨l, rfl⟩ := Nat.exists_eq_add_of_le hjk
  rw [slice_add, slice_add, Nat.add_assoc, slice_add, take_add, drop_drop]

theorem slice_append_drop {i j : ℕ} (hij : i ≤ j) : slice text i j ++ text.drop j = text.drop i := by
  obtain ⟨n, rfl⟩ := Nat.exists_eq_add_of_le hij
  rw [slice_add, ← drop_drop]
  exact take_append_drop _ _

theorem breakBars_special {name : List Char} (hall : ∀ c ∈ name, isName c) :
    breakBars (opening ++ name ++ closing) = ['<', brokenBar] ++ name ++ [brokenBar, '>'] := by
  have hname : breakBars name = name := by
    refine (map_congr_left fun c hc => ?_).trans (map_id _)
    refine if_neg ?_
    rintro rfl
    exact absurd (hall _ hc) (by decide)
  unfold breakBars at hname ⊢
  rw [map_append, map_append, hname]
  rfl

theorem specialAt_of_opening (h : opening <+: text) :
    specialAt text = if 0 < (nameAt text).length ∧ closing.isPrefixOf (text.drop (2 + (nameAt text).length))
      then some (opening ++ nameAt text ++ closing) else none := by
  unfold specialAt
  simp only [h, true_and, ne_eq, isPrefixOf_iff_prefix, length_pos_iff]

/-- At an opening the loop does what the scan does there. -/
theorem escapeFrom_some {fuel done front offset : ℕ} (hdone : done ≤ front)
    (h : position opening (text.drop front) = some offset) :
    escapeFrom text (fuel + 1) out done front =
      match specialAt (text.drop (front + offset)) with
      | some m => escapeFrom text fuel (out ++ slice text done (front + offset) ++ breakBars m)
          (front + offset + m.length) (front + offset + m.length)
      | none => escapeFrom text fuel out done (front + offset + 1) := by
  have hat := (of_position h).1
  rw [OccursAt, drop_drop] at hat
  rw [escapeFrom, h, specialAt_of_opening hat]
  dsimp only
  have hle : done ≤ front + offset := hdone.trans (Nat.le_add_right ..)
  generalize front + offset = start at *
  have hname : (text.drop (start + 2)).takeWhile isName = nameAt (text.drop start) := by
    rw [nameAt, drop_drop]
  have hall : ∀ c ∈ nameAt (text.drop start), isName c := fun c hc => mem_takeWhile_imp hc
  have hslice : slice text (start + 2) (start + 2 + (nameAt (text.drop start)).length) =
      nameAt (text.drop start) := by
    rw [slice_add, ← hname]
    exact (prefix_iff_eq_take.mp ( takeWhile_prefix _)).symm
  have hiff : start + 2 < start + 2 + (nameAt (text.drop start)).length ↔
      0 < (nameAt (text.drop start)).length := by omega
  rw [hname, hslice, drop_drop, ← Nat.add_assoc]
  simp only [hiff]
  split_ifs with hspecial
  · dsimp only
    generalize hname' : nameAt (text.drop start) = name at *
    have hstop : start + (opening ++ name ++ closing).length = start + 2 + name.length + 2 := by
      rw [length_append, length_append]
      change start + (2 + name.length + 2) = _
      omega
    rw [breakBars_special hall, hstop, Nat.max_eq_left (by omega)]
    simp only [append_assoc]
  · rw [Nat.max_eq_right (by omega)]

/-- The loop writes what the scan makes of the rest of the text. -/
theorem escapeFrom_eq (fuel done front : ℕ) (hdone : done ≤ front) (hfront : front ≤ text.length)
    (hfuel : text.length - front < fuel) (h : Scanned specialAt (text.drop front) parts)
    (hout : done = 0 → out = []) :
    (escapeFrom text fuel out done front).1 ++ text.drop (escapeFrom text fuel out done front).2 =
      out ++ slice text done front ++ rewriteParts parts breakBars ∧
    ((escapeFrom text fuel out done front).2 = 0 →
      (escapeFrom text fuel out done front).1 = []) := by
  induction fuel generalizing out done front parts with
  | zero => exact absurd hfuel (Nat.not_lt_zero _)
  | succ fuel ih =>
    cases hposition : position opening (text.drop front) with
    | none =>
      rw [escapeFrom, hposition]
      have hnone := position_eq_none (by decide) hposition
      have hparts := h.rewrite_unmatched matches_specialAt
        (fun m _ => specialAt_eq_none (hnone m)) breakBars
      dsimp only
      rw [hparts, append_assoc, slice_append_drop hdone]
      exact ⟨rfl, hout⟩
    | some offset =>
      rw [escapeFrom_some hdone hposition]
      obtain ⟨hat, hbefore⟩ := of_position hposition
      have hlength : front + offset + 2 ≤ text.length := by
        have hfits := (hat.split (by decide)).2
        rw [length_drop] at hfits
        change offset + 2 ≤ _ at hfits
        omega
      -- nothing is matched before the opening
      obtain ⟨tail, rfl, htail⟩ := h.of_passed (n := offset) (by rw [length_drop]; omega)
        fun m hm => specialAt_eq_none (hbefore m hm)
      rw [OccursAt, drop_drop] at hat
      rw [drop_drop] at htail
      rw [rewriteParts_map_inl, ← slice_add]
      have hle : front ≤ front + offset := Nat.le_add_right ..
      generalize front + offset = start at *
      have hwritten : slice text done front ++ slice text front start = slice text done start :=
        slice_append hdone hle
      cases hspecial : specialAt (text.drop start) with
      | none =>
        obtain ⟨a, after, hafter⟩ := exists_cons_of_length_pos
          (l := text.drop start) (by rw [length_drop]; omega)
        rw [hafter] at htail hspecial
        obtain ⟨tail', rfl, hrest⟩ := htail.of_none hspecial
        have hdrop : text.drop (start + 1) = after := by
          rw [← drop_drop, hafter, drop_one, tail_cons]
        have hslice : slice text done (start + 1) = slice text done start ++ [a] := by
          rw [← slice_append (k := start + 1) (by omega : done ≤ start) (Nat.le_succ start), slice_add,
            hafter]
          rfl
        obtain ⟨hout', hnil⟩ := ih done (start + 1) (by omega) (by omega) (by omega)
          (hdrop ▸ hrest) hout
        refine ⟨hout'.trans ?_, hnil⟩
        rw [hslice, ← hwritten]
        simp [rewriteParts, append_assoc]
      | some m =>
        have hne : text.drop start ≠ [] := by
          refine ne_nil_of_length_pos ?_
          rw [length_drop]
          omega
        obtain ⟨rest, tail', hrest, rfl, htail'⟩ := htail.of_some hspecial hne
        have hlength' := congrArg List.length hrest
        have hpos := length_pos_iff.mpr (matches_specialAt _ _ hspecial).1
        rw [length_drop, length_append] at hlength'
        have hdrop : text.drop (start + m.length) = rest := by
          rw [← drop_drop, hrest, drop_left]
        obtain ⟨hout', hnil⟩ := ih (start + m.length) (start + m.length) (Nat.le_refl _) (by omega)
          (by omega) (hdrop ▸ htail') (fun hzero => by omega)
        refine ⟨hout'.trans ?_, hnil⟩
        rw [slice_self, ← hwritten]
        simp [rewriteParts, append_assoc]

/-- The bars of the leftmost texts `<|name|>` that do not overlap are broken, and nothing else. -/
theorem escapeSpecialTokens_eq (text : List Char) :
    escapeSpecialTokens text = rewriteParts (scan specialAt text) breakBars := by
  obtain ⟨hout, hnil⟩ := escapeFrom_eq (text.length + 1) 0 0 (Nat.le_refl 0) (Nat.zero_le _)
    (Nat.lt_succ_self _) (scanned_scan matches_specialAt text) (fun _ => rfl)
  have hslice : slice text 0 0 = [] := slice_self text 0
  rw [hslice, append_nil, nil_append] at hout
  rw [← hout]
  unfold escapeSpecialTokens
  dsimp only
  split_ifs with hdone
  · rw [hnil hdone, hdone]
    rfl
  · rfl

/-- What contains no opening bracket comes from the text as it is. -/
theorem unbroken_front {w : List Char} (hw : ∀ c ∈ w, c ≠ '<') (h : Scanned specialAt text parts)
    (hfront : w <+: rewriteParts parts breakBars) : w <+: text := by
  induction h generalizing w with
  | nil => exact hfront
  | @pass a rest parts _ _ ih =>
    cases w with
    | nil => exact nil_prefix
    | cons c w =>
      obtain ⟨rfl, hrest⟩ := cons_prefix_cons.mp hfront
      exact cons_prefix_cons.mpr ⟨rfl, ih (fun d hd => hw d (.tail _ hd)) hrest⟩
  | skip hsome _ _ =>
    cases w with
    | nil => exact nil_prefix
    | cons c w =>
      obtain ⟨⟨name, -, hall, rfl⟩, -⟩ := specialAt_eq_some.mp hsome
      have hblock : c :: w <+: breakBars (opening ++ name ++ closing) ++ _ := hfront
      rw [breakBars_special hall] at hblock
      obtain ⟨rfl, -⟩ := cons_prefix_cons.mp hblock
      exact absurd rfl (hw _ (.head _))

/-- A text that begins with a bracket does not begin in a piece without one. -/
theorem infix_of_piece {w piece rest : List Char} (hpiece : ∀ c ∈ piece, c ≠ '<')
    (h : '<' :: w <:+: piece ++ rest) : '<' :: w <:+: rest := by
  rcases begins_of_infix h with hrest | ⟨u, hne, hu, hfront⟩
  · exact hrest
  · cases u with
    | nil => exact absurd rfl hne
    | cons c u =>
      have hfirst := (cons_prefix_cons.mp hfront).1
      exact absurd hfirst.symm (hpiece c (hu.mem (.head _)))

/-- No `<|name|>` is left. -/
theorem unspecial_of_scanned (h : Scanned specialAt text parts) (hm : IsSpecial m) :
    ¬ m <:+: rewriteParts parts breakBars := by
  obtain ⟨name, hname, hall, rfl⟩ := hm
  have hword : ∀ c ∈ '|' :: (name ++ closing), c ≠ '<' := by
    rintro c hc rfl
    rcases mem_cons.mp hc with hbar | hc
    · exact absurd hbar (by decide)
    · rcases mem_append.mp hc with hc | hc
      · exact absurd (hall _ hc) (by decide)
      · exact absurd hc (by decide)
  induction h with
  | nil => exact fun hwithin => absurd (infix_nil.mp hwithin) (by simp [opening])
  | @pass a rest parts hnone hrest ih =>
    intro hwithin
    rcases infix_cons_iff.mp hwithin with hfront | hinside
    · obtain ⟨hbracket, hafter⟩ := cons_prefix_cons.mp hfront
      have hspecial : specialAt (a :: rest) = some (opening ++ name ++ closing) :=
        specialAt_eq_some.mpr ⟨⟨name, hname, hall, rfl⟩,
          cons_prefix_cons.mpr ⟨hbracket, unbroken_front hword hrest hafter⟩⟩
      rw [hnone] at hspecial
      cases hspecial
    · exact ih hinside
  | @skip m rest parts hsome hrest ih =>
    intro hwithin
    obtain ⟨⟨name', -, hall', rfl⟩, -⟩ := specialAt_eq_some.mp hsome
    have hblock : '<' :: '|' :: (name ++ closing) <:+:
        breakBars (opening ++ name' ++ closing) ++ rewriteParts parts breakBars := hwithin
    rw [breakBars_special hall'] at hblock
    rcases infix_cons_iff.mp hblock with hfront | hinside
    · -- a broken bar follows the bracket
      have hbar := (cons_prefix_cons.mp (cons_prefix_cons.mp hfront).2).1
      exact absurd hbar (by decide)
    · refine ih (infix_of_piece ?_ hinside)
      rintro c hc rfl
      rcases mem_append.mp hc with hc | hc
      · rcases mem_cons.mp hc with hbar | hc
        · exact absurd hbar (by decide)
        · exact absurd (hall' _ hc) (by decide)
      · exact absurd hc (by decide)

theorem unspecial_escapeSpecialTokens (text : List Char) (hm : IsSpecial m) :
    ¬ m <:+: escapeSpecialTokens text := by
  rw [escapeSpecialTokens_eq]
  exact unspecial_of_scanned (scanned_scan matches_specialAt text) hm

/-- Escaping an escaped text changes nothing. -/
theorem escapeSpecialTokens_idem (text : List Char) :
    escapeSpecialTokens (escapeSpecialTokens text) = escapeSpecialTokens text := by
  rw [escapeSpecialTokens_eq (escapeSpecialTokens text)]
  refine (scanned_scan matches_specialAt _).rewrite_unmatched matches_specialAt (fun n _ => ?_) _
  cases hspecial : specialAt ((escapeSpecialTokens text).drop n) with
  | none => rfl
  | some m =>
    obtain ⟨hm, hfront⟩ := specialAt_eq_some.mp hspecial
    exact absurd (hfront.isInfix.trans (drop_suffix ..).isInfix)
      (unspecial_escapeSpecialTokens text hm)

/-! ### Angle brackets -/

/-- The JSON escapes of the angle brackets. -/
def lessEscape : List Char := ['\\', 'u', '0', '0', '3', 'c']
def greaterEscape : List Char := ['\\', 'u', '0', '0', '3', 'e']

/-- `text.replace(c, by)`. -/
def replaceChar (c : Char) (written : List Char) (text : List Char) : List Char :=
  text.flatMap fun d => if d = c then written else [d]

/-- The angle brackets of a spelling as JSON escapes. -/
def quoteSpelling (s : List Char) : List Char :=
  replaceChar '>' greaterEscape (replaceChar '<' lessEscape s)

/-- The special token texts written in the input are quoted with JSON escapes, so they stay
text. -/
def h2oQuote (spellings : List (List Char)) (text : List Char) : List Char :=
  rewriteParts (scan (hitAt spellings) text) quoteSpelling

/-- A text without angle brackets. -/
def Bare (s : List Char) : Prop := '<' ∉ s ∧ '>' ∉ s

instance (s : List Char) : Decidable (Bare s) := inferInstanceAs (Decidable (_ ∧ _))

/-- What is written for an angle bracket. -/
def escapeOf (c : Char) : Option (List Char) :=
  if c = '<' then some lessEscape else if c = '>' then some greaterEscape else none

/-- A text in which some of the angle brackets are escaped, all of them among `brackets`. -/
inductive Quoted (brackets : Char → Prop) : List Char → List Char → Prop
  | nil : Quoted brackets [] []
  | keep {text out : List Char} (c : Char) (h : Quoted brackets text out) :
      Quoted brackets (c :: text) (c :: out)
  | escape {text out escape : List Char} {c : Char} (hb : brackets c)
      (hc : escapeOf c = some escape) (h : Quoted brackets text out) :
      Quoted brackets (c :: text) (escape ++ out)

/-- `s` and `s'` can overlap: an end of one agrees with the beginning of the other. -/
def Overlaps (s s' : List Char) : Prop :=
  (∃ u, u ≠ [] ∧ u <:+ s ∧ (u <+: s' ∨ s' <+: u)) ∨ ∃ u, u ≠ [] ∧ u <:+ s' ∧ (u <+: s ∨ s <+: u)

variable {spellings : List (List Char)} {s w : List Char} {brackets : Char → Prop}

theorem quoteSpelling_eq (s : List Char) :
    quoteSpelling s = s.flatMap fun c => (escapeOf c).getD [c] := by
  induction s with
  | nil => rfl
  | cons c s ih =>
    have hcons : quoteSpelling (c :: s) =
        replaceChar '>' greaterEscape (if c = '<' then lessEscape else [c]) ++ quoteSpelling s :=
      flatMap_append
    rw [hcons, ih, flatMap_cons]
    congr 1
    unfold escapeOf
    split_ifs with hless hgreater
    · rfl
    · rw [hgreater]
      rfl
    · simp [replaceChar, hgreater]

theorem quoteSpelling_cons (c : Char) (s : List Char) :
    quoteSpelling (c :: s) = (escapeOf c).getD [c] ++ quoteSpelling s := by
  rw [quoteSpelling_eq, flatMap_cons, ← quoteSpelling_eq]

theorem Quoted.append_quoteSpelling (h : Quoted brackets text out) (hs : ∀ c ∈ s, brackets c) :
    Quoted brackets (s ++ text) (quoteSpelling s ++ out) := by
  induction s with
  | nil => exact h
  | cons c s ih =>
    have hrest := ih fun d hd => hs d (.tail _ hd)
    rw [quoteSpelling_cons, append_assoc]
    cases hc : escapeOf c with
    | none => exact hrest.keep c
    | some escape => exact hrest.escape (hs c (.head _)) hc

/-- Quoting only escapes the angle brackets of what is found. -/
theorem quoted_rewriteParts (h : Scanned (hitAt spellings) text parts)
    (hfound : ∀ m, .inr m ∈ parts → ∀ c ∈ m, brackets c) :
    Quoted brackets text (rewriteParts parts quoteSpelling) := by
  induction h with
  | nil => exact .nil
  | pass _ _ ih => exact (ih fun m hm => hfound m (.tail _ hm)).keep _
  | skip _ _ ih =>
    exact (ih fun m hm => hfound m (.tail _ hm)).append_quoteSpelling (hfound _ (.head _))

theorem escapeOf_eq_none {c : Char} : escapeOf c = none ↔ c ≠ '<' ∧ c ≠ '>' := by
  unfold escapeOf
  split_ifs <;> simp_all

theorem bare_iff : Bare s ↔ ∀ c ∈ s, escapeOf c = none := by
  simp only [escapeOf_eq_none, Bare]
  exact ⟨fun h c hc => ⟨fun heq => h.1 (heq ▸ hc), fun heq => h.2 (heq ▸ hc)⟩,
    fun h => ⟨fun hmem => (h _ hmem).1 rfl, fun hmem => (h _ hmem).2 rfl⟩⟩

/-! ### A spelling without angle brackets -/

theorem Quoted.bare_front (h : Quoted brackets text out) (hs : Bare s) (hfront : s <+: text) : s <+: out := by
  rw [bare_iff] at hs
  induction h generalizing s with
  | nil => exact hfront
  | keep c _ ih =>
    cases s with
    | nil => exact nil_prefix
    | cons d s =>
      obtain ⟨rfl, hrest⟩ := cons_prefix_cons.mp hfront
      exact cons_prefix_cons.mpr ⟨rfl, ih (fun e he => hs e (.tail _ he)) hrest⟩
  | escape _ hc _ _ =>
    cases s with
    | nil => exact nil_prefix
    | cons d s =>
      obtain ⟨rfl, -⟩ := cons_prefix_cons.mp hfront
      rw [hs d (.head _)] at hc
      cases hc

/-- What is written without angle brackets stays in the text. -/
theorem Quoted.bare_stands (h : Quoted brackets text out) (hs : Bare s) (hwithin : s <:+: text) :
    s <:+: out := by
  induction h with
  | nil => exact hwithin
  | keep c htail ih =>
    rcases infix_cons_iff.mp hwithin with hfront | hrest
    · exact ((htail.keep c).bare_front hs hfront).isInfix
    · exact (ih hrest).trans (suffix_cons ..).isInfix
  | escape hb hc htail ih =>
    rcases infix_cons_iff.mp hwithin with hfront | hrest
    · exact ((htail.escape hb hc).bare_front hs hfront).isInfix
    · exact (ih hrest).trans (suffix_append ..).isInfix

/-! ### The others -/

/-- What agrees with no beginning of an escape is not read out of one. -/
theorem Quoted.unquoted_front (h : Quoted brackets text out)
    (hw : ∀ u, u ≠ [] → u <:+ w → ∀ c escape, brackets c → escapeOf c = some escape →
      ¬ (u <+: escape ∨ escape <+: u)) (hfront : w <+: out) : w <+: text := by
  induction h generalizing w with
  | nil => exact hfront
  | keep c _ ih =>
    cases w with
    | nil => exact nil_prefix
    | cons d w =>
      obtain ⟨rfl, hrest⟩ := cons_prefix_cons.mp hfront
      exact cons_prefix_cons.mpr ⟨rfl,
        ih (fun u hne hu => hw u hne (hu.trans (suffix_cons ..))) hrest⟩
  | escape hb hc _ _ =>
    cases w with
    | nil => exact nil_prefix
    | cons d w =>
      exact absurd ( prefix_or_prefix_of_prefix hfront (prefix_append ..))
        (hw (d :: w) (by simp) (suffix_refl _) _ _ hb hc)

/-- Then its beginning in a quoted spelling has no angle brackets. -/
theorem bare_take (hs : ∀ c ∈ s, brackets c)
    (hw : ∀ u, u ≠ [] → u <:+ w → ∀ c escape, brackets c → escapeOf c = some escape →
      ¬ (u <+: escape ∨ escape <+: u)) {rest : List Char} (hfront : w <+: quoteSpelling s ++ rest) :
    Bare (w.take s.length) := by
  induction s generalizing w with
  | nil => exact ⟨by simp, by simp⟩
  | cons c s ih =>
    cases w with
    | nil => exact ⟨by simp, by simp⟩
    | cons d w =>
      rw [quoteSpelling_cons, append_assoc] at hfront
      cases hc : escapeOf c with
      | none =>
        rw [hc] at hfront
        obtain ⟨rfl, hrest⟩ := cons_prefix_cons.mp hfront
        have htake := bare_iff.mp (ih (fun e he => hs e (.tail _ he))
          (fun u hne hu => hw u hne (hu.trans (suffix_cons ..))) hrest)
        rw [length_cons, take_succ_cons]
        refine bare_iff.mpr fun e he => ?_
        rcases mem_cons.mp he with rfl | he
        · exact hc
        · exact htake e he
      | some escape =>
        rw [hc] at hfront
        exact absurd ( prefix_or_prefix_of_prefix hfront (prefix_append ..))
          (hw (d :: w) (by simp) (suffix_refl _) _ _ (hs c (.head _)) hc)

/-- The special token texts that are quoted. -/
def quoteSpellings (tokens : List SpecialToken) : List (List Char) :=
  (quotedSpellings tokens true 1).map String.toList

/-- No spelling can overlap the quoted form of one that stands in the text: none overlaps an
escape that is written for it, and none that has angle brackets begins with the end of it. -/
structure Clear (spellings : List (List Char)) (text : List Char) : Prop where
  escapes : ∀ m ∈ spellings, m <:+: text → ∀ c ∈ m, ∀ escape, escapeOf c = some escape →
    ∀ s ∈ spellings, ¬ Overlaps s escape
  ends : ∀ m ∈ spellings, m <:+: text → ∀ s ∈ spellings,
    ∀ u, u ≠ [] → u ≠ m → u <:+ m → Bare u → u <+: s → Bare s

/-- The spelling that is found is a longest one that stands there. -/
theorem length_le_of_spellingAt {tokens : List SpecialToken}
    (h : spellingAt text (quoteSpellings tokens) = some m) (hs : s ∈ quoteSpellings tokens)
    (hfront : s <+: text) : s.length ≤ m.length := by
  rw [spellingAt, quoteSpellings, find?_map] at h
  obtain ⟨m, hfind, rfl⟩ := Option.map_eq_some_iff.mp h
  obtain ⟨s, hmem, rfl⟩ := mem_map.mp hs
  obtain ⟨hm, longer, shorter, hsplit, hlonger⟩ := find?_eq_some_iff_append.mp hfind
  have hsorted : (quotedSpellings tokens true 1).Pairwise
      fun s s' => decide (s'.utf8ByteSize ≤ s.utf8ByteSize) = true := by
    refine pairwise_mergeSort (fun s s' s'' h h' => ?_) (fun s s' => ?_) _
    · simp only [decide_eq_true_eq] at h h' ⊢
      omega
    · simp only [Bool.or_eq_true, decide_eq_true_eq]
      omega
  rw [hsplit] at hmem hsorted
  have hsize : s.utf8ByteSize ≤ m.utf8ByteSize := by
    rcases mem_append.mp hmem with hbefore | hafter
    · have hnot := hlonger s hbefore
      simp only [Function.comp_apply, Bool.not_eq_true', ← Bool.not_eq_true] at hnot
      exact absurd ( isPrefixOf_iff_prefix.mpr hfront) hnot
    · rcases mem_cons.mp hafter with rfl | hafter
      · exact Nat.le_refl _
      · exact of_decide_eq_true ((pairwise_cons.mp (pairwise_append.mp hsorted).2.1).1 s hafter)
  by_contra hlonger
  obtain ⟨rest, hrest⟩ := prefix_of_prefix_length_le
    ( isPrefixOf_iff_prefix.mp hm) hfront (by omega)
  have hlength := congrArg List.length hrest
  have hs : s = m ++ String.ofList rest := by
    rw [← String.toList_inj, String.toList_append, String.toList_ofList, hrest]
  have hpos : (String.ofList rest).utf8ByteSize ≠ 0 := by
    rw [Ne, String.utf8ByteSize_eq_zero_iff, ← String.toList_inj, String.toList_ofList]
    rintro rfl
    rw [length_append, String.toList_empty] at hlength
    simp at hlength
    omega
  rw [hs, String.utf8ByteSize_append] at hsize
  omega

theorem ne_nil_of_mem_quoteSpellings {tokens : List SpecialToken} :
    ∀ s ∈ quoteSpellings tokens, s ≠ [] := by
  intro s hs hnil
  obtain ⟨text, htext, rfl⟩ := mem_map.mp hs
  have hlong := mem_quotedSpellings htext
  rw [String.toList_eq_nil_iff.mp hnil] at hlong
  exact absurd hlong (by decide)

/-- What stands behind a quoted spelling's beginning, and overlaps no escape, begins at one of its
characters. -/
theorem begins_of_quoted (hm : ∀ c ∈ m, ∀ escape, escapeOf c = some escape → ¬ Overlaps s escape)
    (h : s <:+: quoteSpelling m ++ out) :
    s <:+: out ∨ ∃ u, u ≠ [] ∧ u <:+ m ∧ s <+: quoteSpelling u ++ out := by
  induction m with
  | nil => exact .inl h
  | cons c m ih =>
    have hlater (hinside : s <:+: quoteSpelling m ++ out) :=
      (ih (fun d hd => hm d (.tail _ hd)) hinside).imp_right fun ⟨u, hne, hu, hfront⟩ =>
        (⟨u, hne, hu.trans (suffix_cons ..), hfront⟩ :
          ∃ u, u ≠ [] ∧ u <:+ c :: m ∧ s <+: quoteSpelling u ++ out)
    rw [quoteSpelling_cons, append_assoc] at h
    cases hc : escapeOf c with
    | none =>
      rw [hc] at h
      rcases infix_cons_iff.mp h with hfront | hinside
      · refine .inr ⟨c :: m, cons_ne_nil c m, suffix_refl _, ?_⟩
        rw [quoteSpelling_cons, hc]
        exact hfront
      · exact hlater hinside
    | some escape =>
      rw [hc] at h
      rcases begins_of_infix h with hinside | ⟨u, hne, hu, hfront⟩
      · exact hlater hinside
      · exact absurd (.inr ⟨u, hne, hu, ( prefix_or_prefix_of_prefix hfront
          (prefix_append ..)).symm⟩) (hm c (.head _) escape hc)

/-- What is found is a spelling that stands in the text. -/
theorem found_of_mem_parts (hne : ∀ s ∈ spellings, s ≠ [])
    (h : Scanned (hitAt spellings) text parts) (hm : .inr m ∈ parts) :
    m ∈ spellings ∧ m <:+: text := by
  induction h with
  | nil => cases hm
  | pass _ _ ih =>
    rcases mem_cons.mp hm with heq | hm
    · cases heq
    · exact ⟨(ih hm).1, (ih hm).2.trans (suffix_cons ..).isInfix⟩
  | skip hsome _ ih =>
    rcases mem_cons.mp hm with heq | hm
    · obtain rfl := Sum.inr.inj heq
      exact ⟨(of_hitAt hne hsome).1, (prefix_append ..).isInfix⟩
    · exact ⟨(ih hm).1, (ih hm).2.trans (suffix_append ..).isInfix⟩

/-- A spelling that stands in the quoted text has no angle brackets, and stood in the text. -/
theorem bare_of_infix {tokens : List SpecialToken} {whole : List Char}
    (hclear : Clear (quoteSpellings tokens) whole)
    (h : Scanned (hitAt (quoteSpellings tokens)) text parts) (hwhole : text <:+: whole)
    (hs : s ∈ quoteSpellings tokens) (hwithin : s <:+: rewriteParts parts quoteSpelling) :
    Bare s ∧ s <:+: text := by
  have hne := @ne_nil_of_mem_quoteSpellings tokens
  let brackets (c : Char) : Prop := ∃ m ∈ quoteSpellings tokens, m <:+: whole ∧ c ∈ m
  have hends : ∀ u, u ≠ [] → u <:+ s → ∀ c escape, brackets c → escapeOf c = some escape →
      ¬ (u <+: escape ∨ escape <+: u) := by
    rintro u hu hsuffix c escape ⟨m, hm, hstands, hcm⟩ hc hmeets
    exact hclear.escapes m hm hstands c hcm escape hc s hs (.inl ⟨u, hu, hsuffix, hmeets⟩)
  have hquoted {text : List Char} {parts : List (Char ⊕ List Char)}
      (h : Scanned (hitAt (quoteSpellings tokens)) text parts) (hwhole : text <:+: whole) :
      Quoted brackets text (rewriteParts parts quoteSpelling) :=
    quoted_rewriteParts h fun m hm c hc =>
      have hfound := found_of_mem_parts hne h hm
      ⟨m, hfound.1, hfound.2.trans hwhole, hc⟩
  induction h with
  | nil => exact absurd (infix_nil.mp hwithin) (hne s hs)
  | @pass a rest parts hnone hrest ih =>
    have hlater := (suffix_cons a rest).isInfix.trans hwhole
    rcases infix_cons_iff.mp hwithin with hfront | hinside
    · -- it would have been found
      have hstood := ((hquoted hrest hlater).keep a).unquoted_front hends hfront
      exact absurd hstood ((hitAt_eq_none hne).mp hnone s hs)
    · exact ⟨(ih hlater hinside).1, (ih hlater hinside).2.trans (suffix_cons ..).isInfix⟩
  | @skip m rest parts hsome hrest ih =>
    have hlater := (suffix_append m rest).isInfix.trans hwhole
    have hm := (of_hitAt hne hsome).1
    have hstands : m <:+: whole := (prefix_append m rest).isInfix.trans hwhole
    have hbrackets : ∀ c ∈ m, brackets c := fun c hc => ⟨m, hm, hstands, hc⟩
    rcases begins_of_quoted (fun c hc escape hcs => hclear.escapes m hm hstands c hc escape hcs s hs)
      hwithin with hinside | ⟨u, hu, ⟨before, rfl⟩, hfront⟩
    · exact ⟨(ih hlater hinside).1, (ih hlater hinside).2.trans (suffix_append ..).isInfix⟩
    · have hubrackets : ∀ c ∈ u, brackets c := fun c hc => hbrackets c (mem_append_right _ hc)
      have hstood := ((hquoted hrest hlater).append_quoteSpelling hubrackets).unquoted_front hends hfront
      have hbare := bare_take hubrackets hends hfront
      refine ⟨?_, ?_⟩
      · rcases Nat.le_total s.length u.length with hshort | hlong
        · rwa [take_of_length_le hshort] at hbare
        · have hbegins : u <+: s :=
            prefix_of_prefix_length_le (prefix_append ..) hstood hlong
          rw [← prefix_iff_eq_take.mp hbegins] at hbare
          by_cases hall : u = before ++ u
          · -- nothing longer than what is found stands at its beginning
            rw [hitAt_eq hne] at hsome
            have hle := length_le_of_spellingAt hsome hs (by rwa [← hall])
            rw [← hall] at hle
            rwa [hbegins.eq_of_length (Nat.le_antisymm hlong hle)] at hbare
          · exact hclear.ends _ hm hstands s hs u hu hall (suffix_append ..) hbare hbegins
      · rw [append_assoc]
        exact hstood.isInfix.trans (suffix_append ..).isInfix

/-- No spelling without angle brackets that stands in the text is quoted away. -/
theorem bare_stays {tokens : List SpecialToken} (hs : Bare s) (hwithin : s <:+: text) :
    s <:+: h2oQuote (quoteSpellings tokens) text :=
  (quoted_rewriteParts
    (scanned_scan (matches_hitAt ne_nil_of_mem_quoteSpellings) text)
    fun _ _ _ _ => trivial).bare_stands hs hwithin

/-- Escaping a text breaks the bars of the leftmost texts `<|name|>` that do not overlap, and
leaves none. Quoting it leaves no spelling of the vocabulary **exactly when** no spelling without
angle brackets stands in it, as long as no spelling overlaps the quoted form of one that does. -/
theorem quoted_spells_none (tokens : List SpecialToken) (text : List Char) :
    ((∀ m, IsSpecial m → ¬ m <:+: escapeSpecialTokens text) ∧
      (∃ parts, Scanned specialAt text parts ∧
        escapeSpecialTokens text = rewriteParts parts breakBars) ∧
      escapeSpecialTokens (escapeSpecialTokens text) = escapeSpecialTokens text) ∧
      ((∀ s ∈ quoteSpellings tokens, ¬ s <:+: h2oQuote (quoteSpellings tokens) text) →
        ∀ s ∈ quoteSpellings tokens, Bare s → ¬ s <:+: text) ∧
      (Clear (quoteSpellings tokens) text →
        (∀ s ∈ quoteSpellings tokens, Bare s → ¬ s <:+: text) →
        ∀ s ∈ quoteSpellings tokens, ¬ s <:+: h2oQuote (quoteSpellings tokens) text) := by
  refine ⟨⟨fun m => unspecial_escapeSpecialTokens text,
    ⟨_, scanned_scan matches_specialAt text, escapeSpecialTokens_eq text⟩,
    escapeSpecialTokens_idem text⟩, ?_, ?_⟩
  · intro hfree s hs hbare hwithin
    exact hfree s hs (bare_stays hbare hwithin)
  · intro hclear hnone s hs hwithin
    obtain ⟨hbare, hstands⟩ := bare_of_infix hclear
      (scanned_scan (matches_hitAt ne_nil_of_mem_quoteSpellings) text) List.infix_rfl hs hwithin
    exact hnone s hs hbare hstands

/-- Spellings that begin with an angle bracket and have no backslash overlap no quoted form. -/
theorem Clear.of_tags (h : ∀ s ∈ spellings, s.head? = some '<' ∧ '\\' ∉ s) (text : List Char) :
    Clear spellings text := by
  have hbegins {s : List Char} (hs : s ∈ spellings) {u : List Char} (hne : u ≠ [])
      (hmeets : u <+: s ∨ s <+: u) : '<' ∈ u := by
    have hhead := (h s hs).1
    cases s with
    | nil => cases hhead
    | cons c s =>
      obtain rfl : c = '<' := Option.some.inj hhead
      rcases hmeets with hfront | hfront
      · cases u with
        | nil => exact absurd rfl hne
        | cons d u => exact (cons_prefix_cons.mp hfront).1 ▸ .head _
      · exact hfront.mem (.head _)
  constructor
  · rintro m - - c - escape hc s hs hoverlaps
    have hescape : '<' ∉ escape ∧ ∃ rest, escape = '\\' :: rest := by
      unfold escapeOf at hc
      split_ifs at hc
      · exact Option.some.inj hc ▸ ⟨by decide, _, rfl⟩
      · exact Option.some.inj hc ▸ ⟨by decide, _, rfl⟩
    obtain ⟨hless, rest, rfl⟩ := hescape
    rcases hoverlaps with ⟨u, hne, hu, hmeets⟩ | ⟨u, hne, hu, hmeets⟩
    · refine (h s hs).2 (hu.mem ?_)
      rcases hmeets with hfront | hfront
      · cases u with
        | nil => exact absurd rfl hne
        | cons d u => exact (cons_prefix_cons.mp hfront).1 ▸ .head _
      · exact hfront.mem (.head _)
    · exact hless (hu.mem (hbegins hs hne hmeets))
  · rintro m - - s hs u hne - - hbare hfront
    exact absurd (hbegins hs hne (.inl hfront)) hbare.1

theorem quoted_spells_none_tag :
    ∀ s ∈ quoteSpellings [⟨"<|im_end|>", true, false⟩],
      ¬ s <:+: h2oQuote (quoteSpellings [⟨"<|im_end|>", true, false⟩]) "a <|im_end|> b".toList := by
  have hspellings : ∀ s ∈ quoteSpellings [⟨"<|im_end|>", true, false⟩],
      s.head? = some '<' ∧ '\\' ∉ s := by decide +kernel
  refine (quoted_spells_none _ _).2.2 (Clear.of_tags hspellings _) ?_
  intro s hs hbare _
  exact hbare.1 (List.mem_of_mem_head? (hspellings s hs).1)

/-- A user-defined token without angle brackets is found, and stays as it is. -/
theorem h2oQuote_bare_stays :
    ∃ s ∈ quoteSpellings [⟨"[INST]", false, true⟩],
      s <:+: h2oQuote (quoteSpellings [⟨"[INST]", false, true⟩]) "[INST]".toList :=
  ⟨"[INST]".toList, by decide +kernel, bare_stays (by decide +kernel) List.infix_rfl⟩

end Retrograd.Decision
