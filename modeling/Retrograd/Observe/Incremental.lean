import Retrograd.Observe.Reader

/-!
# Reading on, and reading at once

A reader that follows a file as it grows goes back, on each refresh, to the end of the last
batch it took in, and reads what is after it **again**. Nothing in there was taken in, so the
updates, prompts and runs come out as if the file had been read once. What was dropped in there
was already counted, and is counted once more: `Tail` says how much that is, from the lines
alone.
-/

namespace Retrograd.Observe

open Logic List Option

variable {format : Format}

/-! ### What is read again -/

/-- What a reader has seen of a file since no batch was open: the batch that is, and how many
lines and batches were dropped. -/
structure Tail where
  batch : List IndexLine := []
  dropped : ℕ := 0

/-- Whether a record is the next one of a batch. -/
def follows (batch : List IndexLine) (record : IndexLine) : Bool :=
  match batch with
  | [] => false
  | first :: _ =>
    first.segment = record.segment && first.batchId = record.batchId &&
      first.batchLen = record.batchLen && record.batchIndex = batch.length

/-- A record of this schema version. -/
def Tail.record (tail : Tail) (record : IndexLine) : Tail :=
  if follows tail.batch record then
    if record.batchLen = tail.batch.length + 1 then {}
    else { tail with batch := tail.batch ++ [record] }
  else if record.batchIndex ≠ 0 ∨ record.batchLen ≤ 1 then {}
  -- the batch that was open is broken off
  else { batch := [record], dropped := tail.dropped + if tail.batch.isEmpty then 0 else 1 }

def Tail.next (tail : Tail) : Mark → Tail
  | .blank => if tail.batch.isEmpty then {} else tail
  | .garbage => if tail.batch.isEmpty then {} else { tail with dropped := tail.dropped + 1 }
  | .record record => tail.record record
  | .foreign _ => tail

/-- A line the reader does not stop at. -/
def Format.readable (format : Format) (text : List UInt8) : Bool :=
  match format.mark text with
  | .foreign _ => false
  | _ => true

/-- What is read again when the file has grown. -/
def Format.tail (format : Format) (file : List UInt8) : Tail :=
  ((Logic.lines newline file).takeWhile format.readable).foldl
    (fun tail text => tail.next (format.mark text)) {}

/-- The file has a record of another schema version. -/
def Format.Refuses (format : Format) (file : List UInt8) : Prop :=
  ∃ text ∈ Logic.lines newline file, format.readable text = false

/-! ### Counting does not matter -/

/-- An index that has skipped `n` more. -/
def ObserveIndex.more (index : ObserveIndex) (n : ℕ) : ObserveIndex :=
  { index with skipped := index.skipped + n }

@[simp]
theorem ObserveIndex.more_zero (index : ObserveIndex) : index.more 0 = index :=
  rfl

@[simp]
theorem ObserveIndex.more_more (index : ObserveIndex) (n m : ℕ) :
    (index.more n).more m = index.more (n + m) := by
  simp [more, Nat.add_assoc]

theorem ObserveIndex.skip_eq (index : ObserveIndex) : index.skip = index.more 1 :=
  rfl

theorem ObserveIndex.skip_more (index : ObserveIndex) (n : ℕ) :
    (index.more n).skip = index.skip.more n := by
  simp only [skip_eq, more_more, Nat.add_comm]

theorem ObserveIndex.ingest_more (index : ObserveIndex) (n : ℕ) (record : IndexLine)
    (line : LineRef) : (index.more n).ingest record line = (index.ingest record line).more n := by
  unfold ingest
  repeat' split
  all_goals first | rfl | exact index.skip_more n

theorem ObserveIndex.ingestAll_more (index : ObserveIndex) (n : ℕ)
    (batch : List (IndexLine × LineRef)) :
    (index.more n).ingestAll batch = (index.ingestAll batch).more n := by
  induction batch generalizing index with
  | nil => rfl
  | cons entry rest ih =>
    calc (index.more n).ingestAll (entry :: rest)
        = ((index.more n).ingest entry.1 entry.2).ingestAll rest := rfl
      _ = ((index.ingest entry.1 entry.2).more n).ingestAll rest := by rw [ingest_more]
      _ = _ := ih _

/-- A pass over an index that has skipped `n` more. -/
def Scan.more (scan : Scan) (n : ℕ) : Scan :=
  { scan with index := scan.index.more n }

theorem Scan.push_more (scan : Scan) (n : ℕ) (record : IndexLine) (line : LineRef)
    (position : ℕ) :
    (scan.more n).push record line position = (scan.push record line position).more n := by
  by_cases h : record.batchLen = scan.unfinished.length + 1
  · simp only [push, more, ObserveIndex.ingestAll_more, h, if_true]
    rfl
  · simp only [push, more, h, if_false]

theorem Scan.pass_more (scan : Scan) (n position : ℕ) :
    (scan.more n).pass position = (scan.pass position).more n := by
  by_cases h : scan.unfinished.isEmpty
  · simp only [pass, more, h, if_true]
    rfl
  · simp only [pass, more, h]
    rfl

theorem Scan.record_more (scan : Scan) (n : ℕ) (record : IndexLine) (line : LineRef)
    (position : ℕ) :
    (scan.more n).record record line position = (scan.record record line position).more n := by
  unfold Scan.record
  by_cases hnext : continues scan.unfinished record
  · rw [if_pos hnext, if_pos (show continues (scan.more n).unfinished record from hnext),
      push_more]
  · rw [if_neg hnext, if_neg (show ¬ continues (scan.more n).unfinished record from hnext)]
    have hindex : (if (scan.more n).unfinished.isEmpty then (scan.more n).index
        else (scan.more n).index.skip) =
          (if scan.unfinished.isEmpty then scan.index else scan.index.skip).more n := by
      by_cases h : scan.unfinished.isEmpty
      · simp only [more, h, if_true]
      · simp only [more, h, if_false, Bool.false_eq_true]
        exact scan.index.skip_more n
    dsimp only
    rw [hindex, ObserveIndex.skip_more]
    by_cases hstray : record.batchIndex ≠ 0 ∨ record.batchLen = 0
    · rw [if_pos hstray, if_pos hstray]
      rfl
    · rw [if_neg hstray, if_neg hstray, ← push_more]
      rfl

theorem Scan.line_more (scan : Scan) (n len : ℕ) (mark : Mark) :
    (scan.more n).line len mark = (scan.line len mark).map (·.more n) := by
  cases mark with
  | blank => exact congrArg Except.ok (scan.pass_more n _)
  | record record => exact congrArg Except.ok (scan.record_more n record _ _)
  | garbage =>
    refine congrArg Except.ok ?_
    calc ({ scan.more n with index := (scan.more n).index.skip } : Scan).pass _
        = (({ scan with index := scan.index.skip } : Scan).more n).pass _ :=
          congrArg (fun index => ({ scan with index } : Scan).pass _) (scan.index.skip_more n)
      _ = _ := pass_more _ _ _
  | foreign version => rfl

theorem Scan.lines_more (scan : Scan) (n : ℕ) (texts : List (List UInt8)) :
    (scan.more n).lines format texts =
      ((scan.lines format texts).1.more n, (scan.lines format texts).2) := by
  induction texts generalizing scan with
  | nil => rfl
  | cons text rest ih =>
    unfold Scan.lines
    rw [Scan.line_more]
    cases scan.line text.length (format.mark text) with
    | ok next => exact ih next
    | error error => rfl

/-! ### A pass over readable lines -/

/-- A line that is readable is read. -/
def Scan.step (format : Format) (scan : Scan) (text : List UInt8) : Scan :=
  match scan.line text.length (format.mark text) with
  | .ok next => next
  | .error _ => scan

theorem Scan.lines_readable (scan : Scan) {first : List (List UInt8)}
    (h : ∀ text ∈ first, format.readable text) (rest : List (List UInt8)) :
    scan.lines format (first ++ rest) = (first.foldl (Scan.step format) scan).lines format rest := by
  induction first generalizing scan with
  | nil => rfl
  | cons text first ih =>
    rw [forall_mem_cons] at h
    rw [cons_append, Scan.lines, foldl_cons, ← ih _ h.2, Scan.step]
    have hreadable := h.1
    unfold Format.readable at hreadable
    cases hmark : format.mark text with
    | foreign version =>
      rw [hmark] at hreadable
      cases hreadable
    | blank => rfl
    | record record => rfl
    | garbage => rfl

theorem Scan.step_more (scan : Scan) (n : ℕ) (text : List UInt8) :
    (scan.more n).step format text = (scan.step format text).more n := by
  unfold step
  rw [line_more]
  cases scan.line text.length (format.mark text) <;> rfl

theorem Scan.foldl_step_more (scan : Scan) (n : ℕ) (texts : List (List UInt8)) :
    texts.foldl (Scan.step format) (scan.more n) =
      (texts.foldl (Scan.step format) scan).more n := by
  induction texts generalizing scan with
  | nil => rfl
  | cons text rest ih => rw [foldl_cons, foldl_cons, step_more, ih]

/-- A scan with no batch open: everything up to it is indexed. -/
def Scan.Settled (scan : Scan) : Prop :=
  scan.unfinished = [] ∧ scan.index.committed = scan.position

/-- A scan whose open batch is that of a tail. -/
def Scan.Open (scan : Scan) (tail : Tail) : Prop :=
  scan.unfinished.map Prod.fst = tail.batch

theorem continues_eq {scan : Scan} {tail : Tail} (h : scan.Open tail) (record : IndexLine) :
    continues scan.unfinished record = follows tail.batch record := by
  unfold Scan.Open at h
  rw [← h]
  cases hunfinished : scan.unfinished with
  | nil => rfl
  | cons first rest => simp [continues, follows]

theorem isEmpty_eq {scan : Scan} {tail : Tail} (h : scan.Open tail) :
    scan.unfinished.isEmpty = tail.batch.isEmpty := by
  rw [← h, isEmpty_map]

/-- What a line does to a scan, against what it does to a tail: either nothing is open after it,
or the index has at most skipped more. -/
def Agrees (scan next : Scan) (tail tail' : Tail) : Prop :=
  (next.Settled ∧ tail' = {}) ∨
    ∃ n, tail'.dropped = tail.dropped + n ∧ next.Open tail' ∧ next.index = scan.index.more n

theorem Scan.pass_agrees {scan : Scan} {tail : Tail} (h : scan.Open tail) (position n : ℕ) :
    Agrees scan (({ scan with index := scan.index.more n } : Scan).pass position) tail
      (if tail.batch.isEmpty then {} else { tail with dropped := tail.dropped + n }) := by
  have hempty := isEmpty_eq h
  cases hbatch : tail.batch.isEmpty with
  | true =>
    rw [hbatch] at hempty
    refine .inl ⟨⟨List.isEmpty_iff.mp hempty, ?_⟩, rfl⟩
    simp [Scan.pass, hempty]
  | false =>
    rw [hbatch] at hempty
    refine .inr ⟨n, rfl, h, ?_⟩
    simp [Scan.pass, hempty]

theorem Scan.push_agrees {scan : Scan} {tail : Tail} (h : scan.Open tail) (record : IndexLine)
    (line : LineRef) (position : ℕ) :
    Agrees scan (scan.push record line position) tail
      (if record.batchLen = tail.batch.length + 1 then {}
        else { tail with batch := tail.batch ++ [record] }) := by
  have hlen : scan.unfinished.length = tail.batch.length := by
    rw [← h, length_map]
  unfold Scan.push
  rw [hlen]
  by_cases hcomplete : record.batchLen = tail.batch.length + 1
  · rw [if_pos hcomplete, if_pos hcomplete]
    exact .inl ⟨⟨rfl, rfl⟩, rfl⟩
  · rw [if_neg hcomplete, if_neg hcomplete]
    refine .inr ⟨0, rfl, ?_, rfl⟩
    simp only [Scan.Open, map_append, map_cons, map_nil] at h ⊢
    rw [h]

private theorem Scan.push_first (index : ObserveIndex) (start position : ℕ) (record : IndexLine)
    (line : LineRef) : Scan.push ⟨index, [], start⟩ record line position =
      if record.batchLen = 1 then
        ⟨{ index.ingestAll [(record, line)] with committed := position }, [], position⟩
      else ⟨index, [(record, line)], position⟩ :=
  rfl

theorem Scan.record_agrees {scan : Scan} {tail : Tail} (h : scan.Open tail) (record : IndexLine)
    (line : LineRef) (position : ℕ) :
    Agrees scan (scan.record record line position) tail (tail.record record) := by
  unfold Scan.record Tail.record
  rw [continues_eq h]
  by_cases hnext : follows tail.batch record
  · rw [if_pos hnext, if_pos hnext]
    exact Scan.push_agrees h record line position
  · rw [if_neg hnext, if_neg hnext]
    dsimp only
    by_cases hstray : record.batchIndex ≠ 0 ∨ record.batchLen = 0
    · rw [if_pos hstray, if_pos (hstray.imp_right fun h => by omega)]
      exact .inl ⟨⟨rfl, rfl⟩, rfl⟩
    · rw [if_neg hstray]
      have hindex : (if scan.unfinished.isEmpty then scan.index else scan.index.skip) =
          scan.index.more (if tail.batch.isEmpty then 0 else 1) := by
        rw [isEmpty_eq h]
        split <;> rfl
      rw [hindex, Scan.push_first]
      by_cases hone : record.batchLen = 1
      · rw [if_pos hone, if_pos (Or.inr hone.le)]
        exact .inl ⟨⟨rfl, rfl⟩, rfl⟩
      · have hmore : ¬ (record.batchIndex ≠ 0 ∨ record.batchLen ≤ 1) := fun h =>
          hstray (h.imp_right fun h => by omega)
        rw [if_neg hone, if_neg hmore]
        exact .inr ⟨_, rfl, rfl, rfl⟩

/-- **One line**, read against what it is to a tail. -/
theorem Scan.step_agrees {scan : Scan} {tail : Tail} {text : List UInt8} (h : scan.Open tail)
    (hreadable : format.readable text) :
    Agrees scan (scan.step format text) tail (tail.next (format.mark text)) := by
  unfold Format.readable at hreadable
  unfold Scan.step Scan.line Tail.next
  cases hmark : format.mark text with
  | foreign version =>
    rw [hmark] at hreadable
    cases hreadable
  | blank => exact Scan.pass_agrees h _ 0
  | garbage => exact Scan.pass_agrees h _ 1
  | record record => exact Scan.record_agrees h record _ _

theorem Scan.step_position (scan : Scan) {text : List UInt8} (hreadable : format.readable text) :
    (scan.step format text).position = scan.position + (text.length + 1) := by
  unfold Format.readable at hreadable
  unfold Scan.step Scan.line
  cases hmark : format.mark text with
  | foreign version =>
    rw [hmark] at hreadable
    cases hreadable
  | blank => rfl
  | garbage => rfl
  | record record =>
    dsimp only [Scan.record]
    repeat' split
    all_goals first | rfl | (unfold Scan.push; split <;> rfl)

/-! ### Where a refresh goes back to -/

/-- The beginning of a file. -/
def Scan.start : Scan :=
  { index := {}, unfinished := [], position := 0 }

/-- Some lines were read since no batch was open, and the index is what it was then, but for
what it skipped. -/
structure Reread (format : Format) (read : List (List UInt8)) (scan : Scan) (tail : Tail) : Prop
    where
  opened : scan.Open tail
  back : ∃ done since, read = done ++ since ∧
    (done.foldl (Scan.step format) Scan.start).Settled ∧
    (done.foldl (Scan.step format) Scan.start).position = (joined newline done).length ∧
    scan = since.foldl (Scan.step format) (done.foldl (Scan.step format) Scan.start) ∧
    scan.index =
      (done.foldl (Scan.step format) Scan.start).index.more tail.dropped

theorem position_foldl {texts : List (List UInt8)} (h : ∀ text ∈ texts, format.readable text)
    (scan : Scan) : (texts.foldl (Scan.step format) scan).position =
      scan.position + (joined newline texts).length := by
  induction texts generalizing scan with
  | nil => rfl
  | cons text rest ih =>
    rw [forall_mem_cons] at h
    rw [foldl_cons, ih h.2, scan.step_position h.1, joined_cons, length_append,
      length_cons]
    omega

theorem Reread.step {read : List (List UInt8)} {scan : Scan} {tail : Tail}
    {text : List UInt8} (h : Reread format read scan tail)
    (hread : ∀ text ∈ read, format.readable text) (hreadable : format.readable text)  :
    Reread format (read ++ [text]) (scan.step format text) (tail.next (format.mark text)) := by
  obtain ⟨done, since, rfl, hsettled, hposition, hscan, hindex⟩ := h.back
  rcases Scan.step_agrees h.opened hreadable with ⟨hnext, hnone⟩ | ⟨n, hn, hopen, hmore⟩
  · -- nothing is open any more: this is where to go back to
    have hall : (done ++ since ++ [text]).foldl (Scan.step format) Scan.start =
        scan.step format text := by
      rw [foldl_append, foldl_append, ← hscan]
      rfl
    rw [hnone]
    refine ⟨by rw [Scan.Open, hnext.1]; rfl, done ++ since ++ [text], [], by simp, ?_, ?_, ?_, ?_⟩
    · rwa [hall]
    · rw [position_foldl fun t ht => ?_]
      · exact Nat.zero_add _
      · rcases mem_append.mp ht with ht | ht
        · exact hread t ht
        · rwa [mem_singleton.mp ht]
    · rw [hall]
      rfl
    · rw [hall]
      rfl
  · refine ⟨hopen, done, since ++ [text], by simp, hsettled, hposition, ?_, ?_⟩
    · rw [foldl_append, ← hscan]
      rfl
    · rw [hmore, hindex, ObserveIndex.more_more, hn]

theorem reread_foldl {texts : List (List UInt8)} (h : ∀ text ∈ texts, format.readable text) :
    Reread format texts (texts.foldl (Scan.step format) Scan.start)
      (texts.foldl (fun tail text => tail.next (format.mark text)) {}) := by
  induction texts using List.reverseRecOn with
  | nil => exact ⟨rfl, [], [], rfl, ⟨rfl, rfl⟩, rfl, rfl, rfl⟩
  | append_singleton texts text ih =>
    have htexts : ∀ t ∈ texts, format.readable t := fun t ht =>
      h t (mem_append_left _ ht)
    rw [foldl_append, foldl_append]
    exact (ih htexts).step htexts (h text (by simp))

/-! ### Refreshing -/

/-- A refresh reads on from where the index was committed. -/
theorem refresh_eq {index : ObserveIndex} {file : List UInt8}
    (h : index.committed ≤ file.length) : index.refresh format file =
      ({ index, unfinished := [], position := index.committed } : Scan).lines format
        (Logic.lines newline (file.drop index.committed)) := by
  unfold ObserveIndex.refresh
  rw [if_neg (not_lt.mpr h)]
  dsimp only
  split
  · rename_i hall
    rw [drop_eq_nil_of_le hall.le]
    rfl
  · rfl

theorem openLog_eq (file : List UInt8) :
    openLog format file = Scan.start.lines format (Logic.lines newline file) :=
  refresh_eq (Nat.zero_le _)

/-- The lines of a file before one the reader stops at. -/
def Format.before (format : Format) (file : List UInt8) : List (List UInt8) :=
  (Logic.lines newline file).takeWhile format.readable

theorem before_readable (file : List UInt8) :
    ∀ text ∈ format.before file, format.readable text :=
  fun _ h => mem_takeWhile_imp h

/-- The lines of a file are those before the one the reader stops at, and the rest. -/
theorem lines_before (file : List UInt8) : ∃ rest,
    Logic.lines newline file = format.before file ++ rest ∧
      ∀ text ∈ rest.head?, format.readable text = false := by
  refine ⟨(Logic.lines newline file).dropWhile format.readable,
    (takeWhile_append_dropWhile ..).symm, fun text htext => ?_⟩
  have hhead := head?_dropWhile_not format.readable (Logic.lines newline file)
  rwa [mem_def.mp htext] at hhead

/-- A reader that stops leaves everything as it was. -/
theorem Scan.lines_stop (scan : Scan) {rest : List (List UInt8)}
    (h : ∀ text ∈ rest.head?, format.readable text = false) :
    (scan.lines format rest).1 = scan.index ∧
      ((scan.lines format rest).2 = .ok () ↔ rest = []) := by
  cases rest with
  | nil => exact ⟨rfl, iff_of_true rfl rfl⟩
  | cons text rest =>
    have hstop := h text rfl
    unfold Format.readable at hstop
    unfold Scan.lines Scan.line
    cases hmark : format.mark text with
    | foreign version => exact ⟨rfl, iff_of_false nofun nofun⟩
    | blank => rw [hmark] at hstop; cases hstop
    | garbage => rw [hmark] at hstop; cases hstop
    | record record => rw [hmark] at hstop; cases hstop

/-- Reading a file leaves the index where its readable lines do. -/
theorem openLog_index (file : List UInt8) :
    (openLog format file).1 =
      ((format.before file).foldl (Scan.step format) Scan.start).index := by
  obtain ⟨rest, hlines, hstop⟩ := @lines_before format file
  rw [openLog_eq, hlines, Scan.lines_readable _ (before_readable file)]
  exact (Scan.lines_stop _ hstop).1

/-- **A refresh after the file has grown** reads what opening the file reads, and counts what is
in the tail once more. -/
theorem refresh_grown (file chunk : List UInt8) (n : ℕ) :
    ((openLog format file).1.more n).refresh format (file ++ chunk) =
      ((openLog format (file ++ chunk)).1.more (n + (format.tail file).dropped),
        (openLog format (file ++ chunk)).2) := by
  obtain ⟨done, since, hbefore, hsettled, hposition, hscan, hindex⟩ :=
    (reread_foldl (@before_readable format file)).back
  obtain ⟨rest, hlines, -⟩ := @lines_before format file
  obtain ⟨added, hadded⟩ := lines_append newline file chunk
  set base := done.foldl (Scan.step format) Scan.start with hbase
  set scan := (format.before file).foldl (Scan.step format) Scan.start with hall
  have hgrown : Logic.lines newline (file ++ chunk) = done ++ (since ++ (rest ++ added)) := by
    rw [hadded, hlines, hbefore]
    simp
  obtain ⟨hle, hdrop⟩ := lines_drop_joined newline hgrown
  have hstart : (openLog format file).1.more n =
      base.index.more ((format.tail file).dropped + n) := by
    rw [openLog_index, ← hall, hindex, ObserveIndex.more_more]
    rfl
  have hcommitted : (base.index.more ((format.tail file).dropped + n)).committed =
      (joined newline done).length := hsettled.2.trans hposition
  have hsince : ∀ text ∈ since, format.readable text := fun text htext =>
    before_readable file text (hbefore ▸ mem_append_right done htext)
  have hreread : ({ index := base.index.more ((format.tail file).dropped + n)
                    unfinished := []
                    position := (joined newline done).length } : Scan) =
      base.more ((format.tail file).dropped + n) := by
    rw [Scan.more, hsettled.1, hposition]
  rw [hstart, refresh_eq (hcommitted ▸ hle), hcommitted, hdrop, hreread,
    Scan.lines_readable _ hsince, Scan.foldl_step_more, ← hscan, Scan.lines_more]
  have hopen : openLog format (file ++ chunk) = scan.lines format (rest ++ added) := by
    rw [openLog_eq, hadded, hlines, append_assoc,
      Scan.lines_readable _ (before_readable file)]
  rw [hopen, Nat.add_comm n]

/-! ### Following a file -/

/-- A reader that refreshes each time something was appended: the file, the index, and what the
last refresh came to. -/
def follow (format : Format) (chunks : List (List UInt8)) :
    List UInt8 × ObserveIndex × Except ReadError Unit :=
  chunks.foldl (fun seen chunk =>
    (seen.1 ++ chunk, seen.2.1.refresh format (seen.1 ++ chunk))) ([], {}, .ok ())

/-- What is dropped again, over all refreshes but the first. -/
def recounted (format : Format) (chunks : List (List UInt8)) : ℕ :=
  ((List.range chunks.length).map fun i =>
    (format.tail (chunks.take i).flatten).dropped).sum

theorem recounted_append (chunks : List (List UInt8)) (chunk : List UInt8) :
    recounted format (chunks ++ [chunk]) =
      recounted format chunks + (format.tail chunks.flatten).dropped := by
  have hbefore : ∀ i ∈ List.range chunks.length,
      (format.tail ((chunks ++ [chunk]).take i).flatten).dropped =
        (format.tail (chunks.take i).flatten).dropped := fun i hi => by
    rw [take_append_of_le_length (mem_range.mp hi).le]
  rw [recounted, length_append, length_singleton, range_succ, map_append,
    sum_append, map_congr_left hbefore]
  simp [recounted]

/-- **Following a file** comes to what opening it does, but for what was counted again. -/
theorem follow_eq (chunks : List (List UInt8)) : follow format chunks =
    (chunks.flatten, (openLog format chunks.flatten).1.more (recounted format chunks),
      (openLog format chunks.flatten).2) := by
  induction chunks using List.reverseRecOn with
  | nil => rfl
  | append_singleton chunks chunk ih =>
    have hlast : follow format (chunks ++ [chunk]) =
        ((follow format chunks).1 ++ chunk, (follow format chunks).2.1.refresh format
          ((follow format chunks).1 ++ chunk)) := by
      simp [follow]
    rw [hlast, ih, refresh_grown, recounted_append, flatten_append]
    simp

/-- Opening a file fails when it has a record of another schema version. -/
theorem openLog_ok_iff (file : List UInt8) :
    (openLog format file).2 = .ok () ↔ ¬ format.Refuses file := by
  obtain ⟨rest, hlines, hstop⟩ := @lines_before format file
  rw [openLog_eq, hlines, Scan.lines_readable _ (before_readable file),
    (Scan.lines_stop _ hstop).2, Format.Refuses, hlines]
  constructor
  · rintro rfl ⟨text, htext, hrefused⟩
    rw [append_nil] at htext
    exact absurd (before_readable file text htext) (by simp [hrefused])
  · intro h
    by_contra hne
    obtain ⟨text, hhead⟩ := ne_none_iff_exists'.mp (mt head?_eq_none_iff.mp hne)
    exact h ⟨text, mem_append_right _ (mem_of_mem_head? hhead), hstop text hhead⟩

/-- Following a file ends like opening it: with the same error, or with the same index. -/
def EndsLike (seen once : ObserveIndex × Except ReadError Unit) : Prop :=
  seen.2 = once.2 ∧ (once.2 = .ok () → seen.1 = once.1)

/-- **Reading a log as it grows.** Whatever the bytes and however they were appended, the
refreshes end with the error, the runs, the updates and the prompts that opening the file once
gives. The count of what was skipped is the same just when no earlier refresh left something
dropped behind the batch it was waiting for. -/
theorem follow_endsLike (format : Format) (chunks : List (List UInt8)) :
    let seen := (follow format chunks).2
    let once := openLog format chunks.flatten
    (seen.2 = once.2 ∧ seen.1.runs = once.1.runs ∧ seen.1.active = once.1.active ∧
      seen.1.updates = once.1.updates ∧ seen.1.listing = once.1.listing ∧
      seen.1.prompts = once.1.prompts ∧
      seen.1.skipped = once.1.skipped + recounted format chunks) ∧
    (EndsLike seen once ↔ format.Refuses chunks.flatten ∨
      ∀ i < chunks.length, (format.tail (chunks.take i).flatten).dropped = 0) := by
  dsimp only
  rw [follow_eq]
  refine ⟨⟨rfl, rfl, rfl, rfl, rfl, rfl, rfl⟩, ?_⟩
  have hzero : recounted format chunks = 0 ↔
      ∀ i < chunks.length, (format.tail (chunks.take i).flatten).dropped = 0 := by
    rw [recounted, List.sum_eq_zero_iff_forall_eq_nat]
    simp
  have hsame : (openLog format chunks.flatten).1.more (recounted format chunks) =
      (openLog format chunks.flatten).1 ↔ recounted format chunks = 0 := by
    constructor
    · intro h
      have := congrArg ObserveIndex.skipped h
      simpa [ObserveIndex.more] using this
    · intro h
      rw [h, ObserveIndex.more_zero]
  rw [← hzero, ← hsame, EndsLike, and_iff_right rfl, openLog_ok_iff]
  tauto

/-! ### A line counted twice -/

/-- A record of a batch of two. -/
def halfRecord (batchIndex : ℕ) : IndexLine where
  v := 1
  kind := "note"
  segment := 0
  batchId := 0
  batchIndex
  batchLen := 2

/-- The two records of a batch, written as JSON. -/
def firstHalf : List UInt8 :=
  "\x7b\"v\":1,\"type\":\"note\",\"segment\":0,\"batch_id\":0,\"batch_index\":0,\"batch_len\":2\x7d"
    |>.toUTF8.toList

def secondHalf : List UInt8 :=
  "\x7b\"v\":1,\"type\":\"note\",\"segment\":0,\"batch_id\":0,\"batch_index\":1,\"batch_len\":2\x7d"
    |>.toUTF8.toList

/-- What these two lines read as; no other line is a record, or has a version. -/
def halves : Format where
  record text :=
    if text = firstHalf then some (halfRecord 0)
    else if text = secondHalf then some (halfRecord 1)
    else none
  version _ := none

/-- A line that is no record, between the two records of a batch that is finished later, is
skipped twice by the reader that was there in between. -/
theorem garbage_counted_twice :
    let chunks := [firstHalf ++ [newline, 0x3f, newline], secondHalf ++ [newline]]
    (follow halves chunks).2.1.skipped = 2 ∧ (openLog halves chunks.flatten).1.skipped = 1 ∧
      ¬ EndsLike (follow halves chunks).2 (openLog halves chunks.flatten) := by
  intro chunks
  have htwice : (follow halves chunks).2.1.skipped = 2 := by decide +kernel
  have honce : (openLog halves chunks.flatten).1.skipped = 1 := by decide +kernel
  have hok : (openLog halves chunks.flatten).2.toBool = true := by decide +kernel
  refine ⟨htwice, honce, fun h => ?_⟩
  have hopened : (openLog halves chunks.flatten).2 = .ok () := by
    cases hresult : (openLog halves chunks.flatten).2 with
    | ok _ => rfl
    | error error =>
      rw [hresult] at hok
      cases hok
  rw [h.2 hopened, honce] at htwice
  cases htwice

end Retrograd.Observe
