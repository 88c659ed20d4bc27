import EntangledMPI.Library.TextInput
import EntangledMPI.Mpi.MapReading

/-!
# The characters of `replication.map`

`parse_map_file` on a text and on the numbers of the text is one reader with two scanners. Scanners
that keep step, which convert the same numbers call after call as long as the rows last, read the
same map.

## Main results

* `Process.parseMapText_eq`: where the text has all the numbers the reader asks for, reading the
  text is reading these numbers.
* `MapText.scans`: a text in the layout that the file describes at its end has them.
-/

namespace EntangledMPI

open CountingLoop TextInput

/-! ## Two scanners in step -/

/-- The relation `R n m` is about files with `n` rows still there behind `m` workers of a row. From
related files both scanners convert the same numbers, and leave related files behind. -/
structure Scanner.InStep {ι κ : Type} (scan : Scanner ι) (scan' : Scanner κ)
    (R : ℕ → ℕ → ι → κ → Prop) : Prop where
  row : ∀ {n s t}, R (n + 1) 0 s t → ∃ numbers s' t',
    scan [.decimal, .space, .decimal, .space, .decimal, .space] s = (numbers, s') ∧
      scan' [.decimal, .space, .decimal, .space, .decimal, .space] t = (numbers, t') ∧
      ∀ wC ∈ numbers[2]?, R n wC.toNat s' t'
  worker : ∀ {n m s t}, R n (m + 1) s t → ∃ numbers s' t',
    scan [.space, .decimal] s = (numbers, s') ∧ scan' [.space, .decimal] t = (numbers, t') ∧
      R n m s' t'

/-- Two readers that differ in their files only, and these are related. -/
structure ParseState.Same {ι κ : Type} (P : ι → κ → Prop) (s : ParseState ι) (t : ParseState κ) :
    Prop where
  fields : P s.fields t.fields
  node : s.node = t.node
  jobList : s.jobList = t.jobList
  rank2Job : s.rank2Job = t.rank2Job

structure RowState.Same {ι κ : Type} (P : ι → κ → Prop) (s : RowState ι) (t : RowState κ) : Prop
    extends s.toParseState.Same P t.toParseState where
  wRank : s.wRank = t.wRank

section

variable {ι κ : Type} {scan : Scanner ι} {scan' : Scanner κ} {R : ℕ → ℕ → ι → κ → Prop}
  (hscan : scan.InStep scan' R) {jobs : ℤ}
include hscan

theorem RowState.Same.turn {updateBit jId wC : ℤ} {n m : ℕ} {s : RowState ι} {t : RowState κ}
    (h : s.Same (R n (m + 1)) t) (j : ℕ) :
    SameOutcome (RowState.Same (R n m)) (s.turn scan jobs updateBit jId wC j)
      (t.turn scan' jobs updateBit jId wC j) := by
  obtain ⟨⟨hfields, hnode, hjobList, hrank2Job⟩, hwRank⟩ := h
  obtain ⟨numbers, s', t', hs, ht, hnext⟩ := hscan.worker hfields
  rw [RowState.turn, RowState.turn, hs, ht, hnode, hjobList, hrank2Job, hwRank]
  refine .bind_same fun w ↦ .bind_same fun job ↦ .bind_same fun rank ↦ ?_
  refine .bind_same fun rank2Job ↦ .bind_same fun entry ↦ .bind_same fun rankList ↦ ?_
  exact .bind_same fun jobList ↦ .ok ⟨⟨hnext, rfl, rfl, rfl⟩, rfl⟩

theorem RowState.Same.loop {updateBit jId wC : ℤ} {n m : ℕ} {s : RowState ι} {t : RowState κ}
    (h : s.Same (R n m) t) :
    SameOutcome (RowState.Same (R n 0)) (loop (RowState.turn scan jobs updateBit jId wC) m s)
      (loop (RowState.turn scan' jobs updateBit jId wC) m t) := by
  have hloop : SameOutcome (RowState.Same (R n (m - m)))
      (CountingLoop.loop (RowState.turn scan jobs updateBit jId wC) m s)
      (CountingLoop.loop (RowState.turn scan' jobs updateBit jId wC) m t) := by
    refine SameOutcome.loop (fun j ↦ RowState.Same (R n (m - j))) ?_ h
    intro j hj s t hst
    rw [show m - j = m - (j + 1) + 1 by omega] at hst
    exact hst.turn hscan j
  rwa [Nat.sub_self] at hloop

theorem ParseState.Same.turn {n : ℕ} {s : ParseState ι} {t : ParseState κ}
    (h : s.Same (R (n + 1) 0) t) (i : ℕ) :
    SameOutcome (ParseState.Same (R n 0)) (s.turn scan jobs i) (t.turn scan' jobs i) := by
  obtain ⟨hfields, hnode, hjobList, hrank2Job⟩ := h
  obtain ⟨numbers, s', t', hs, ht, hworkers⟩ := hscan.row hfields
  -- the number of workers is the third number of the call, if there is one
  have hthird : (scanInt (scanInt (scanInt numbers none).2 none).2 none).1 = numbers[2]? := by
    rcases numbers with _ | ⟨a, _ | ⟨b, _ | ⟨c, numbers⟩⟩⟩ <;> rfl
  rw [ParseState.turn, ParseState.turn, hs, ht, hnode, hjobList, hrank2Job]
  dsimp only
  rw [hthird]
  refine .bind_same fun jId ↦ ?_
  split
  · exact .error _
  cases hwC : numbers[2]? with
  | none => exact .error _
  | some wC =>
    simp only [valueOf, except_ok_bind]
    split
    · exact .error _
    refine .bind_same fun job ↦ .bind_same fun jobList ↦ .bind_same fun updateBit ↦ ?_
    have hstart : RowState.Same (R n wC.toNat) ⟨⟨s', t.node, jobList, t.rank2Job⟩, none⟩
        ⟨⟨t', t.node, jobList, t.rank2Job⟩, none⟩ :=
      ⟨⟨hworkers wC hwC, rfl, rfl, rfl⟩, rfl⟩
    refine (hstart.loop hscan).bind ?_
    rintro row row' ⟨hrow, -⟩
    exact .ok hrow

theorem ParseState.Same.loop {n : ℕ} {s : ParseState ι} {t : ParseState κ}
    (h : s.Same (R n 0) t) {k : ℕ} (hk : k ≤ n) :
    SameOutcome (ParseState.Same (R (n - k) 0)) (loop (ParseState.turn scan jobs) k s)
      (loop (ParseState.turn scan' jobs) k t) := by
  refine SameOutcome.loop (fun i ↦ ParseState.Same (R (n - i) 0)) ?_ h
  intro i hi s t hst
  rw [show n - i = n - (i + 1) + 1 by omega] at hst
  exact hst.turn hscan i

/-- **Scanners in step read the same map.** -/
theorem Scanner.InStep.parseMap_eq (s : Process) {file : ι} {file' : κ} {numbers : List ℤ}
    {rest : ι} {rest' : κ} (hfile : scan [.decimal, .space, .decimal] file = (numbers, rest))
    (hfile' : scan' [.decimal, .space, .decimal] file' = (numbers, rest'))
    (hrows : ∀ jobs ∈ numbers[1]?, R jobs.toNat 0 rest rest') :
    s.parseMap scan file = s.parseMap scan' file' := by
  have hsecond : (scanInt (scanInt numbers none).2 none).1 = numbers[1]? := by
    rcases numbers with _ | ⟨a, _ | ⟨b, numbers⟩⟩ <;> rfl
  rw [Process.parseMap, Process.parseMap, hfile, hfile']
  dsimp only
  rw [hsecond]
  split
  · rfl
  split
  · rfl
  refine SameOutcome.eq (.bind_same fun rank2Job ↦ ?_)
  cases hjobs : numbers[1]? with
  | none => exact .error _
  | some jobs =>
    have hstart : ParseState.Same (R jobs.toNat 0)
        ⟨rest, s.node.reset, List.replicate jobs.toNat Job.unset, rank2Job⟩
        ⟨rest', s.node.reset, List.replicate jobs.toNat Job.unset, rank2Job⟩ :=
      ⟨hrows jobs hjobs, rfl, rfl, rfl⟩
    refine (hstart.loop hscan le_rfl).bind ?_
    rintro t t' ⟨-, hnode, hjobList, hrank2Job⟩
    rw [hnode, hjobList, hrank2Job]
    exact .ok rfl

end

/-! ## Reading a text is reading its numbers -/

/-- The numbers hold this many rows, each with as many workers as it says. -/
inductive HoldsRows : ℕ → List ℤ → Prop
  | zero (rest : List ℤ) : HoldsRows 0 rest
  | succ {n : ℕ} {updateBit jId wC : ℤ} {workers rest : List ℤ} (hlen : workers.length = wC.toNat)
      (hrest : HoldsRows n rest) :
      HoldsRows (n + 1) (updateBit :: jId :: wC :: (workers ++ rest))

/-- The text has the numbers `fields` in front: `m` workers of a row, and `n` rows. -/
def HasRows (n m : ℕ) (text : Text) (fields : List ℤ) : Prop :=
  Scans text fields ∧ ∃ workers rest, fields = workers ++ rest ∧ workers.length = m ∧
    HoldsRows n rest

theorem HasRows.inStep : Scanner.InStep fscanf scanNumbers HasRows where
  row := by
    rintro n text fields ⟨hscan, workers, rest, rfl, hlen, hrows⟩
    obtain rfl := List.length_eq_zero_iff.mp hlen
    cases hrows with
    | @succ _ updateBit jId wC workers rest hlen hrest =>
      obtain ⟨text', htext, hscan'⟩ := Scans.fscanf
        [.decimal, .space, .decimal, .space, .decimal, .space] [updateBit, jId, wC] rfl hscan
      refine ⟨[updateBit, jId, wC], text', workers ++ rest, htext, rfl, ?_⟩
      intro w hw
      obtain rfl := Option.some_inj.mp hw
      exact ⟨hscan', workers, rest, rfl, hlen, hrest⟩
  worker := by
    rintro n m text fields ⟨hscan, workers, rest, rfl, hlen, hrows⟩
    obtain ⟨x, workers, rfl⟩ := List.exists_cons_of_length_eq_add_one hlen
    obtain ⟨text', htext, hscan'⟩ := Scans.fscanf [.space, .decimal] [x] rfl hscan
    exact ⟨[x], text', workers ++ rest, htext, rfl, hscan', workers, rest, rfl,
      Nat.succ_injective hlen, hrows⟩

/-- **Reading a text is reading its numbers**, if it has as many as the reader asks for. -/
theorem Process.parseMapText_eq (s : Process) {text : Text} {cores jobs : ℤ} {rows : List ℤ}
    (hrows : HoldsRows jobs.toNat rows) (hscan : Scans text (cores :: jobs :: rows)) :
    s.parseMapText text = s.parseMapFile (cores :: jobs :: rows) := by
  obtain ⟨text', htext, hscan'⟩ :=
    Scans.fscanf [.decimal, .space, .decimal] [cores, jobs] rfl hscan
  refine HasRows.inStep.parseMap_eq s htext (scanNumbers_header cores jobs rows) ?_
  intro n hn
  obtain rfl := Option.some_inj.mp hn
  exact ⟨hscan', [], rows, rfl, rfl, hrows⟩

/-! ## Texts in the layout the file describes -/

/-- A row: the update bit, the job id, the number of workers, and the workers. -/
structure MapRow where
  updateBit : Numeral
  jobId : Numeral
  workerCount : Numeral
  workers : List Numeral
  value_workerCount : workerCount.value = workers.length

/-- A text with one row in a line, tabs between the numerals, and anything behind the rows. -/
structure MapText where
  cores : Numeral
  jobs : Numeral
  rows : List MapRow
  trailer : Text
  value_jobs : jobs.value = rows.length
  head_trailer : ∀ c ∈ trailer.head?, c = '\n'

namespace MapRow

variable (row : MapRow)

def text : Text := separated '\t' row.updateBit (row.jobId :: row.workerCount :: row.workers)

def numbers : List ℤ :=
  row.updateBit.value :: row.jobId.value :: row.workerCount.value ::
    row.workers.map Numeral.value

/-- The job of the row. -/
def id : ℕ := row.jobId.value.toNat

/-- The other numbers of the row. -/
def line : MapLine := ⟨row.updateBit.value, row.workers.map fun w ↦ w.value.toNat⟩

theorem scans {rest : Text} {xs : List ℤ} (h : Scans rest xs) (hrest : NoDigit rest) :
    Scans (row.text ++ rest) (row.numbers ++ xs) :=
  h.separated (by decide) hrest row.updateBit (row.jobId :: row.workerCount :: row.workers)

theorem numbers_eq (hid : 0 ≤ row.jobId.value) (hworkers : ∀ w ∈ row.workers, 0 ≤ w.value) :
    row.numbers = row.line.fields row.id := by
  have hvalues : (row.line.workers.map Nat.cast : List ℤ) = row.workers.map Numeral.value := by
    rw [line, List.map_map]
    exact List.map_congr_left fun w hw ↦ Int.toNat_of_nonneg (hworkers w hw)
  rw [numbers, MapLine.fields, hvalues, id, Int.toNat_of_nonneg hid, row.value_workerCount, line,
    List.length_map]

end MapRow

namespace MapText

variable (t : MapText)

/-- The first line. -/
def header : Text := separated '\t' t.cores [t.jobs]

def text : Text := t.header ++ t.rows.flatMap (fun row ↦ '\n' :: row.text) ++ t.trailer

def numbers : List ℤ := t.cores.value :: t.jobs.value :: t.rows.flatMap MapRow.numbers

theorem head_rows (rows : List MapRow) {trailer : Text} (h : ∀ c ∈ trailer.head?, c = '\n') :
    ∀ c ∈ (rows.flatMap (fun row ↦ '\n' :: row.text) ++ trailer).head?, c = '\n' := by
  cases rows with
  | nil => exact h
  | cons row rows => exact fun c hc ↦ (Option.some_inj.mp hc).symm

theorem noDigit_of_head {t : Text} (h : ∀ c ∈ t.head?, c = '\n') : NoDigit t := by
  intro c hc
  rw [h c hc]
  rfl

theorem scans_rows {trailer : Text} (h : ∀ c ∈ trailer.head?, c = '\n') (rows : List MapRow) :
    Scans (rows.flatMap (fun row ↦ '\n' :: row.text) ++ trailer) (rows.flatMap MapRow.numbers) := by
  induction rows with
  | nil => trivial
  | cons row rows ih =>
    rw [List.flatMap_cons, List.flatMap_cons, List.append_assoc, List.cons_append]
    exact (row.scans ih (noDigit_of_head (head_rows rows h))).cons_space (by decide)

/-- **The text holds its numbers.** -/
theorem scans : Scans t.text t.numbers := by
  have hhead := head_rows t.rows t.head_trailer
  have hheader := (scans_rows t.head_trailer t.rows).separated (c := '\t') (by decide)
    (noDigit_of_head hhead) t.cores [t.jobs]
  rwa [← List.append_assoc] at hheader

/-- With nothing but white space behind the rows it is made of them, if they are `int`s. -/
theorem integers (hfits : ∀ x ∈ t.numbers, FitsInt x) (h : ∀ c ∈ t.trailer, isSpace c = true) :
    Integers t.text t.numbers := by
  obtain ⟨hcores, hjobs, hrest⟩ : FitsInt t.cores.value ∧ FitsInt t.jobs.value ∧
      ∀ x ∈ t.rows.flatMap MapRow.numbers, FitsInt x := by
    rw [numbers, List.forall_mem_cons, List.forall_mem_cons] at hfits
    exact hfits
  have hspace : ∀ {text : Text}, (∀ c ∈ text.head?, c = '\n') →
      ∀ c ∈ text.head?, isSpace c = true := by
    intro text hhead c hc
    rw [hhead c hc]
    rfl
  have hrows : Integers (t.rows.flatMap (fun row ↦ '\n' :: row.text) ++ t.trailer)
      (t.rows.flatMap MapRow.numbers) := by
    revert hrest
    induction t.rows with
    | nil => exact fun _ ↦ .space h
    | cons row rows ih =>
      intro hrest
      rw [List.flatMap_cons, List.forall_mem_append] at hrest
      rw [List.flatMap_cons, List.flatMap_cons, List.append_assoc, List.cons_append]
      exact ((ih hrest.2).separated (by decide) (hspace (head_rows rows t.head_trailer))
        row.updateBit (row.jobId :: row.workerCount :: row.workers) hrest.1).cons_space (by decide)
  have hheader := hrows.separated (c := '\t') (by decide)
    (hspace (head_rows t.rows t.head_trailer)) t.cores [t.jobs]
    (List.forall_mem_cons.mpr ⟨hcores, List.forall_mem_singleton.mpr hjobs⟩)
  rwa [← List.append_assoc] at hheader

theorem holdsRows (rows : List MapRow) :
    HoldsRows rows.length (rows.flatMap MapRow.numbers) := by
  induction rows with
  | nil => exact .zero _
  | cons row rows ih =>
    refine .succ ?_ ih
    rw [List.length_map, row.value_workerCount, Int.toNat_natCast]

theorem parseMapText_eq (s : Process) : s.parseMapText t.text = s.parseMapFile t.numbers := by
  refine s.parseMapText_eq ?_ t.scans
  rw [t.value_jobs, Int.toNat_natCast]
  exact holdsRows t.rows

end MapText

/-! ## Rows in any order -/

section Entries

variable {entries : List (ℕ × MapLine)} {cores : ℕ}

/-- What the loop over the rows has done before turn `k`, where the rows may come in any order of
their jobs. -/
structure ParseState.Filled (entries : List (ℕ × MapLine)) (cores k : ℕ)
    (s : ParseState (List ℤ)) : Prop where
  fields : s.fields = (entries.drop k).flatMap fun e ↦ e.2.fields e.1
  length : s.jobList.length = entries.length
  jobList : ∀ e ∈ entries.take k, s.jobList[e.1]? = some (e.2.job e.1)
  rank2Job : ∃ table, s.rank2Job = some table ∧ cores ≤ table.size

theorem ParseState.turn_entry {jobs : ℤ} {e : ℕ × MapLine} {rest : List ℤ}
    {s : ParseState (List ℤ)} {table : Table} (hfields : s.fields = e.2.fields e.1 ++ rest)
    (hid : (e.1 : ℤ) < jobs)
    (hne : e.2.workers ≠ []) (hid' : e.1 < s.jobList.length) (htable : s.rank2Job = some table)
    (hlt : ∀ r ∈ e.2.workers, r < table.size) (k : ℕ) :
    s.turn scanNumbers jobs k = .ok ⟨rest,
      Node.noteRow jobs e.2.updateBit e.1 e.2.workers.length s.node 0 e.2.workers,
      s.jobList.set e.1 (e.2.job e.1), some (table.fill e.2.workers e.1)⟩ := by
  obtain ⟨wRank, hrow⟩ := RowState.loop_turn jobs rest s.node hid' hlt
  have hpos : (0 : ℤ) < e.2.workers.length := by
    exact_mod_cast List.length_pos_iff.mpr hne
  rw [ParseState.turn, hfields, MapLine.fields]
  simp only [List.cons_append, scanNumbers_row, scanInt, valueOf, except_ok_bind, hid, hpos,
    not_true_eq_false, if_false, indexOf_natCast, writeAt_of_lt hid', Int.toNat_natCast, htable,
    hrow, except_pure]

theorem ParseState.Filled.turn (hids : (entries.map Prod.fst).Perm (List.range entries.length))
    (hne : ∀ e ∈ entries, e.2.workers ≠ []) (hlt : ∀ e ∈ entries, ∀ r ∈ e.2.workers, r < cores)
    {k : ℕ} (hk : k < entries.length) {s : ParseState (List ℤ)} (hs : s.Filled entries cores k) :
    ∃ s', s.turn scanNumbers entries.length k = .ok s' ∧ s'.Filled entries cores (k + 1) := by
  obtain ⟨hfields, hlength, hjobList, table, htable, hsize⟩ := hs
  have hmem := List.getElem_mem hk
  have hfields' : s.fields = entries[k].2.fields entries[k].1 ++
      (entries.drop (k + 1)).flatMap fun e ↦ e.2.fields e.1 := by
    rw [hfields, List.drop_eq_getElem_cons hk, List.flatMap_cons]
  have hid : entries[k].1 < entries.length :=
    List.mem_range.mp (hids.mem_iff.mp (List.mem_map_of_mem hmem))
  have hid' : entries[k].1 < s.jobList.length := hlength ▸ hid
  refine ⟨_, s.turn_entry hfields' (Int.ofNat_lt.mpr hid) (hne _ hmem) hid' htable
    (fun r hr ↦ (hlt _ hmem r hr).trans_le hsize) k, rfl, ?_, ?_, ?_⟩
  · rw [List.length_set, hlength]
  · intro e he
    rw [List.take_add_one, List.getElem?_eq_getElem hk, List.mem_append] at he
    rcases he with he | he
    · -- an earlier row is about another job
      obtain ⟨i, hi, rfl⟩ := List.mem_take_iff_getElem.mp he
      have hne : entries[k].1 ≠ entries[i].1 := by
        intro heq
        have hnodup : (entries.map Prod.fst).Nodup := hids.nodup_iff.mpr List.nodup_range
        have hk' : k < (entries.map Prod.fst).length := by rwa [List.length_map]
        have hi' : i < (entries.map Prod.fst).length := by omega
        have heq' : (entries.map Prod.fst)[k] = (entries.map Prod.fst)[i] := by simpa using heq
        have hidx := hnodup.getElem_inj_iff.mp heq'
        omega
      rw [List.getElem?_set_ne hne]
      exact hjobList _ he
    · obtain rfl := List.mem_singleton.mp he
      rw [List.getElem?_set_self hid']
  · exact ⟨_, rfl, hsize⟩

/-- **Rows in any order of their jobs** fill the whole of `job_list`. -/
theorem Process.parseMapFile_entries {s : Process}
    (hids : (entries.map Prod.fst).Perm (List.range entries.length))
    (hne : ∀ e ∈ entries, e.2.workers ≠ []) (hlt : ∀ e ∈ entries, ∀ r ∈ e.2.workers, r < cores)
    (hs : s.Ready cores) :
    ∃ s', s.parseMapFile ((cores : ℤ) :: (entries.length : ℤ) ::
        entries.flatMap fun e ↦ e.2.fields e.1) = .ok s' ∧
      s'.jobList.length = entries.length ∧
      ∀ e ∈ entries, s'.jobList[e.1]? = some (e.2.job e.1) := by
  obtain ⟨start, hstart, hsize⟩ : ∃ start : Table,
      allocRank2Job s.rank2Job (some cores) = .ok (some start) ∧ cores ≤ start.size := by
    rcases hs.rank2Job with hnone | ⟨table, htable, hsize⟩
    · exact ⟨⟨cores, fun _ ↦ 0⟩, by rw [hnone]; rfl, le_refl cores⟩
    · exact ⟨table, by rw [htable]; rfl, hsize⟩
  have hbegin : ParseState.Filled entries cores 0
      ⟨entries.flatMap fun e ↦ e.2.fields e.1, s.node.reset,
        List.replicate entries.length Job.unset, some start⟩ :=
    ⟨rfl, List.length_replicate, fun e he ↦ absurd he (by simp), start, rfl, hsize⟩
  obtain ⟨t, ht, -, hlength, hjobList, -⟩ :=
    loop_rule_ok (ParseState.Filled entries cores)
      (fun k hk t ht ↦ ht.turn hids hne hlt hk) hbegin
  refine ⟨{ s with node := t.node, jobList := t.jobList, rank2Job := t.rank2Job }, ?_, hlength, ?_⟩
  · have hckpt : s.ckptRestore ≠ .yes := by simp [hs.ckptRestore]
    rw [parseMapFile, parseMap, if_neg hckpt, scanNumbers_header]
    simp only [scanInt, not_lt.mpr hs.jobsCount, if_false, hstart, valueOf, except_ok_bind,
      Int.toNat_natCast, ht, except_pure]
  · rwa [List.take_length] at hjobList

end Entries

namespace MapText

/-- What `parse_map_file` asks for: every job has one row and a worker, and the ranks are different
and below the core count. -/
structure Accepted (t : MapText) : Prop where
  cores : 0 ≤ t.cores.value
  ids : (t.rows.map fun row ↦ row.jobId.value).Perm ((List.range t.rows.length).map Nat.cast)
  workers : ∀ row ∈ t.rows, row.workers ≠ []
  nodup : (t.rows.flatMap fun row ↦ row.workers.map Numeral.value).Nodup
  lt_cores : ∀ row ∈ t.rows, ∀ w ∈ row.workers, 0 ≤ w.value ∧ w.value < t.cores.value

theorem Accepted.nodup_ids {t : MapText} (h : t.Accepted) :
    (t.rows.map fun row ↦ row.jobId.value).Nodup :=
  h.ids.nodup_iff.mpr (List.nodup_range.map Nat.cast_injective)

/-- Exactly the numbers below the number of rows are job ids. -/
theorem Accepted.exists_row_iff {t : MapText} (h : t.Accepted) {id : ℤ} :
    (∃ row ∈ t.rows, row.jobId.value = id) ↔ 0 ≤ id ∧ id.toNat < t.rows.length := by
  rw [← List.mem_map, h.ids.mem_iff, List.mem_map]
  constructor
  · rintro ⟨i, hi, rfl⟩
    exact ⟨Int.natCast_nonneg i, by simpa using hi⟩
  · rintro ⟨hid, hlt⟩
    exact ⟨id.toNat, List.mem_range.mpr hlt, Int.toNat_of_nonneg hid⟩

theorem Accepted.id_lt {t : MapText} (h : t.Accepted) {row : MapRow} (hrow : row ∈ t.rows) :
    0 ≤ row.jobId.value ∧ row.id < t.rows.length :=
  h.exists_row_iff.mp ⟨row, hrow, rfl⟩

/-- **Such a text is read**, and each row goes to its job. -/
theorem Accepted.parse {t : MapText} (h : t.Accepted) {s : Process}
    (hs : s.Ready t.cores.value.toNat) :
    ∃ s', s.parseMapText t.text = .ok s' ∧ s'.jobList.length = t.rows.length ∧
      ∀ row ∈ t.rows, s'.jobList[row.id]? = some (row.line.job row.id) := by
  set entries := t.rows.map fun row ↦ (row.id, row.line) with hentries
  have hlength : entries.length = t.rows.length := List.length_map _
  have hids : (entries.map Prod.fst).Perm (List.range entries.length) := by
    have hperm := h.ids.map Int.toNat
    rw [List.map_map, List.map_map] at hperm
    rw [hentries, List.map_map, List.length_map]
    simpa [Function.comp_def, MapRow.id] using hperm
  -- the numerals of the text are the numbers of the rows
  have hnumbers : t.numbers = (t.cores.value.toNat : ℤ) :: (entries.length : ℤ) ::
      entries.flatMap fun e ↦ e.2.fields e.1 := by
    rw [MapText.numbers, t.value_jobs, hlength, Int.toNat_of_nonneg h.cores, hentries,
      List.flatMap_map]
    congr 2
    apply List.flatMap_congr
    intro row hrow
    exact row.numbers_eq (h.id_lt hrow).1 fun w hw ↦ (h.lt_cores row hrow w hw).1
  have hne : ∀ e ∈ entries, e.2.workers ≠ [] := by
    intro e he
    obtain ⟨row, hrow, rfl⟩ := List.mem_map.mp he
    simpa [MapRow.line] using h.workers row hrow
  have hlt : ∀ e ∈ entries, ∀ r ∈ e.2.workers, r < t.cores.value.toNat := by
    intro e he r hr
    obtain ⟨row, hrow, rfl⟩ := List.mem_map.mp he
    obtain ⟨w, hw, rfl⟩ := List.mem_map.mp hr
    have hbounds := h.lt_cores row hrow w hw
    omega
  obtain ⟨s', hs', hlen', hjobList⟩ := Process.parseMapFile_entries hids hne hlt hs
  refine ⟨s', ?_, hlen'.trans hlength, ?_⟩
  · rw [parseMapText_eq, hnumbers, hs']
  · intro row hrow
    exact hjobList (row.id, row.line) (List.mem_map_of_mem hrow)

end MapText

end EntangledMPI
