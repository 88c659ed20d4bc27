import EntangledMPI.Library.Assignments
import EntangledMPI.Manager.WrittenTexts

/-!
# The map of the fault injector

`initReplicationMap` reads `replication.map` too, but with the library functions of Go: line by
line, cut at every tab. It does not look at the number of workers and takes all pieces behind it for
ranks; and its jobs have room for two.

## Main result

`initReplicationMap_agrees`: on a text in the layout of the file whose numbers are `int`s, the map
is that of `parse_map_file` while no job has more than two workers, and otherwise the injector
panics.
-/

namespace EntangledMPI.FaultInjector

open CountingLoop TextInput

/-! ## `initReplicationMap` -/

/-- What a Go program can end with. -/
inductive Panic
  | indexOutOfRange
  | nilDereference
  deriving DecidableEq

/-- "Supports only two process in a job": `CR` is an array of two. -/
structure Job where
  cr : Fin 2 → ℤ
  deriving DecidableEq

/-- A Go map. -/
abbrev RepMap := ℤ → Option Job

/-- `l[i]`. -/
def index (l : List Text) (i : ℕ) : Except Panic Text :=
  if h : i < l.length then .ok l[i] else .error .indexOutOfRange

/-- `CR[i] = rank`. -/
def Job.setCR (job : Job) (i : ℕ) (rank : ℤ) : Except Panic Job :=
  if h : i < 2 then .ok ⟨Function.update job.cr ⟨i, h⟩ rank⟩ else .error .indexOutOfRange

/-- The pieces of the next line, and the rest of the file. -/
def readLine (text : Text) : List Text × Text :=
  let (line, text) := readString '\n' text
  ((replaceAll '\n' line).splitOn '\t', text)

/-- One turn of the loop over the pieces behind the third. -/
def Job.turn (lineSplit : List Text) (job : Job) (i : ℕ) : Except Panic Job := do
  let rank := atoi (← index lineSplit (i + 3))
  job.setCR i rank

/-- One turn of the loop over the jobs. -/
def RepMap.turn (s : RepMap × Text) (_ : ℕ) : Except Panic (RepMap × Text) := do
  let (lineSplit, text) := readLine s.2
  let jobID := atoi (← index lineSplit 1)
  let job ← loop (Job.turn lineSplit) (lineSplit.length - 3) ⟨fun _ ↦ -1⟩
  return (Function.update s.1 jobID (some job), text)

def initReplicationMap (text : Text) : Except Panic RepMap := do
  let (lineSplit, text) := readLine text
  let numJobs := atoi (← index lineSplit 1)
  let (replicationMap, _) ← loop RepMap.turn numJobs.toNat (fun _ ↦ none, text)
  return replicationMap

/-! ## One line -/

/-- The ranks in order, and `-1` in the unused places. -/
def Job.ofRanks (ranks : List ℤ) : Job := ⟨fun i ↦ ranks.getD i (-1)⟩

theorem index_of_lt {l : List Text} {i : ℕ} (h : i < l.length) : index l i = .ok l[i] := dif_pos h

theorem readLine_separated (n : Numeral) (ns : List Numeral) {rest : Text}
    (hrest : ∀ c ∈ rest.head?, c = '\n') :
    readLine (separated '\t' n ns ++ rest) = (n.text :: ns.map Numeral.text, rest.tail) := by
  obtain ⟨hline, htail⟩ :=
    readString_line (notMem_separated (c := '\t') (by decide) (by decide) n ns) hrest
  rw [readLine]
  dsimp only
  rw [hline, htail, splitOn_separated (by decide)]

theorem Job.setCR_ofRanks {ranks : List ℤ} {i : ℕ} (hi : ranks.length = i) (rank : ℤ) :
    (ofRanks ranks).setCR i rank
      = if i < 2 then .ok (ofRanks (ranks ++ [rank])) else .error .indexOutOfRange := by
  rw [setCR]
  split
  next h =>
    refine congrArg Except.ok (congrArg Job.mk (funext ?_))
    intro k
    by_cases hk : k = ⟨i, h⟩
    · subst hk
      simp [← hi]
    · have hne : (k : ℕ) ≠ ranks.length := fun heq ↦ hk (Fin.ext (heq.trans hi))
      rw [Function.update_of_ne hk, ofRanks]
      dsimp only
      rcases lt_or_gt_of_ne hne with hlt | hgt
      · rw [List.getD_append _ _ _ _ hlt]
      · rw [List.getD_eq_default _ _ hgt.le, List.getD_eq_default]
        rw [List.length_append, List.length_singleton]
        omega
  next h => rfl

/-- The loop over the pieces fills the places in order, and panics at the third rank. -/
theorem Job.loop_turn (pieces : List Text) (workers : List Numeral)
    (hpieces : pieces.length = 3) :
    if workers.length ≤ 2 then
      loop (Job.turn (pieces ++ workers.map Numeral.text)) workers.length ⟨fun _ ↦ -1⟩
        = .ok (.ofRanks (workers.map Numeral.value))
    else loop (Job.turn (pieces ++ workers.map Numeral.text)) workers.length ⟨fun _ ↦ -1⟩
      = .error .indexOutOfRange := by
  have hturn : ∀ i < workers.length, ∀ job, job = ofRanks ((workers.take i).map Numeral.value) →
      if i < 2 then ∃ job', Job.turn (pieces ++ workers.map Numeral.text) job i = .ok job' ∧
        job' = ofRanks ((workers.take (i + 1)).map Numeral.value)
      else Job.turn (pieces ++ workers.map Numeral.text) job i = .error .indexOutOfRange := by
    rintro i hi job rfl
    have hlt : i + 3 < (pieces ++ workers.map Numeral.text).length := by
      rw [List.length_append, List.length_map]
      omega
    have hpiece : (pieces ++ workers.map Numeral.text)[i + 3] = workers[i].text := by
      rw [List.getElem_append_right (by omega)]
      simp [hpieces]
    have hlen : ((workers.take i).map Numeral.value).length = i := by
      rw [List.length_map, List.length_take, min_eq_left hi.le]
    have htake : (workers.take (i + 1)).map Numeral.value
        = (workers.take i).map Numeral.value ++ [workers[i].value] := by
      rw [List.take_add_one, List.getElem?_eq_getElem hi, List.map_append]
      rfl
    rw [Job.turn, index_of_lt hlt, except_ok_bind, hpiece, atoi_text, setCR_ofRanks hlen, htake]
    by_cases hi2 : i < 2
    · rw [if_pos hi2, if_pos hi2]
      exact ⟨_, rfl, rfl⟩
    · rw [if_neg hi2, if_neg hi2]
  have hstart : (⟨fun _ ↦ -1⟩ : Job) = ofRanks ((workers.take 0).map Numeral.value) := rfl
  -- the invariant: the ranks read so far fill the first places
  have hloop := loop_rule (fun i job ↦ job = ofRanks ((workers.take i).map Numeral.value))
    (fun i ↦ i < 2) hturn hstart
  by_cases hlen : workers.length ≤ 2
  · rw [if_pos fun i hi ↦ hi.trans_le hlen] at hloop
    obtain ⟨job, hjob, rfl⟩ := hloop
    rw [if_pos hlen, hjob, List.take_length]
  · rw [if_neg fun hall ↦ absurd (hall 2 (by omega)) (lt_irrefl 2)] at hloop
    rw [if_neg hlen, hloop]

/-! ## All lines -/

/-- What the loop over the lines has done before turn `k`. -/
structure RepMap.Filled (rows : List MapRow) (trailer : Text) (k : ℕ) (s : RepMap × Text) :
    Prop where
  text : s.2 = ((rows.drop k).flatMap (fun row ↦ '\n' :: row.text) ++ trailer).tail
  /-- A later row of a job replaces an earlier one. -/
  recorded : ∀ id, s.1 id = ((rows.take k).reverse.find? fun row ↦ row.jobId.value = id).map
    fun row ↦ .ofRanks (row.workers.map Numeral.value)

theorem RepMap.Filled.turn {rows : List MapRow} {trailer : Text}
    (htrailer : ∀ c ∈ trailer.head?, c = '\n') {k : ℕ} (hk : k < rows.length)
    {s : RepMap × Text} (hs : Filled rows trailer k s) :
    if rows[k].workers.length ≤ 2 then
      ∃ s', RepMap.turn s k = .ok s' ∧ Filled rows trailer (k + 1) s'
    else RepMap.turn s k = .error .indexOutOfRange := by
  obtain ⟨htext, hrecorded⟩ := hs
  have hline : readLine s.2 = ([rows[k].updateBit.text, rows[k].jobId.text,
      rows[k].workerCount.text] ++ rows[k].workers.map Numeral.text,
      ((rows.drop (k + 1)).flatMap (fun row ↦ '\n' :: row.text) ++ trailer).tail) := by
    rw [htext, List.drop_eq_getElem_cons hk, List.flatMap_cons, List.cons_append, List.cons_append,
      List.tail_cons, List.append_assoc, MapRow.text,
      readLine_separated _ _ (MapText.head_rows _ htrailer)]
    rfl
  have hloop := Job.loop_turn [rows[k].updateBit.text, rows[k].jobId.text,
    rows[k].workerCount.text] rows[k].workers rfl
  have hcount : ([rows[k].updateBit.text, rows[k].jobId.text, rows[k].workerCount.text] ++
      rows[k].workers.map Numeral.text).length - 3 = rows[k].workers.length := by
    simp
  rw [RepMap.turn, hline]
  dsimp only
  rw [hcount]
  by_cases hlen : rows[k].workers.length ≤ 2
  · rw [if_pos hlen] at hloop ⊢
    rw [hloop]
    refine ⟨_, rfl, rfl, ?_⟩
    intro id
    rw [List.take_add_one, List.getElem?_eq_getElem hk, List.reverse_append]
    change Function.update s.1 (atoi rows[k].jobId.text) _ id = _
    rw [atoi_text, Option.toList_some, List.reverse_singleton, List.singleton_append]
    -- this row replaces an earlier one of its job
    by_cases hid : id = rows[k].jobId.value
    · rw [hid, Function.update_self, List.find?_cons_of_pos (by simp)]
      rfl
    · rw [Function.update_of_ne hid, hrecorded, List.find?_cons_of_neg (by simpa using Ne.symm hid)]
  · rw [if_neg hlen] at hloop ⊢
    rw [hloop]
    rfl

theorem initReplicationMap_eq_loop (t : MapText) :
    initReplicationMap t.text = (loop RepMap.turn t.rows.length (fun _ ↦ none,
      (t.rows.flatMap (fun row ↦ '\n' :: row.text) ++ t.trailer).tail)).bind
        fun s ↦ .ok s.1 := by
  have hhead := MapText.head_rows t.rows t.head_trailer
  have hheader : readLine t.text = ([t.cores.text, t.jobs.text],
      (t.rows.flatMap (fun row ↦ '\n' :: row.text) ++ t.trailer).tail) := by
    rw [MapText.text, MapText.header, List.append_assoc, readLine_separated _ _ hhead]
    rfl
  have hindex : index [t.cores.text, t.jobs.text] 1 = .ok t.jobs.text := rfl
  rw [initReplicationMap, hheader]
  dsimp only
  rw [hindex, except_ok_bind, atoi_text, t.value_jobs, Int.toNat_natCast]
  rfl

/-- **The whole file**, in terms of its rows. -/
theorem initReplicationMap_text (t : MapText) :
    if ∀ row ∈ t.rows, row.workers.length ≤ 2 then
      ∃ replicationMap, initReplicationMap t.text = .ok replicationMap ∧
        ∀ id, replicationMap id = (t.rows.reverse.find? fun row ↦ row.jobId.value = id).map
          fun row ↦ .ofRanks (row.workers.map Numeral.value)
    else initReplicationMap t.text = .error .indexOutOfRange := by
  have hstart : RepMap.Filled t.rows t.trailer 0
      (fun _ ↦ none, (t.rows.flatMap (fun row ↦ '\n' :: row.text) ++ t.trailer).tail) :=
    ⟨rfl, fun _ ↦ rfl⟩
  have hturn : ∀ k < t.rows.length, ∀ s, RepMap.Filled t.rows t.trailer k s →
      if ∀ row ∈ t.rows[k]?, row.workers.length ≤ 2 then
        ∃ s', RepMap.turn s k = .ok s' ∧ RepMap.Filled t.rows t.trailer (k + 1) s'
      else RepMap.turn s k = .error .indexOutOfRange := by
    intro k hk s hs
    simpa [List.getElem?_eq_getElem hk] using hs.turn t.head_trailer hk
  -- the loop gets through exactly if no row has a third rank
  have hall : (∀ k < t.rows.length, ∀ row ∈ t.rows[k]?, row.workers.length ≤ 2) ↔
      ∀ row ∈ t.rows, row.workers.length ≤ 2 := by
    constructor
    · intro h row hrow
      obtain ⟨k, hk, rfl⟩ := List.mem_iff_getElem.mp hrow
      exact h k hk _ (List.getElem?_eq_getElem hk)
    · intro h k hk row hrow
      exact h row (List.mem_of_getElem? hrow)
  have hloop := loop_rule (RepMap.Filled t.rows t.trailer)
    (fun k ↦ ∀ row ∈ t.rows[k]?, row.workers.length ≤ 2) hturn hstart
  rw [initReplicationMap_eq_loop]
  split
  next hrows =>
    rw [if_pos (hall.mpr hrows)] at hloop
    obtain ⟨s, hs, -, hrecorded⟩ := hloop
    rw [List.take_length] at hrecorded
    rw [hs]
    exact ⟨s.1, rfl, hrecorded⟩
  next hrows =>
    rw [if_neg fun h ↦ hrows (hall.mp h)] at hloop
    rw [hloop]
    rfl

/-! ## The two readers -/

/-- What `parse_map_file` asks for, in numerals that an `int` can hold: of others the two readers
may make different numbers. -/
structure AcceptedInts (t : MapText) : Prop extends t.Accepted where
  fits : ∀ x ∈ t.numbers, FitsInt x

/-- Among them are the texts of the manager, which has no more jobs than ranks and no number above
that of the ranks. -/
theorem acceptedInts_mapText {j r : ℕ} {jm : Manager.JobMap j} (h : jm.Whole r) (hr : r < 2 ^ 31)
    (hmodified : ∀ k, (jm.jMap k).modified ≤ 1) : AcceptedInts jm.mapText := by
  refine ⟨h.accepted_mapText, ?_⟩
  have hfits : ∀ n : ℕ, n < 2 ^ 31 → FitsInt n := fun n hn ↦ by unfold FitsInt; omega
  have hlayout := (Manager.JobMap.layout h).cover.length_eq
  rw [List.length_range, List.length_flatten] at hlayout
  -- every job has a rank, and the ranks are those below `r`
  have hjobs : j ≤ r := by
    have hle := List.length_le_sum_of_one_le
      ((Manager.JobMap.layout h).jobs.map List.length) fun n hn ↦ by
        obtain ⟨ws, hws, rfl⟩ := List.mem_map.mp hn
        exact List.length_pos_iff.mpr ((Manager.JobMap.layout h).nonempty ws hws)
    rw [List.length_map, Manager.JobMap.length_jobs_layout h] at hle
    omega
  have hworkers : ∀ k, (jm.jMap k).ranks.length ≤ r := by
    intro k
    have hmem : (jm.jMap k).ranks.length ∈ (Manager.JobMap.layout h).jobs.map List.length :=
      List.mem_map_of_mem (List.mem_map_of_mem (List.mem_finRange k))
    have hle := List.single_le_sum (fun n _ ↦ Nat.zero_le n) _ hmem
    omega
  have hrow : ∀ k : Fin j, ∀ x ∈ ((jm.jMap k).modified : ℤ) :: ((k : ℕ) : ℤ) ::
      ((jm.jMap k).ranks.length : ℤ) :: (jm.jMap k).ranks.map Nat.cast, FitsInt x := by
    intro k x hx
    have hk := k.isLt
    have hm := hmodified k
    have hlength := hworkers k
    rcases List.mem_cons.mp hx with rfl | hx
    · exact hfits _ (by omega)
    rcases List.mem_cons.mp hx with rfl | hx
    · exact hfits _ (by omega)
    rcases List.mem_cons.mp hx with rfl | hx
    · exact hfits _ (by omega)
    · obtain ⟨q, hq, rfl⟩ := List.mem_map.mp hx
      exact hfits q ((h.lt_of_mem hq).trans hr)
  rw [Manager.JobMap.numbers_mapText, ← Manager.JobMap.writeToFile_eq_fields]
  intro x hx
  rcases List.mem_cons.mp hx with rfl | hx
  · exact hfits _ (by rwa [Manager.JobMap.countTotalRanks_eq h])
  rcases List.mem_cons.mp hx with rfl | hx
  · exact hfits j (by omega)
  obtain ⟨k, -, hx⟩ := List.mem_flatMap.mp hx
  refine hrow k x ?_
  simpa [Manager.Job.ranks] using hx

/-- The workers of a job that `parse_map_file` has stored. -/
def Job.ofStored (job : EntangledMPI.Job) : Job := .ofRanks (job.workers.map Nat.cast)

theorem Job.ofRanks_eq_ofStored {row : MapRow} (h : ∀ w ∈ row.workers, 0 ≤ w.value) :
    ofRanks (row.workers.map Numeral.value) = .ofStored (row.line.job row.id) := by
  have hworkers : (row.line.job row.id).workers = row.line.workers := List.take_length
  rw [ofStored, hworkers, MapRow.line, List.map_map]
  congr 1
  exact List.map_congr_left fun w hw ↦ (Int.toNat_of_nonneg (h w hw)).symm

theorem find?_rows {rows : List MapRow} (hids : (rows.map fun row ↦ row.jobId.value).Nodup)
    {row : MapRow} (hrow : row ∈ rows) :
    (rows.reverse.find? fun row' ↦ row'.jobId.value = row.jobId.value) = some row :=
  Assignments.find?_reverse_of_unique hrow fun _ hmem heq ↦
    List.inj_on_of_nodup_map hids hmem hrow heq

theorem forall_workerCount_le_iff {t : MapText} (h : t.Accepted)
    {jobList : List EntangledMPI.Job} (hlength : jobList.length = t.rows.length)
    (hjobList : ∀ row ∈ t.rows, jobList[row.id]? = some (row.line.job row.id)) {n : ℕ} :
    (∀ job ∈ jobList, job.workerCount ≤ n) ↔ ∀ row ∈ t.rows, row.workers.length ≤ n := by
  constructor
  · intro hall row hrow
    have hle := hall _ (List.mem_of_getElem? (hjobList row hrow))
    simpa [MapLine.job, MapRow.line] using hle
  · intro hall job hjob
    obtain ⟨i, hi, rfl⟩ := List.mem_iff_getElem.mp hjob
    obtain ⟨row, hrow, hid⟩ := h.exists_row_iff.mpr
      ⟨Int.natCast_nonneg i, by rwa [Int.toNat_natCast, ← hlength]⟩
    have hget := hjobList row hrow
    rw [MapRow.id, hid, Int.toNat_natCast, List.getElem?_eq_getElem hi] at hget
    rw [Option.some_inj.mp hget]
    simpa [MapLine.job, MapRow.line] using hall row hrow

/-- **The two readers agree on a text in the layout of the file** while no job has more than two
workers. The injector panics as soon as one has. -/
theorem initReplicationMap_agrees {t : MapText} (h : AcceptedInts t) {s : Process}
    (hs : s.Ready t.cores.value.toNat) :
    ∃ s', s.parseMapText t.text = .ok s' ∧
      if ∀ job ∈ s'.jobList, job.workerCount ≤ 2 then
        ∃ replicationMap, initReplicationMap t.text = .ok replicationMap ∧
          ∀ id, replicationMap id =
            if 0 ≤ id then s'.jobList[id.toNat]?.map .ofStored else none
      else initReplicationMap t.text = .error .indexOutOfRange := by
  obtain ⟨s', hparse, hlength, hjobList⟩ := h.parse hs
  have hcount := forall_workerCount_le_iff h.toAccepted hlength hjobList (n := 2)
  refine ⟨s', hparse, ?_⟩
  have htext := initReplicationMap_text t
  split
  next hle =>
    rw [if_pos (hcount.mp hle)] at htext
    obtain ⟨replicationMap, hinit, hrecorded⟩ := htext
    refine ⟨replicationMap, hinit, ?_⟩
    intro id
    rw [hrecorded]
    -- the last row of a job is its only one, and an id without a row is none of the jobs
    by_cases hid : ∃ row ∈ t.rows, row.jobId.value = id
    · obtain ⟨row, hrow, rfl⟩ := hid
      have hget := hjobList row hrow
      rw [MapRow.id] at hget
      rw [if_pos (h.id_lt hrow).1, hget, find?_rows h.nodup_ids hrow, Option.map_some,
        Option.map_some, Job.ofRanks_eq_ofStored fun w hw ↦ (h.lt_cores row hrow w hw).1]
      rfl
    · have hnone : (t.rows.reverse.find? fun row ↦ row.jobId.value = id) = none := by
        rw [List.find?_eq_none]
        intro row hrow heq
        exact hid ⟨row, List.mem_reverse.mp hrow, of_decide_eq_true heq⟩
      rw [hnone, Option.map_none]
      split
      next hnonneg =>
        have hge : t.rows.length ≤ id.toNat := by
          by_contra hlt
          exact hid (h.exists_row_iff.mpr ⟨hnonneg, not_le.mp hlt⟩)
        rw [List.getElem?_eq_none (hlength ▸ hge), Option.map_none]
      next => rfl
  next hgt => rwa [if_neg fun hall ↦ hgt (hcount.mpr hall)] at htext

/-- The first map of `manager -j 2 -r 3`. -/
theorem initReplicationMap_agrees_first :
    ∃ s', (Layout.descending.process [0, 1, 2] 1).parseMapText
        (Manager.JobMap.initJobMap 2 3).mapText.text = .ok s' ∧
      if ∀ job ∈ s'.jobList, job.workerCount ≤ 2 then
        ∃ replicationMap,
          initReplicationMap (Manager.JobMap.initJobMap 2 3).mapText.text = .ok replicationMap ∧
          ∀ id, replicationMap id =
            if 0 ≤ id then s'.jobList[id.toNat]?.map .ofStored else none
      else initReplicationMap (Manager.JobMap.initJobMap 2 3).mapText.text
        = .error .indexOutOfRange := by
  have hinv := Manager.invariant_initial (j := 2) (r := 3) (by decide) 0
  have hwhole : (Manager.JobMap.initJobMap 2 3).Whole 3 := ⟨hinv.conserved, hinv.nonempty⟩
  have hmodified : ∀ k, ((Manager.JobMap.initJobMap 2 3).jMap k).modified ≤ 1 :=
    fun k ↦ (Manager.JobMap.modified_initJobMap 3 k).le
  exact initReplicationMap_agrees (acceptedInts_mapText hwhole (by decide) hmodified)
    ⟨rfl, by decide, Or.inr ⟨_, rfl, le_refl 3⟩⟩

/-- **What the injector makes of other maps that `parse_map_file` reads**: it panics at the map of
`manager -j 1 -r 3`, and at numbers with blanks in between. -/
theorem not_initReplicationMap_agrees :
    (((Layout.descending.process [0, 1, 2] 1).parseMapText
        (Manager.JobMap.initJobMap 1 3).writeToFileText).map Process.jobList
      = .ok [⟨0, 3, [0, 1, 2]⟩] ∧
      (initReplicationMap (Manager.JobMap.initJobMap 1 3).writeToFileText).map (fun _ ↦ ())
        = .error .indexOutOfRange) ∧
    (((Layout.descending.process [0, 1, 2] 1).parseMapText
        "3 2\n1 0 1 0\n1 1 2 2 1\n".toList).map Process.jobList
      = .ok [⟨0, 1, [0]⟩, ⟨1, 2, [2, 1]⟩] ∧
      (initReplicationMap "3 2\n1 0 1 0\n1 1 2 2 1\n".toList).map (fun _ ↦ ())
        = .error .indexOutOfRange) := by
  decide +kernel

end EntangledMPI.FaultInjector
