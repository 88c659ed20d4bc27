import EntangledMPI.Mpi.JobListShrink
import EntangledMPI.Mpi.MapFile

/-!
# What a process knows after reading a map

Reading a complete file puts its lists into `job_list` and `rank_2_job` whatever they held before.
The fields of `node` are another matter: only the one entry that names the process can change them,
and it sets `job_id` and `jobs_count` only in a row whose update bit is `1`. So `parseMapFile_eq`
gives the new tables outright and the new node as `noteWorker` of the old one.
-/

namespace EntangledMPI

open CountingLoop

theorem indexOf_natCast (k : ℕ) : indexOf (k : ℤ) = .ok k := by
  rw [indexOf, if_neg (by omega), Int.toNat_natCast]

/-! ## One entry of a row -/

namespace Node

@[simp] theorem rank_reset (node : Node) : node.reset.rank = node.rank := rfl

@[simp] theorem rank_noteMaster (node : Node) (wRank : ℤ) (j : ℕ) :
    (node.noteMaster wRank j).rank = node.rank := by
  unfold noteMaster
  split <;> rfl

@[simp] theorem rank_noteJob (node : Node) (jId wC : ℤ) (j : ℕ) :
    (node.noteJob jId wC j).rank = node.rank := by
  unfold noteJob
  split <;> rfl

@[simp] theorem rank_noteWorker (node : Node) (jobs updateBit jId wC wRank : ℤ) (j : ℕ) :
    (node.noteWorker jobs updateBit jId wC wRank j).rank = node.rank := by
  unfold noteWorker
  dsimp only
  split <;> simp

theorem noteWorker_of_ne {node : Node} {wRank : ℤ} (h : wRank ≠ node.rank)
    (jobs updateBit jId wC : ℤ) (j : ℕ) :
    node.noteWorker jobs updateBit jId wC wRank j = node := by
  have hmaster : node.noteMaster wRank j = node := if_neg fun h' ↦ h h'.2
  rw [noteWorker, hmaster]
  exact if_neg fun h' ↦ h h'.1

/-- The entries of a row from place `j` on. -/
def noteRow (jobs updateBit jId wC : ℤ) (node : Node) (j : ℕ) (workers : List ℕ) : Node :=
  match workers with
  | [] => node
  | w :: workers =>
    noteRow jobs updateBit jId wC (node.noteWorker jobs updateBit jId wC w j) (j + 1) workers

variable {node : Node} {jobs updateBit jId wC : ℤ} {workers : List ℕ}

theorem noteRow_concat (w j : ℕ) :
    noteRow jobs updateBit jId wC node j (workers ++ [w])
      = (noteRow jobs updateBit jId wC node j workers).noteWorker jobs updateBit jId wC w
          (j + workers.length) := by
  induction workers generalizing node j with
  | nil => rfl
  | cons w' workers ih =>
    rw [List.cons_append, noteRow, noteRow, ih, List.length_cons]
    congr 1
    omega

theorem noteRow_of_notMem (h : node.rank ∉ workers) (j : ℕ) :
    noteRow jobs updateBit jId wC node j workers = node := by
  induction workers generalizing j with
  | nil => rfl
  | cons w workers ih =>
    have hw : (w : ℤ) ≠ node.rank := fun hw ↦ h (by
      rw [← Int.ofNat_inj.mp hw]
      exact List.mem_cons_self)
    rw [noteRow, noteWorker_of_ne hw]
    exact ih (fun hmem ↦ h (List.mem_cons_of_mem _ hmem)) _

theorem noteRow_of_getElem? (hnodup : workers.Nodup) {k : ℕ} (hk : workers[k]? = some node.rank)
    (j : ℕ) : noteRow jobs updateBit jId wC node j workers
      = node.noteWorker jobs updateBit jId wC node.rank (j + k) := by
  induction workers generalizing j k with
  | nil => exact absurd hk (by simp)
  | cons w workers ih =>
    obtain ⟨hw, hnodup⟩ := List.nodup_cons.mp hnodup
    cases k with
    | zero =>
      obtain rfl := Option.some_inj.mp hk
      rw [noteRow, noteRow_of_notMem (by rwa [rank_noteWorker])]
      rfl
    | succ k =>
      have hmem : node.rank ∈ workers := List.mem_of_getElem? hk
      have hne : (w : ℤ) ≠ node.rank := fun h ↦ hw (Int.ofNat_inj.mp h ▸ hmem)
      rw [noteRow, noteWorker_of_ne hne, ih hnodup hk]
      congr 1
      omega

/-- The rows from job `i` on. -/
def noteRows (jobs : ℤ) (node : Node) (i : ℕ) (lines : List MapLine) : Node :=
  match lines with
  | [] => node
  | line :: lines =>
    noteRows jobs (noteRow jobs line.updateBit i line.workers.length node 0 line.workers) (i + 1)
      lines

@[simp] theorem rank_noteRow (j : ℕ) :
    (noteRow jobs updateBit jId wC node j workers).rank = node.rank := by
  induction workers generalizing node j with
  | nil => rfl
  | cons w workers ih => rw [noteRow, ih, rank_noteWorker]

theorem noteRows_concat (line : MapLine) (lines : List MapLine) (i : ℕ) :
    noteRows jobs node i (lines ++ [line])
      = noteRow jobs line.updateBit (i + lines.length : ℕ) line.workers.length
          (noteRows jobs node i lines) 0 line.workers := by
  induction lines generalizing node i with
  | nil => rfl
  | cons line' lines ih =>
    rw [List.cons_append, noteRows, noteRows, ih, List.length_cons]
    congr 2
    omega

theorem noteRows_of_forall_notMem {lines : List MapLine}
    (h : ∀ line ∈ lines, node.rank ∉ line.workers) (i : ℕ) : noteRows jobs node i lines = node := by
  induction lines generalizing i with
  | nil => rfl
  | cons line lines ih =>
    rw [noteRows, noteRow_of_notMem (h line List.mem_cons_self)]
    exact ih (fun line' hmem ↦ h line' (List.mem_cons_of_mem _ hmem)) _

theorem noteRows_of_getElem? {lines : List MapLine}
    (hnodup : (lines.map MapLine.workers).flatten.Nodup) {k j : ℕ} {line : MapLine}
    (hk : lines[k]? = some line) (hj : line.workers[j]? = some node.rank) (i : ℕ) :
    noteRows jobs node i lines = node.noteWorker jobs line.updateBit (i + k : ℕ)
      line.workers.length node.rank j := by
  induction lines generalizing i k with
  | nil => exact absurd hk (by simp)
  | cons line' lines ih =>
    rw [List.map_cons, List.flatten_cons, List.nodup_append] at hnodup
    obtain ⟨hrow, hrows, hdisjoint⟩ := hnodup
    cases k with
    | zero =>
      -- the row that names the process; no later row does
      obtain rfl := Option.some_inj.mp hk
      have hrest : ∀ line ∈ lines, node.rank ∉ line.workers := fun line hline hmem ↦
        hdisjoint _ (List.mem_of_getElem? hj) _
          (List.mem_flatten.mpr ⟨_, List.mem_map_of_mem hline, hmem⟩) rfl
      rw [noteRows, noteRow_of_getElem? hrow hj, noteRows_of_forall_notMem (by simpa using hrest),
        Nat.zero_add]
      rfl
    | succ k =>
      -- a row that does not name it leaves the node alone
      have hnot : node.rank ∉ line'.workers := fun hmem ↦
        hdisjoint _ hmem _ (List.mem_flatten.mpr ⟨_, List.mem_map_of_mem (List.mem_of_getElem? hk),
          List.mem_of_getElem? hj⟩) rfl
      rw [noteRows, noteRow_of_notMem hnot, ih hrows hk]
      congr 2
      omega

end Node

/-! ## One row -/

theorem set_append_replicate {α : Type*} {front : List α} {m n : ℕ} (hfront : front.length = m)
    (hm : m < n) (a b : α) :
    (front ++ List.replicate (n - m) b).set m a
      = front ++ [a] ++ List.replicate (n - (m + 1)) b := by
  have hcount : n - m = n - (m + 1) + 1 := by omega
  rw [List.set_append_right _ _ hfront.le, hfront, Nat.sub_self, hcount, List.replicate_succ,
    List.set_cons_zero, List.append_assoc, List.singleton_append]

/-- The job a row puts into `job_list`. -/
def MapLine.job (line : MapLine) (i : ℕ) : Job := ⟨i, line.workers.length, line.workers⟩

section Row

variable {line : MapLine} {jobs : ℤ} {i : ℕ} {rest : List ℤ} {node : Node} {jobList : List Job}
  {table : Table}

/-- What the loop over the row of job `i` has done before turn `m`. -/
structure RowState.Progress (line : MapLine) (jobs : ℤ) (i : ℕ) (rest : List ℤ) (node : Node)
    (jobList : List Job) (table : Table) (m : ℕ) (s : RowState (List ℤ)) : Prop where
  fields : s.fields = (line.workers.drop m).map Nat.cast ++ rest
  node : s.node = Node.noteRow jobs line.updateBit i line.workers.length node 0
    (line.workers.take m)
  jobList : s.jobList = jobList.set i ⟨i, line.workers.length,
    line.workers.take m ++ List.replicate (line.workers.length - m) 0⟩
  rank2Job : s.rank2Job = some (table.fill (line.workers.take m) i)

theorem RowState.Progress.turn (hi : i < jobList.length)
    (htable : ∀ r ∈ line.workers, r < table.size) {m : ℕ} (hm : m < line.workers.length)
    {s : RowState (List ℤ)} (hs : s.Progress line jobs i rest node jobList table m) :
    ∃ s', s.turn scanNumbers jobs line.updateBit i line.workers.length m = .ok s' ∧
      s'.Progress line jobs i rest node jobList table (m + 1) := by
  obtain ⟨hfields, hnode, hjobList, htable'⟩ := hs
  have htake : line.workers.take (m + 1) = line.workers.take m ++ [line.workers[m]] := by
    rw [List.take_add_one, List.getElem?_eq_getElem hm]
    rfl
  have hlen : (line.workers.take m).length = m := by
    rw [List.length_take, min_eq_left hm.le]
  -- what the turn reads and writes, one step after the other
  have hscan : scanNumbers [.space, .decimal] s.fields
      = ([(line.workers[m] : ℤ)], (line.workers.drop (m + 1)).map Nat.cast ++ rest) := by
    rw [hfields, List.drop_eq_getElem_cons hm]
    rfl
  have hwrite : writeRank2Job s.rank2Job line.workers[m] i
      = .ok (some (table.fill (line.workers.take (m + 1)) i)) := by
    rw [htable', writeRank2Job, Table.write_fill (htable _ (List.getElem_mem hm)), htake]
    rfl
  have hentry : readAt s.jobList i = .ok ⟨i, line.workers.length,
      line.workers.take m ++ List.replicate (line.workers.length - m) 0⟩ :=
    readAt_eq (by rw [hjobList, List.getElem?_set_self hi])
  have hrank : writeAt (line.workers.take m ++ List.replicate (line.workers.length - m) 0) m
      line.workers[m]
      = .ok (line.workers.take (m + 1) ++ List.replicate (line.workers.length - (m + 1)) 0) := by
    rw [writeAt_of_lt (by rw [List.length_append, hlen, List.length_replicate]; omega),
      set_append_replicate hlen hm, htake]
  have hlist : ∀ job, writeAt s.jobList i job = .ok (jobList.set i job) := fun job ↦ by
    rw [hjobList, writeAt_of_lt (by rwa [List.length_set]), List.set_set]
  refine ⟨⟨⟨(line.workers.drop (m + 1)).map Nat.cast ++ rest,
    s.node.noteWorker jobs line.updateBit i line.workers.length line.workers[m] m,
    jobList.set i ⟨i, line.workers.length,
      line.workers.take (m + 1) ++ List.replicate (line.workers.length - (m + 1)) 0⟩,
    some (table.fill (line.workers.take (m + 1)) i)⟩, some line.workers[m]⟩, ?_, rfl, ?_, rfl, rfl⟩
  · simp only [RowState.turn, hscan, scanInt, valueOf, indexOf_natCast, hwrite, hentry, hrank,
      hlist, except_ok_bind, except_pure]
  · rw [htake, Node.noteRow_concat, ← hnode, hlen, Nat.zero_add]

/-- **A row is read in full**: the loop over its workers ends where the row ends. -/
theorem RowState.loop_turn (jobs : ℤ) (rest : List ℤ) (node : Node) (hi : i < jobList.length)
    (htable : ∀ r ∈ line.workers, r < table.size) :
    ∃ wRank, loop (RowState.turn scanNumbers jobs line.updateBit i line.workers.length)
        line.workers.length
        ⟨⟨line.workers.map Nat.cast ++ rest, node,
          jobList.set i ⟨i, line.workers.length, List.replicate line.workers.length 0⟩,
          some table⟩, none⟩ =
      .ok ⟨⟨rest,
        Node.noteRow jobs line.updateBit i line.workers.length node 0 line.workers,
        jobList.set i (line.job i), some (table.fill line.workers i)⟩, wRank⟩ := by
  have hstart : RowState.Progress line jobs i rest node jobList table 0
      ⟨⟨line.workers.map Nat.cast ++ rest, node,
        jobList.set i ⟨i, line.workers.length, List.replicate line.workers.length 0⟩,
        some table⟩, none⟩ :=
    ⟨by simp, rfl, by simp, by simp [Table.fill_nil]⟩
  obtain ⟨s, hs, hfields, hnode, hjobList, htable'⟩ :=
    loop_rule_ok (RowState.Progress line jobs i rest node jobList table)
      (fun m hm s hs ↦ hs.turn hi htable hm) hstart
  refine ⟨s.wRank, hs.trans (congrArg Except.ok ?_)⟩
  obtain ⟨⟨fields, node', jobList', rank2Job⟩, wRank⟩ := s
  simp only [List.drop_length, List.map_nil, List.nil_append, List.take_length, Nat.sub_self,
    List.replicate_zero, List.append_nil] at hfields hnode hjobList htable'
  rw [hfields, hnode, hjobList, htable']
  rfl

end Row

/-! ## All rows -/

theorem MapFile.rows_cons (i : ℕ) (line : MapLine) (lines : List MapLine) :
    rows i (line :: lines) = line.fields i ++ rows (i + 1) lines := rfl

section Rows

variable {n : ℕ} {L : Layout n} {lines : List MapLine} {rest : List ℤ} {node : Node}

/-- What the loop over the rows has done before turn `k`; the rows list the map `L`. -/
structure ParseState.Progress (L : Layout n) (lines : List MapLine) (rest : List ℤ) (node : Node)
    (k : ℕ) (s : ParseState (List ℤ)) : Prop where
  fields : s.fields = MapFile.rows k (lines.drop k) ++ rest
  node : s.node = Node.noteRows lines.length node 0 (lines.take k)
  jobList : s.jobList = (lines.take k).mapIdx (fun i line ↦ line.job i) ++
    List.replicate (lines.length - k) Job.unset
  rank2Job : ∃ table, s.rank2Job = some table ∧ n ≤ table.size ∧
    ∀ i < k, ∀ r ∈ L.workers i, table.entry r = i

theorem workers_getElem_lines (hlines : lines.map MapLine.workers = L.jobs) {k : ℕ}
    (hk : k < lines.length) : lines[k].workers = L.workers k := by
  have hk' : k < L.jobs.length := by
    rw [← hlines, List.length_map]
    exact hk
  rw [Layout.workers_eq_getElem hk']
  simp only [← hlines, List.getElem_map]

theorem ParseState.Progress.turn (hlines : lines.map MapLine.workers = L.jobs) {k : ℕ}
    (hk : k < lines.length) {s : ParseState (List ℤ)} (hs : s.Progress L lines rest node k) :
    ∃ s', s.turn scanNumbers lines.length k = .ok s' ∧ s'.Progress L lines rest node (k + 1) := by
  obtain ⟨hfields, hnode, hjobList, table, htable, hsize, hentries⟩ := hs
  have hworkers := workers_getElem_lines hlines hk
  have hk' : k < L.jobs.length := by rwa [← hlines, List.length_map]
  have htake : lines.take (k + 1) = lines.take k ++ [lines[k]] := by
    rw [List.take_add_one, List.getElem?_eq_getElem hk]
    rfl
  have hfields' : s.fields = lines[k].updateBit :: (k : ℤ) :: (lines[k].workers.length : ℤ) ::
      (lines[k].workers.map Nat.cast ++ (MapFile.rows (k + 1) (lines.drop (k + 1)) ++ rest)) := by
    rw [hfields, List.drop_eq_getElem_cons hk, MapFile.rows_cons, List.append_assoc]
    rfl
  have hpos : 0 < lines[k].workers.length :=
    List.length_pos_iff.mpr (hworkers ▸ Layout.workers_ne_nil hk')
  have hklen : k < s.jobList.length := by
    rw [hjobList, List.length_append, List.length_mapIdx, List.length_take, List.length_replicate]
    omega
  have htable' : ∀ r ∈ lines[k].workers, r < table.size := by
    rw [hworkers]
    exact fun r hr ↦ (Layout.lt_of_mem_workers hr).trans_le hsize
  obtain ⟨wRank, hrow⟩ := RowState.loop_turn lines.length
    (MapFile.rows (k + 1) (lines.drop (k + 1)) ++ rest) s.node hklen htable'
  have hset : s.jobList.set k (lines[k].job k)
      = (lines.take (k + 1)).mapIdx (fun i line ↦ line.job i) ++
        List.replicate (lines.length - (k + 1)) Job.unset := by
    have hdone : ((lines.take k).mapIdx fun i line ↦ line.job i).length = k := by
      rw [List.length_mapIdx, List.length_take, min_eq_left hk.le]
    rw [hjobList, set_append_replicate hdone hk, htake, List.mapIdx_concat, List.length_take,
      min_eq_left hk.le]
  refine ⟨⟨MapFile.rows (k + 1) (lines.drop (k + 1)) ++ rest,
    Node.noteRow lines.length lines[k].updateBit k lines[k].workers.length s.node 0
      lines[k].workers, s.jobList.set k (lines[k].job k),
    some (table.fill lines[k].workers k)⟩, ?_, rfl, ?_, hset, ?_⟩
  · have hlt : (k : ℤ) < lines.length := by exact_mod_cast hk
    have hwc : (0 : ℤ) < lines[k].workers.length := by exact_mod_cast hpos
    rw [ParseState.turn, hfields', scanNumbers_row]
    simp only [scanInt, valueOf, except_ok_bind, hlt, hwc, not_true_eq_false, if_false,
      indexOf_natCast, writeAt_of_lt hklen, Int.toNat_natCast, htable, hrow, except_pure]
  · rw [htake, Node.noteRows_concat, ← hnode, List.length_take, min_eq_left hk.le, Nat.zero_add]
  · refine ⟨_, rfl, hsize, ?_⟩
    intro i hi r hr
    -- an entry this row has not written was written by an earlier one, as no rank is listed twice
    by_cases hrk : r ∈ lines[k].workers
    · rw [Table.entry_fill_of_mem _ hrk]
      rw [hworkers] at hrk
      exact Layout.eq_of_mem_workers hrk hr
    · rw [Table.entry_fill_of_notMem _ hrk]
      refine hentries i (lt_of_le_of_ne (by omega) fun hik ↦ hrk ?_) r hr
      rwa [hworkers, ← hik]

end Rows

/-! ## The whole file -/

/-- The row of the file that lists the process, and the place of the process in it. -/
theorem Process.parseMapFile_eq {n : ℕ} {L : Layout n} {f : MapFile} {s : Process}
    (hlines : f.lines.map MapLine.workers = L.jobs) (hckpt : s.ckptRestore = .no)
    (hcount : s.node.jobsCount ≤ s.jobList.length)
    (htable : s.rank2Job = none ∧ n ≤ f.cores ∨ ∃ table, s.rank2Job = some table ∧ n ≤ table.size)
    {i j : ℕ} {line : MapLine} (hi : f.lines[i]? = some line)
    (hj : line.workers[j]? = some s.node.rank) :
    ∃ table, n ≤ table.size ∧ (∀ k, ∀ r ∈ L.workers k, table.entry r = k) ∧
      s.parseMapFile f.fields = .ok { s with
        node := s.node.reset.noteWorker f.lines.length line.updateBit i line.workers.length
          s.node.rank j
        jobList := f.lines.mapIdx fun i line ↦ line.job i
        rank2Job := some table } := by
  -- `rank_2_job` is kept from an earlier read, or allocated
  obtain ⟨start, hstart, hsize⟩ : ∃ start : Table,
      allocRank2Job s.rank2Job (some f.cores) = .ok (some start) ∧ n ≤ start.size := by
    rcases htable with ⟨hnone, hcores⟩ | ⟨table, htable, hsize⟩
    · exact ⟨⟨f.cores, fun _ ↦ 0⟩, by rw [hnone]; rfl, hcores⟩
    · exact ⟨table, by rw [htable]; rfl, hsize⟩
  have hbegin : ParseState.Progress L f.lines [] s.node.reset 0
      ⟨MapFile.rows 0 f.lines, s.node.reset, List.replicate f.lines.length Job.unset,
        some start⟩ :=
    ⟨by simp, rfl, by simp, start, rfl, hsize, fun k hk ↦ absurd hk (Nat.not_lt_zero k)⟩
  obtain ⟨t, ht, -, hnode, hjobList, table, htable', hsize', hentries⟩ :=
    loop_rule_ok (ParseState.Progress L f.lines [] s.node.reset)
      (fun k hk t ht ↦ ht.turn hlines hk) hbegin
  have hnodup : (f.lines.map MapLine.workers).flatten.Nodup := hlines ▸ L.nodup_flatten
  have hlen : f.lines.length = L.jobs.length := by rw [← hlines, List.length_map]
  refine ⟨table, hsize', ?_, ?_⟩
  · intro k r hr
    exact hentries k (hlen ▸ Layout.lt_length_of_mem_workers hr) r hr
  · have hj' : line.workers[j]? = some s.node.reset.rank := hj
    rw [List.take_length, Node.noteRows_of_getElem? hnodup hi hj', Nat.zero_add] at hnode
    rw [List.take_length, Nat.sub_self, List.replicate_zero, List.append_nil] at hjobList
    have hckpt' : s.ckptRestore ≠ .yes := by simp [hckpt]
    rw [Process.parseMapFile, Process.parseMap, if_neg hckpt', MapFile.fields,
      scanNumbers_header]
    simp only [scanInt, not_lt.mpr hcount, if_false, hstart, valueOf, except_ok_bind,
      Int.toNat_natCast, ht, hnode, hjobList, htable', except_pure]
    rfl

/-! ## The entry that names the process -/

namespace Node

variable (node : Node) (jobs updateBit jId wC : ℤ) (j : ℕ)

theorem jobId_noteWorker_self :
    (node.reset.noteWorker jobs updateBit jId wC node.rank j).jobId
      = if updateBit = 1 then jId else node.jobId := by
  by_cases hbit : updateBit = 1 <;> by_cases hj : j = 0 <;> by_cases hjob : node.jobId = jId <;>
    simp [noteWorker, noteMaster, noteJob, reset, hbit, hj, hjob]

theorem jobsCount_noteWorker_self :
    (node.reset.noteWorker jobs updateBit jId wC node.rank j).jobsCount
      = if updateBit = 1 then jobs.toNat else node.jobsCount := by
  by_cases hbit : updateBit = 1 <;> by_cases hj : j = 0 <;>
    simp [noteWorker, noteMaster, reset, hbit, hj]

theorem nodeCheckpointMaster_noteWorker_self :
    (node.reset.noteWorker jobs updateBit jId wC node.rank j).nodeCheckpointMaster
      = if j = 0 then .yes else .no := by
  by_cases hbit : updateBit = 1 <;> by_cases hj : j = 0 <;> by_cases hjob : node.jobId = jId <;>
    simp [noteWorker, noteMaster, noteJob, reset, hbit, hj, hjob]

theorem nodeTransitState_noteWorker_self :
    (node.reset.noteWorker jobs updateBit jId wC node.rank j).nodeTransitState
      = if updateBit = 1 then
          if node.jobId ≠ jId then .receiver else if j = 0 ∧ 1 < wC then .sender else .none
        else .none := by
  by_cases hbit : updateBit = 1 <;> by_cases hj : j = 0 <;> by_cases hjob : node.jobId = jId <;>
    simp [noteWorker, noteMaster, noteJob, reset, hbit, hj, hjob]

theorem repMpiCommWorld_noteWorker_self :
    (node.reset.noteWorker jobs updateBit jId wC node.rank j).repMpiCommWorld
      = node.repMpiCommWorld := by
  by_cases hbit : updateBit = 1 <;> by_cases hj : j = 0 <;> by_cases hjob : node.jobId = jId <;>
    simp [noteWorker, noteMaster, noteJob, reset, hbit, hj, hjob]

end Node

/-! ## Reading and sharing a map -/

/-- `f` is a file over the map `L`. -/
def MapFile.Lists {n : ℕ} (f : MapFile) (L : Layout n) : Prop :=
  f.lines.map MapLine.workers = L.jobs ∧ f.cores = n

theorem MapFile.Lists.length_lines {n : ℕ} {f : MapFile} {L : Layout n} (h : f.Lists L) :
    f.lines.length = L.jobs.length := by
  rw [← h.1, List.length_map]

theorem MapFile.Lists.mem_workers {n : ℕ} {f : MapFile} {L : Layout n} (h : f.Lists L) {i r : ℕ} :
    r ∈ L.workers i ↔ ∃ line, f.lines[i]? = some line ∧ r ∈ line.workers := by
  constructor
  · intro hr
    have hi : i < f.lines.length := h.length_lines ▸ Layout.lt_length_of_mem_workers hr
    exact ⟨_, List.getElem?_eq_getElem hi, by rwa [workers_getElem_lines h.1 hi]⟩
  · rintro ⟨line, hline, hr⟩
    obtain ⟨hi, rfl⟩ := List.getElem?_eq_some_iff.mp hline
    rwa [workers_getElem_lines h.1 hi] at hr

/-- Every rank of the map stands in one row of the file, at one place. -/
theorem MapFile.Lists.exists_entry {n : ℕ} {f : MapFile} {L : Layout n} (h : f.Lists L) {r : ℕ}
    (hr : r < n) : ∃ i line, f.lines[i]? = some line ∧ L.workers i = line.workers ∧
      ∃ j : ℕ, line.workers[j]? = some r := by
  obtain ⟨i, hi⟩ := L.exists_mem_workers hr
  have hlt : i < f.lines.length := h.length_lines ▸ Layout.lt_length_of_mem_workers hi
  have hline := workers_getElem_lines h.1 hlt
  refine ⟨i, f.lines[i], List.getElem?_eq_getElem hlt, hline.symm, ?_⟩
  rw [hline]
  exact List.getElem?_of_mem hi

/-- A process that can read a map of the ranks below `r`: its pointers are either `NULL` or
allocated for such a map. -/
structure Process.Ready (s : Process) (r : ℕ) : Prop where
  ckptRestore : s.ckptRestore = .no
  jobsCount : s.node.jobsCount ≤ s.jobList.length
  rank2Job : s.rank2Job = none ∨ ∃ table, s.rank2Job = some table ∧ r ≤ table.size

/-- The state `s'` of a process that has read the file `f` over the map `L₀` in the state `s`, and
found itself at place `j` of the row `line` of job `i`. The transit state is left open: `init_node`
overwrites it. -/
structure Process.HasRead {r : ℕ} (s' s : Process) (f : MapFile) (L₀ : Layout r) (i : ℕ)
    (line : MapLine) (j : ℕ) : Prop where
  row : f.lines[i]? = some line
  workers : L₀.workers i = line.workers
  place : line.workers[j]? = some s.node.rank
  node : ∃ transit, s'.node =
    { s.node.reset.noteWorker f.lines.length line.updateBit i line.workers.length s.node.rank j with
      nodeTransitState := transit }
  jobList : s'.jobList = f.lines.mapIdx fun i line ↦ line.job i
  rank2Job : ∃ table, s'.rank2Job = some table ∧ r ≤ table.size ∧
    ∀ k, ∀ q ∈ L₀.workers k, table.entry q = k
  rankIgnoreList : s'.rankIgnoreList = s.rankIgnoreList
  ckptRestore : s'.ckptRestore = s.ckptRestore

/-- **Reading a complete file succeeds**, whatever the tables held before. -/
theorem Process.Ready.read {r : ℕ} {s : Process} {f : MapFile} {L₀ : Layout r} (h : s.Ready r)
    (hf : f.Lists L₀) (hrank : s.node.rank < r) :
    ∃ s' i line j, s.parseMapFile f.fields = .ok s' ∧ s'.HasRead s f L₀ i line j ∧
      s'.node.nodeTransitState =
        if line.updateBit = 1 then
          if s.node.jobId ≠ i then .receiver
          else if j = 0 ∧ 1 < line.workers.length then .sender else .none
        else .none := by
  obtain ⟨i, line, hi, hworkers, j, hj⟩ := hf.exists_entry hrank
  have htable : s.rank2Job = none ∧ r ≤ f.cores ∨
      ∃ table, s.rank2Job = some table ∧ r ≤ table.size :=
    h.rank2Job.imp_left fun hnone ↦ ⟨hnone, hf.2.ge⟩
  obtain ⟨table, hsize, hentries, hparse⟩ :=
    parseMapFile_eq hf.1 h.ckptRestore h.jobsCount htable hi hj
  refine ⟨_, i, line, j, hparse, ⟨hi, hworkers, hj, ⟨_, rfl⟩, rfl, ⟨table, rfl, hsize, hentries⟩,
    rfl, rfl⟩, ?_⟩
  rw [Node.nodeTransitState_noteWorker_self]
  norm_cast

theorem Process.Ready.initNode {r : ℕ} {s : Process} {comm : Group} {myRank : ℕ} {f : MapFile}
    {L₀ : Layout r} (h : (s.enter comm myRank).Ready r) (hf : f.Lists L₀) (hrank : myRank < r) :
    ∃ s' i line j, s.initNode comm myRank f.fields = .ok s' ∧
      s'.HasRead (s.enter comm myRank) f L₀ i line j ∧ s'.node.nodeTransitState = .none := by
  obtain ⟨s', i, line, j, hparse, hread, -⟩ := h.read hf hrank
  obtain ⟨hrow, hworkers, hplace, ⟨transit, hnode⟩, hjobList, hrank2Job, hignore, hckpt⟩ := hread
  refine ⟨{ s' with node := { s'.node with nodeTransitState := .none } }, i, line, j, ?_,
    ⟨hrow, hworkers, hplace, ⟨.none, ?_⟩, hjobList, hrank2Job, hignore, hckpt⟩, rfl⟩
  · rw [Process.initNode, hparse]
    rfl
  · rw [hnode]

namespace Process.HasRead

variable {r : ℕ} {s' s : Process} {f : MapFile} {L₀ : Layout r} {i j : ℕ} {line : MapLine}

theorem workers_jobList (h : s'.HasRead s f L₀ i line j) (hf : f.Lists L₀) :
    s'.jobList.map Job.workers = L₀.jobs := by
  rw [h.jobList, ← hf.1]
  apply List.ext_getElem (by simp)
  intro k h₁ h₂
  simp [MapLine.job, Job.workers]

theorem rank_mem (h : s'.HasRead s f L₀ i line j) : s.node.rank ∈ L₀.workers i :=
  h.workers ▸ List.mem_of_getElem? h.place

@[simp] theorem rank_eq (h : s'.HasRead s f L₀ i line j) : s'.node.rank = s.node.rank := by
  obtain ⟨transit, hnode⟩ := h.node
  rw [hnode]
  exact Node.rank_noteWorker ..

theorem jobId (h : s'.HasRead s f L₀ i line j) :
    s'.node.jobId = if line.updateBit = 1 then (i : ℤ) else s.node.jobId := by
  obtain ⟨transit, hnode⟩ := h.node
  rw [hnode]
  exact Node.jobId_noteWorker_self ..

theorem jobsCount (h : s'.HasRead s f L₀ i line j) :
    s'.node.jobsCount = if line.updateBit = 1 then f.lines.length else s.node.jobsCount := by
  obtain ⟨transit, hnode⟩ := h.node
  rw [hnode]
  exact Node.jobsCount_noteWorker_self ..

theorem place_eq_zero_iff (h : s'.HasRead s f L₀ i line j) : j = 0 ↔ s.node.rank = L₀.master i := by
  have hhead : L₀.master i = line.workers.headD 0 := by rw [Layout.master, h.workers]
  have hplace := h.place
  have hnodup : line.workers.Nodup := h.workers ▸ L₀.nodup_workers i
  cases hw : line.workers with
  | nil => rw [hw] at hplace; exact absurd hplace (by simp)
  | cons q rest =>
    rw [hhead, hw, List.headD_cons]
    rw [hw] at hplace hnodup
    constructor
    · rintro rfl
      exact (Option.some_inj.mp hplace).symm
    · intro hq
      rw [hq] at hplace
      have hzero : (q :: rest)[0]? = some q := rfl
      exact (List.getElem?_inj (List.getElem?_eq_some_iff.mp hplace).1 hnodup).mp
        (hplace.trans hzero.symm)

theorem nodeCheckpointMaster (h : s'.HasRead s f L₀ i line j) :
    s'.node.nodeCheckpointMaster = .yes ↔ s.node.rank = L₀.master i := by
  obtain ⟨transit, hnode⟩ := h.node
  rw [hnode, ← h.place_eq_zero_iff]
  change (Node.noteWorker ..).nodeCheckpointMaster = _ ↔ _
  rw [Node.nodeCheckpointMaster_noteWorker_self]
  split <;> simp [*]

theorem repMpiCommWorld (h : s'.HasRead s f L₀ i line j) :
    s'.node.repMpiCommWorld = s.node.repMpiCommWorld := by
  obtain ⟨transit, hnode⟩ := h.node
  rw [hnode]
  exact Node.repMpiCommWorld_noteWorker_self ..

/-- **When a read leaves the process with the map of the file**: nobody was renumbered, and the row
of the process was updated or was its row already. -/
theorem shares {comm : Group} {p : ℕ} {L : Layout comm.length} (h : s'.HasRead s f L₀ i line j)
    (hf : f.Lists L₀) (hL : L.jobs = L₀.jobs) (hcomm : s.node.repMpiCommWorld = comm)
    (hp : comm[s.node.rank]? = some p) (hlen : comm.length = r)
    (hignore : comm.length ≤ s.rankIgnoreList.size)
    (hjob : line.updateBit = 1 ∨ s.node.jobId = i ∧ s.node.jobsCount = f.lines.length) :
    s'.Shares L comm p := by
  have hworkers : ∀ k, L.workers k = L₀.workers k := fun k ↦ by
    rw [Layout.workers, Layout.workers, hL]
  -- a row that has not been updated leaves the numbers of the process as they were
  have hjobId : s'.node.jobId = i := by
    rw [h.jobId]
    split
    · rfl
    · exact (hjob.resolve_left ‹_›).1
  have hcount : s'.node.jobsCount = f.lines.length := by
    rw [h.jobsCount]
    split
    · rfl
    · exact (hjob.resolve_left ‹_›).2
  refine ⟨⟨?_, by rwa [h.rank_eq], ?_, ?_, ?_, ?_, ?_⟩, ⟨i, hjobId, ?_⟩, ?_⟩
  · rw [h.repMpiCommWorld, hcomm]
  · rw [hcount, hL, hf.length_lines]
  · rw [h.workers_jobList hf, hL]
  · intro job hmem
    rw [h.jobList] at hmem
    obtain ⟨k, hk, rfl⟩ := List.mem_mapIdx.mp hmem
    exact le_refl _
  · obtain ⟨table, htable, hsize, hentries⟩ := h.rank2Job
    exact ⟨table, htable, hlen.le.trans hsize, fun k q hq ↦ hentries k q (hworkers k ▸ hq)⟩
  · rwa [h.rankIgnoreList]
  · rw [h.rank_eq, hworkers]
    exact h.rank_mem
  · intro k hk
    have hki : k = i := by exact_mod_cast hk.symm.trans hjobId
    rw [h.nodeCheckpointMaster, h.rank_eq, Layout.master, Layout.master, hworkers, hki]

end Process.HasRead

end EntangledMPI
