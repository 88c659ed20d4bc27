import EntangledMPI.Mpi.Ulfm

/-!
# What a shrink does to a job map

The loop of `update_job_list` over one job is a compaction in place: the translated ranks move to
the front and `worker_count` ends as their number. It calls `PMPI_Abort` in the turn that finds the
last worker gone, and only if none survived. Over all jobs the map that results is the old one with
every list filtered and renumbered, which is again a map of the smaller world.
-/

namespace EntangledMPI

open CountingLoop Renumbering

/-! ## One job -/

/-- A table with one value written at several indices. -/
def Table.fill (t : Table) (rs : List ℕ) (v : ℕ) : Table :=
  ⟨t.size, fun r ↦ if r ∈ rs then v else t.entry r⟩

@[simp] theorem Table.size_fill (t : Table) (rs : List ℕ) (v : ℕ) : (t.fill rs v).size = t.size :=
  rfl

theorem Table.entry_fill_of_mem (t : Table) {rs : List ℕ} {r : ℕ} (h : r ∈ rs) (v : ℕ) :
    (t.fill rs v).entry r = v := if_pos h

theorem Table.entry_fill_of_notMem (t : Table) {rs : List ℕ} {r : ℕ} (h : r ∉ rs) (v : ℕ) :
    (t.fill rs v).entry r = t.entry r := if_neg h

theorem Table.fill_nil (t : Table) (v : ℕ) : t.fill [] v = t := by
  simp [fill]

theorem Table.fill_fill (t : Table) (rs rs' : List ℕ) (v : ℕ) :
    (t.fill rs v).fill rs' v = t.fill (rs ++ rs') v := by
  refine congrArg (Table.mk t.size) (funext fun r ↦ ?_)
  by_cases hr : r ∈ rs'
  · simp [hr]
  · simp [fill, hr]

theorem Table.write_fill {t : Table} {r : ℕ} (h : r < t.size) (rs : List ℕ) (v : ℕ) :
    (t.fill rs v).write r v = .ok (t.fill (rs ++ [r]) v) := by
  rw [write_of_lt (t := t.fill rs v) h]
  refine congrArg Except.ok (congrArg (Table.mk t.size) (funext ?_))
  intro q
  by_cases hq : q = r
  · simp [hq]
  · rw [Function.update_of_ne hq]
    simp [fill, hq]

theorem readAt_rewritten {α : Type*} {front l : List α} {m : ℕ} (h : front.length ≤ m)
    (hm : m < l.length) : readAt (front ++ l.drop front.length) m = .ok l[m] := by
  apply readAt_eq
  rw [List.getElem?_append_right h, List.getElem?_drop, Nat.add_sub_cancel' h,
    List.getElem?_eq_getElem hm]

theorem writeAt_rewritten {α : Type*} {front l : List α} (h : front.length < l.length) (a : α) :
    writeAt (front ++ l.drop front.length) front.length a
      = .ok (front ++ [a] ++ l.drop (front.length + 1)) := by
  have hlt : front.length < (front ++ l.drop front.length).length := by
    rw [List.length_append, List.length_drop]
    omega
  rw [writeAt_of_lt hlt, List.set_append_right _ _ (le_refl _), Nat.sub_self,
    List.drop_eq_getElem_cons h, List.set_cons_zero, List.append_assoc, List.singleton_append]

/-- The job with its dead workers taken out and the rest renumbered; the tail of the array is what
the loop left there. -/
def Job.compact (translated : ℕ → Option ℕ) (job : Job) : Job :=
  let survivors := job.workers.filterMap translated
  { job with
    workerCount := survivors.length
    rankList := survivors ++ job.rankList.drop survivors.length }

theorem Job.workers_compact (translated : ℕ → Option ℕ) (job : Job) :
    (job.compact translated).workers = job.workers.filterMap translated :=
  List.take_left

theorem Job.length_workers {job : Job} (h : job.workerCount ≤ job.rankList.length) :
    job.workers.length = job.workerCount := by
  rw [workers, List.length_take, min_eq_left h]

theorem Job.readAt_compact_zero {translated : ℕ → Option ℕ} {job : Job} {first : ℕ}
    (h : (job.workers.filterMap translated).head? = some first) :
    readAt (job.compact translated).rankList 0 = .ok first := by
  apply readAt_eq
  rw [List.head?_eq_getElem?] at h
  rw [compact, List.getElem?_append_left (List.getElem?_eq_some_iff.mp h).1, h]

theorem Job.workerCount_compact_le (translated : ℕ → Option ℕ) (job : Job) :
    (job.compact translated).workerCount ≤ (job.compact translated).rankList.length := by
  simp [compact]

section OneJob

variable {translated : ℕ → Option ℕ} {job : Job} {size : ℕ} {rank2Job rankIgnoreList : Table}

theorem Job.getElem?_workers (hlen : job.workerCount ≤ job.rankList.length) {m : ℕ}
    (hm : m < job.workerCount) : job.workers[m]? = some job.rankList[m] := by
  rw [workers, List.getElem?_take_of_lt hm, List.getElem?_eq_getElem]

theorem Job.filterMap_take_succ (hlen : job.workerCount ≤ job.rankList.length) {m : ℕ}
    (hm : m < job.workerCount) : (job.workers.take (m + 1)).filterMap translated
      = (job.workers.take m).filterMap translated ++ (translated job.rankList[m]).toList := by
  rw [List.take_add_one, getElem?_workers hlen hm, Option.toList_some, List.filterMap_append,
    List.filterMap_cons, List.filterMap_nil]
  cases translated job.rankList[m] <;> rfl

theorem Job.length_filterMap_take_le (job : Job) (m : ℕ) :
    ((job.workers.take m).filterMap translated).length ≤ m :=
  (List.length_filterMap_le _ _).trans (by rw [List.length_take]; exact min_le_left _ _)

/-- The state of the loop over the workers of job `i` before turn `m`. -/
def Compaction.before (translated : ℕ → Option ℕ) (job : Job) (i : ℕ)
    (rank2Job rankIgnoreList : Table) (m : ℕ) : Compaction :=
  let survivors := (job.workers.take m).filterMap translated
  { job := { job with
      workerCount := job.workerCount - (m - survivors.length)
      rankList := survivors ++ job.rankList.drop survivors.length }
    overwritePointer := survivors.length
    rank2Job := some (rank2Job.fill survivors i)
    rankIgnoreList := rankIgnoreList.fill survivors 0 }

/-- The rank that turn `m` reads is still the worker number `m`, as the survivors before it take no
more room than the workers they come from. -/
theorem Compaction.reads_before (hlen : job.workerCount ≤ job.rankList.length)
    (hsize : ∀ r ∈ job.workers, r < size) (translated : ℕ → Option ℕ) (i : ℕ)
    (rank2Job rankIgnoreList : Table) {m : ℕ} (hm : m < job.workerCount) :
    readAt (before translated job i rank2Job rankIgnoreList m).job.rankList m
        = .ok job.rankList[m] ∧
      job.rankList[m] < size ∧
      readAt ((List.range size).map translated) job.rankList[m]
        = .ok (translated job.rankList[m]) := by
  have hlt : job.rankList[m] < size :=
    hsize _ (List.mem_of_getElem? (Job.getElem?_workers hlen hm))
  refine ⟨?_, hlt, readAt_eq ?_⟩
  · exact readAt_rewritten (Job.length_filterMap_take_le job m) (hm.trans_le hlen)
  · rw [List.getElem?_map, List.getElem?_range hlt, Option.map_some]

theorem Compaction.turn_before_none (hlen : job.workerCount ≤ job.rankList.length)
    (hsize : ∀ r ∈ job.workers, r < size) (i : ℕ) {m : ℕ} (hm : m < job.workerCount)
    (htr : translated job.rankList[m] = none) :
    (before translated job i rank2Job rankIgnoreList m).turn size
        ((List.range size).map translated) i m =
      if ¬(m + 1 = job.workerCount ∧ job.workers.filterMap translated = []) then
        .ok (before translated job i rank2Job rankIgnoreList (m + 1))
      else .error .abort := by
  have hworkers : job.workers.length = job.workerCount := Job.length_workers hlen
  have hle : ((job.workers.take m).filterMap translated).length ≤ m :=
    Job.length_filterMap_take_le job m
  have hsucc : (job.workers.take (m + 1)).filterMap translated
      = (job.workers.take m).filterMap translated := by
    rw [Job.filterMap_take_succ hlen hm, htr, Option.toList_none, List.append_nil]
  have hall : m + 1 = job.workerCount →
      job.workers.filterMap translated = (job.workers.take m).filterMap translated := by
    intro hlast
    rw [← hsucc, List.take_of_length_le (by omega)]
  obtain ⟨hread, hlt, htranslated⟩ :=
    reads_before hlen hsize translated i rank2Job rankIgnoreList hm
  rw [turn, hread, except_ok_bind, if_neg (not_not.mpr hlt), htranslated, except_ok_bind, htr,
    before, before, hsucc]
  generalize (job.workers.take m).filterMap translated = survivors at hle hall
  -- the count drops by one, and reaches zero only when no rank before this one was kept either
  have hcount : job.workerCount - (m - survivors.length) - 1
      = job.workerCount - (m + 1 - survivors.length) := by omega
  have habort : job.workerCount - (m + 1 - survivors.length) = 0
      ↔ m + 1 = job.workerCount ∧ job.workers.filterMap translated = [] := by
    constructor
    · intro h
      have hlast : m + 1 = job.workerCount := by omega
      exact ⟨hlast, (hall hlast).trans (List.eq_nil_of_length_eq_zero (by omega))⟩
    · rintro ⟨hlast, hnone⟩
      rw [hall hlast] at hnone
      rw [hnone, List.length_nil]
      omega
  simp only [hcount, habort, ite_not]
  rfl

theorem Compaction.turn_before_some (hlen : job.workerCount ≤ job.rankList.length)
    (hsize : ∀ r ∈ job.workers, r < size) (i : ℕ) {m new : ℕ} (hm : m < job.workerCount)
    (htr : translated job.rankList[m] = some new) (hnew : new < rank2Job.size)
    (hnew' : new < rankIgnoreList.size) :
    (before translated job i rank2Job rankIgnoreList m).turn size
        ((List.range size).map translated) i m =
      .ok (before translated job i rank2Job rankIgnoreList (m + 1)) := by
  have hle : ((job.workers.take m).filterMap translated).length ≤ m :=
    Job.length_filterMap_take_le job m
  have hsucc : (job.workers.take (m + 1)).filterMap translated
      = (job.workers.take m).filterMap translated ++ [new] := by
    rw [Job.filterMap_take_succ hlen hm, htr, Option.toList_some]
  obtain ⟨hread, hlt, htranslated⟩ :=
    reads_before hlen hsize translated i rank2Job rankIgnoreList hm
  rw [turn, hread, except_ok_bind, if_neg (not_not.mpr hlt), htranslated, except_ok_bind, htr,
    before, before, hsucc]
  generalize (job.workers.take m).filterMap translated = survivors at hle
  have hwrite : writeAt (survivors ++ job.rankList.drop survivors.length) survivors.length new
      = .ok (survivors ++ [new] ++ job.rankList.drop (survivors.length + 1)) :=
    writeAt_rewritten (by omega) new
  have hjob : writeRank2Job (some (rank2Job.fill survivors i)) new i
      = .ok (some (rank2Job.fill (survivors ++ [new]) i)) := by
    rw [writeRank2Job, Table.write_fill hnew]
    rfl
  simp only [hwrite, hjob, Table.write_fill hnew', except_ok_bind, except_pure]
  rw [List.length_append, List.length_singleton, Nat.add_sub_add_right]

/-- One turn either moves the rank forward or drops it, and aborts when it drops the last. -/
theorem Compaction.turn_before (hlen : job.workerCount ≤ job.rankList.length)
    (hsize : ∀ r ∈ job.workers, r < size)
    (htables : ∀ r ∈ job.workers, ∀ k, translated r = some k →
      k < rank2Job.size ∧ k < rankIgnoreList.size)
    (i : ℕ) {m : ℕ} (hm : m < job.workerCount) :
    (before translated job i rank2Job rankIgnoreList m).turn size
        ((List.range size).map translated) i m =
      if ¬(m + 1 = job.workerCount ∧ job.workers.filterMap translated = []) then
        .ok (before translated job i rank2Job rankIgnoreList (m + 1))
      else .error .abort := by
  have hmem : job.rankList[m] ∈ job.workers :=
    List.mem_of_getElem? (Job.getElem?_workers hlen hm)
  cases htr : translated job.rankList[m] with
  | none => exact turn_before_none hlen hsize i hm htr
  | some new =>
    obtain ⟨hnew, hnew'⟩ := htables _ hmem new htr
    have hsurvivor : job.workers.filterMap translated ≠ [] :=
      List.ne_nil_of_mem (List.mem_filterMap.mpr ⟨_, hmem, htr⟩)
    rw [if_pos fun h ↦ hsurvivor h.2]
    exact turn_before_some hlen hsize i hm htr hnew hnew'

/-- **The loop over one job** compacts its list, or aborts when nobody of the job survived. -/
theorem Compaction.loop_turn (hlen : job.workerCount ≤ job.rankList.length)
    (hsize : ∀ r ∈ job.workers, r < size)
    (htables : ∀ r ∈ job.workers, ∀ k, translated r = some k →
      k < rank2Job.size ∧ k < rankIgnoreList.size)
    (hpos : job.workers ≠ []) (i : ℕ) :
    loop (Compaction.turn size ((List.range size).map translated) i) job.workerCount
        ⟨job, 0, some rank2Job, rankIgnoreList⟩ =
      if job.workers.filterMap translated ≠ [] then
        .ok ⟨job.compact translated, (job.workers.filterMap translated).length,
          some (rank2Job.fill (job.workers.filterMap translated) i),
          rankIgnoreList.fill (job.workers.filterMap translated) 0⟩
      else .error .abort := by
  have hworkers : job.workers.length = job.workerCount := Job.length_workers hlen
  have hcount := List.length_pos_iff.mpr hpos
  have hstart : before translated job i rank2Job rankIgnoreList 0
      = ⟨job, 0, some rank2Job, rankIgnoreList⟩ := by
    simp [before, Table.fill_nil]
  have hend : before translated job i rank2Job rankIgnoreList job.workerCount
      = ⟨job.compact translated, (job.workers.filterMap translated).length,
          some (rank2Job.fill (job.workers.filterMap translated) i),
          rankIgnoreList.fill (job.workers.filterMap translated) 0⟩ := by
    have hle : (job.workers.filterMap translated).length ≤ job.workerCount :=
      hworkers ▸ List.length_filterMap_le _ _
    simp only [before, List.take_of_length_le hworkers.le, Nat.sub_sub_self hle]
    rfl
  have hturn : ∀ m < job.workerCount, ∀ c, c = before translated job i rank2Job rankIgnoreList m →
      if ¬(m + 1 = job.workerCount ∧ job.workers.filterMap translated = []) then
        ∃ c', c.turn size ((List.range size).map translated) i m = .ok c' ∧
          c' = before translated job i rank2Job rankIgnoreList (m + 1)
      else c.turn size ((List.range size).map translated) i m = .error .abort := by
    rintro m hm c rfl
    rw [turn_before hlen hsize htables i hm]
    split
    · exact ⟨_, rfl, rfl⟩
    · rfl
  have hrule := loop_rule (fun m c ↦ c = before translated job i rank2Job rankIgnoreList m)
    (fun m ↦ ¬(m + 1 = job.workerCount ∧ job.workers.filterMap translated = [])) hturn rfl
  rw [hstart] at hrule
  -- the last turn aborts, or none does
  have hgood : (∀ m < job.workerCount,
      ¬(m + 1 = job.workerCount ∧ job.workers.filterMap translated = [])) ↔
        job.workers.filterMap translated ≠ [] :=
    ⟨fun h hnone ↦ h (job.workerCount - 1) (by omega) ⟨by omega, hnone⟩, fun h m _ hm ↦ h hm.2⟩
  by_cases hsome : job.workers.filterMap translated ≠ []
  · rw [if_pos (hgood.mpr hsome)] at hrule
    obtain ⟨c, hc, rfl⟩ := hrule
    rw [if_pos hsome, hc, hend]
  · rw [if_neg (mt hgood.mp hsome)] at hrule
    rw [if_neg hsome, hrule]

end OneJob

/-! ## All jobs -/

/-- What the loop over the jobs has done before turn `i`, from the tables of `s`. -/
structure JobTables.Progress {n : ℕ} (L : Layout n) (translated : ℕ → Option ℕ) (s : Process)
    (i : ℕ) (t : JobTables) : Prop where
  jobList : t.jobList = (s.jobList.take i).map (Job.compact translated) ++ s.jobList.drop i
  rank2Job : ∃ start table, s.rank2Job = some start ∧ t.rank2Job = some table ∧
    table.size = start.size ∧ n ≤ table.size ∧
    ∀ k < i, ∀ r ∈ (L.workers k).filterMap translated, table.entry r = k
  rankIgnoreList : n ≤ t.rankIgnoreList.size

namespace Process.Holds

variable {n : ℕ} {L : Layout n} {s : Process} {comm : Group} {p : ℕ} {translated : ℕ → Option ℕ}

theorem length_jobList (h : s.Holds L comm p) : s.jobList.length = L.jobs.length := by
  rw [← h.jobList, List.length_map]

theorem workers_getElem (h : s.Holds L comm p) {i : ℕ} (hi : i < s.jobList.length) :
    s.jobList[i].workers = L.workers i := by
  have hi' : i < L.jobs.length := h.length_jobList ▸ hi
  rw [Layout.workers_eq_getElem hi']
  simp only [← h.jobList, List.getElem_map]

theorem exists_job (h : s.Holds L comm p) {i : ℕ} (hi : i < L.jobs.length) :
    ∃ job, readAt s.jobList i = .ok job ∧ job.workerCount = (L.workers i).length ∧
      ∀ k < job.workerCount, ∃ r < n, (L.workers i)[k]? = some r ∧
        readAt job.rankList k = .ok r := by
  have hlt : i < s.jobList.length := h.length_jobList ▸ hi
  have hworkers := h.workers_getElem hlt
  have halloc := h.allocated _ (List.getElem_mem hlt)
  refine ⟨s.jobList[i], readAt_of_lt hlt, ?_, fun k hk ↦ ?_⟩
  · rw [← hworkers, Job.length_workers halloc]
  · have hget : (L.workers i)[k]? = some s.jobList[i].rankList[k] :=
      hworkers ▸ Job.getElem?_workers halloc hk
    exact ⟨_, Layout.lt_of_mem_workers (List.mem_of_getElem? hget), hget,
      readAt_of_lt (hk.trans_le halloc)⟩

theorem read_rankIgnoreList (h : s.Holds L comm p) {r : ℕ} (hr : r < n) :
    s.rankIgnoreList.read r = .ok (s.rankIgnoreList.entry r) :=
  Table.read_of_lt (hr.trans_le h.rankIgnoreList)

theorem getElem?_first (h : s.Holds L comm p) {i : ℕ} (hi : i < L.jobs.length) :
    ∃ job, s.jobList[i]? = some job ∧ job.rankList[0]? = some (L.master i) := by
  have hlt : i < s.jobList.length := h.length_jobList ▸ hi
  refine ⟨s.jobList[i], List.getElem?_eq_getElem hlt, ?_⟩
  have hhead := Layout.head?_workers hi
  rw [← h.workers_getElem hlt, Job.workers, List.head?_eq_getElem?, List.getElem?_take] at hhead
  exact (Option.ite_none_right_eq_some.mp hhead).2

/-- One turn compacts one more job and clears the marks of its survivors, or aborts when nobody of
it survived. -/
theorem turn_jobTables (h : s.Holds L comm p) (hlt : ∀ r k, translated r = some k → k < n)
    (hinj : ∀ r r' k, translated r = some k → translated r' = some k → r = r') {i : ℕ}
    (hi : i < L.jobs.length) {t : JobTables} (ht : t.Progress L translated s i) :
    if (L.workers i).filterMap translated ≠ [] then
      ∃ t', t.turn n ((List.range n).map translated) i = .ok t' ∧
        t'.Progress L translated s (i + 1) ∧
        t'.rankIgnoreList = t.rankIgnoreList.fill ((L.workers i).filterMap translated) 0
    else t.turn n ((List.range n).map translated) i = .error .abort := by
  obtain ⟨hjobs, ⟨start, table, hstart, htable, hsame, hsize, hentries⟩, hignore⟩ := ht
  have hi' : i < s.jobList.length := h.length_jobList ▸ hi
  have hworkers := h.workers_getElem hi'
  have hlen : ((s.jobList.take i).map (Job.compact translated)).length = i := by
    rw [List.length_map, List.length_take, min_eq_left hi'.le]
  have hread : readAt t.jobList i = .ok s.jobList[i] := by
    have hbehind := readAt_rewritten (l := s.jobList) hlen.le hi'
    rwa [hlen, ← hjobs] at hbehind
  have hranks : ∀ r ∈ s.jobList[i].workers, r < n := by
    rw [hworkers]
    exact fun r hr ↦ Layout.lt_of_mem_workers hr
  have htables : ∀ r ∈ s.jobList[i].workers, ∀ k, translated r = some k →
      k < table.size ∧ k < t.rankIgnoreList.size :=
    fun r _ k hk ↦ ⟨(hlt r k hk).trans_le hsize, (hlt r k hk).trans_le hignore⟩
  have hloop := Compaction.loop_turn (h.allocated _ (List.getElem_mem hi')) hranks htables
    (by rw [hworkers]; exact Layout.workers_ne_nil hi) i
  rw [hworkers] at hloop
  rw [JobTables.turn, hread, except_ok_bind, htable, hloop]
  split
  · have hwrite : writeAt t.jobList i (s.jobList[i].compact translated)
        = .ok ((s.jobList.take (i + 1)).map (Job.compact translated) ++
          s.jobList.drop (i + 1)) := by
      have hbehind := writeAt_rewritten (l := s.jobList) (hlen.trans_lt hi')
        (s.jobList[i].compact translated)
      rw [hlen, ← hjobs] at hbehind
      rw [hbehind, List.take_add_one, List.getElem?_eq_getElem hi', List.map_append]
      rfl
    refine ⟨⟨(s.jobList.take (i + 1)).map (Job.compact translated) ++ s.jobList.drop (i + 1),
      some (table.fill ((L.workers i).filterMap translated) i),
      t.rankIgnoreList.fill ((L.workers i).filterMap translated) 0⟩, ?_, ⟨rfl, ?_, hignore⟩, rfl⟩
    · rw [except_ok_bind, hwrite]
      rfl
    · refine ⟨start, _, hstart, rfl, hsame, hsize, ?_⟩
      intro k hk r hr
      by_cases hri : r ∈ (L.workers i).filterMap translated
      · -- a new rank comes from one old rank only, and that belongs to one job
        obtain ⟨q, hq, hqr⟩ := List.mem_filterMap.mp hr
        obtain ⟨q', hq', hqr'⟩ := List.mem_filterMap.mp hri
        rw [table.entry_fill_of_mem hri]
        rw [hinj q q' r hqr hqr'] at hq
        exact Layout.eq_of_mem_workers hq' hq
      · rw [table.entry_fill_of_notMem hri]
        refine hentries k (lt_of_le_of_ne (by omega) fun hki ↦ hri ?_) r hr
        rwa [← hki]
  · rfl

/-- **The loop over all jobs** compacts every list, or aborts when some job lost its last worker. -/
theorem loop_jobTables (h : s.Holds L comm p) (hlt : ∀ r k, translated r = some k → k < n)
    (hinj : ∀ r r' k, translated r = some k → translated r' = some k → r = r') :
    if ∀ i < L.jobs.length, (L.workers i).filterMap translated ≠ [] then
      ∃ t, loop (JobTables.turn n ((List.range n).map translated)) L.jobs.length
        ⟨s.jobList, s.rank2Job, s.rankIgnoreList⟩ = .ok t ∧
          t.Progress L translated s L.jobs.length ∧
          t.rankIgnoreList = s.rankIgnoreList.fill (L.jobs.flatten.filterMap translated) 0
    else loop (JobTables.turn n ((List.range n).map translated)) L.jobs.length
        ⟨s.jobList, s.rank2Job, s.rankIgnoreList⟩ = .error .abort := by
  obtain ⟨table, htable, hsize, -⟩ := h.rank2Job
  have hturn : ∀ i < L.jobs.length, ∀ t : JobTables, t.Progress L translated s i ∧
      t.rankIgnoreList
        = s.rankIgnoreList.fill ((L.jobs.take i).flatten.filterMap translated) 0 →
      if (L.workers i).filterMap translated ≠ [] then
        ∃ t', t.turn n ((List.range n).map translated) i = .ok t' ∧
          t'.Progress L translated s (i + 1) ∧ t'.rankIgnoreList
            = s.rankIgnoreList.fill ((L.jobs.take (i + 1)).flatten.filterMap translated) 0
      else t.turn n ((List.range n).map translated) i = .error .abort := by
    rintro i hi t ⟨ht, hfill⟩
    have hone := h.turn_jobTables hlt hinj hi ht
    split at hone
    next hlive =>
      obtain ⟨t', ht', hprogress, hfill'⟩ := hone
      rw [if_pos hlive]
      refine ⟨t', ht', hprogress, ?_⟩
      rw [hfill', hfill, Table.fill_fill, List.take_add_one, List.getElem?_eq_getElem hi,
        Layout.workers_eq_getElem hi, List.flatten_append, List.filterMap_append]
      simp
    next hdead => rwa [if_neg hdead]
  have hloop := loop_rule (fun i (t : JobTables) ↦ t.Progress L translated s i ∧ t.rankIgnoreList
      = s.rankIgnoreList.fill ((L.jobs.take i).flatten.filterMap translated) 0)
    (fun i ↦ (L.workers i).filterMap translated ≠ []) hturn
    (s := ⟨s.jobList, s.rank2Job, s.rankIgnoreList⟩)
    ⟨⟨by simp, ⟨table, table, htable, htable, rfl, hsize,
      fun k hk ↦ absurd hk (Nat.not_lt_zero k)⟩, h.rankIgnoreList⟩, by simp [Table.fill_nil]⟩
  rwa [List.take_length] at hloop

end Process.Holds

/-! ## The map of the shrunk world -/

/-- The map after a shrink: every list filtered and renumbered. -/
def Layout.renumber {comm : Group} (L : Layout comm.length) (hcomm : comm.Nodup) (keep : ℕ → Bool)
    (hlive : ∀ ws ∈ L.jobs, ws.filterMap (translate comm (comm.filter keep)) ≠ []) :
    Layout (comm.filter keep).length where
  jobs := L.jobs.map (List.filterMap (translate comm (comm.filter keep)))
  nonempty := by simpa using hlive
  cover := by
    rw [← List.filterMap_flatten, ← filterMap_translate_range hcomm]
    exact L.cover.filterMap _

/-- Renumbering a map that is itself a renumbered one. -/
theorem Layout.jobs_renumber_trans {comm₀ comm : Group} (L : Layout comm.length)
    (hcomm : comm.Nodup) (keep : ℕ → Bool)
    (hlive : ∀ ws ∈ L.jobs, ws.filterMap (translate comm (comm.filter keep)) ≠ [])
    {jobs : List (List ℕ)} (hL : L.jobs = jobs.map (List.filterMap (translate comm₀ comm))) :
    (L.renumber hcomm keep hlive).jobs
      = jobs.map (List.filterMap (translate comm₀ (comm.filter keep))) := by
  change L.jobs.map _ = _
  rw [hL, List.map_map]
  exact List.map_congr_left fun ws _ ↦ filterMap_translate_trans (List.filter_subset_self _) ws

theorem Layout.workers_of_jobs_eq_map {n n' : ℕ} {L : Layout n} {L' : Layout n'}
    {translated : ℕ → Option ℕ} (h : L'.jobs = L.jobs.map (List.filterMap translated)) (i : ℕ) :
    L'.workers i = (L.workers i).filterMap translated := by
  rw [workers, h, workers]
  by_cases hi : i < L.jobs.length
  · rw [List.getD_eq_getElem _ _ (by simpa using hi), List.getD_eq_getElem _ _ hi, List.getElem_map]
  · rw [List.getD_eq_default _ _ (by simpa using hi), List.getD_eq_default _ _ (by omega),
      List.filterMap_nil]

theorem Layout.forall_jobs {n : ℕ} {L : Layout n} {P : List ℕ → Prop} :
    (∀ ws ∈ L.jobs, P ws) ↔ ∀ i < L.jobs.length, P (L.workers i) := by
  constructor
  · exact fun h i hi ↦ h _ (workers_mem hi)
  · intro h ws hws
    obtain ⟨i, hi, rfl⟩ := List.mem_iff_getElem.mp hws
    exact workers_eq_getElem hi ▸ h i hi

theorem Layout.map_translate_self {n : ℕ} (L : Layout n) {comm : Group} (hcomm : comm.Nodup)
    (hn : n ≤ comm.length) : L.jobs.map (List.filterMap (translate comm comm)) = L.jobs := by
  have hself : ∀ ws ∈ L.jobs, ws.filterMap (translate comm comm) = ws := by
    refine forall_jobs.mpr ?_
    intro i _
    have hid : (L.workers i).filterMap (translate comm comm) = (L.workers i).filterMap some :=
      List.filterMap_congr fun r hr ↦ translate_self hcomm ((lt_of_mem_workers hr).trans_le hn)
    rw [hid, List.filterMap_some]
  rw [List.map_congr_left hself, List.map_id']

/-- What a shrink leaves alone besides the tables: it is the state of the new world, and the record
of what happened. -/
structure Process.ShrunkFrom (s' s : Process) (comm comm' acked : Group) : Prop where
  jobId : s'.node.jobId = s.node.jobId
  staticRank : s'.node.staticRank = s.node.staticRank
  jobsCount : s'.node.jobsCount = s.node.jobsCount
  rank : translate comm comm' s.node.rank = some s'.node.rank
  pending : s'.processShrinkingPending = s.processShrinkingPending
  ckptRestore : s'.ckptRestore = s.ckptRestore
  rank2Job : ∃ table table', s.rank2Job = some table ∧ s'.rank2Job = some table' ∧
    table'.size = table.size
  failed : s'.lastGroupFailed = acked
  previous : s'.previousWorldGroup = comm

namespace Process

/-- The process `p` after the shrink to `comm'`, with the compacted tables `t` and with `first` the
first survivor of its own job. -/
def withTables (s : Process) (comm comm' acked : Group) (p first : ℕ) (t : JobTables) : Process :=
  { s with
    node := { s.node with
      rank := comm'.idxOf p
      nodeCheckpointMaster := if first = comm'.idxOf p then .yes else .no
      repMpiCommWorld := comm' }
    jobList := t.jobList
    rank2Job := t.rank2Job
    rankIgnoreList := t.rankIgnoreList
    lastGroupFailed := acked
    previousWorldGroup := comm }

namespace Holds

variable {comm comm' acked : Group} {L : Layout comm.length} {s : Process} {p first : ℕ}
  {translated : ℕ → Option ℕ} {t : JobTables}

theorem jobList_progress (h : s.Holds L comm p)
    (ht : t.Progress L translated s L.jobs.length) :
    t.jobList = s.jobList.map (Job.compact translated) := by
  rw [ht.jobList, ← h.length_jobList, List.take_length, List.drop_length, List.append_nil]

/-- The compacted tables are those of the renumbered map. -/
theorem withTables (h : s.Holds L comm p) (hp : p ∈ comm') (hle : comm'.length ≤ comm.length)
    (ht : t.Progress L translated s L.jobs.length) {L' : Layout comm'.length}
    (hL' : L'.jobs = L.jobs.map (List.filterMap translated)) :
    (s.withTables comm comm' acked p first t).Holds L' comm' p := by
  have hjobList := h.jobList_progress ht
  have hworkers := Layout.workers_of_jobs_eq_map hL'
  obtain ⟨-, ⟨start, table, hstart, htable, hsame, hsize, hentries⟩, hignore⟩ := ht
  refine ⟨rfl, List.getElem?_idxOf hp, ?_, ?_, ?_, ?_, hle.trans hignore⟩
  · rw [hL', List.length_map]
    exact h.jobsCount
  · change t.jobList.map Job.workers = L'.jobs
    rw [hjobList, List.map_map, hL', ← h.jobList, List.map_map]
    exact List.map_congr_left fun job _ ↦ Job.workers_compact _ job
  · intro job hjob
    change job ∈ t.jobList at hjob
    rw [hjobList] at hjob
    obtain ⟨job', -, rfl⟩ := List.mem_map.mp hjob
    exact Job.workerCount_compact_le _ job'
  · refine ⟨table, htable, hle.trans hsize, ?_⟩
    intro k r hr
    rw [hworkers] at hr
    obtain ⟨q, hq, -⟩ := List.mem_filterMap.mp hr
    exact hentries k (Layout.lt_length_of_mem_workers hq) r hr

/-- **`update_job_list` up to the end of its loops**: it aborts exactly when some job lost its last
worker, and otherwise has compacted the lists and goes on to the list of its own job. -/
theorem shrink_eq {keep : ℕ → Bool} (h : s.Holds L comm p) (hcomm : comm.Nodup)
    (hp : p ∈ comm.filter keep) (acked : Group) :
    if ∀ i < L.jobs.length, (L.workers i).filterMap (translate comm (comm.filter keep)) ≠ [] then
      ∃ t : JobTables, t.Progress L (translate comm (comm.filter keep)) s L.jobs.length ∧
        t.rankIgnoreList = s.rankIgnoreList.fill
          (L.jobs.flatten.filterMap (translate comm (comm.filter keep))) 0 ∧
        s.shrink (comm.filter keep) acked = do
          let job ← Process.ownJob { s with jobList := t.jobList }
          let first ← readAt job.rankList 0
          return s.withTables comm (comm.filter keep) acked p first t
    else s.shrink (comm.filter keep) acked = .error .abort := by
  set comm' := comm.filter keep with hcomm'
  have hrank : translate comm comm' s.node.rank = some (comm'.idxOf p) :=
    translate_eq_some_iff.mpr ⟨p, h.rank, hp, rfl⟩
  have hranklt : s.node.rank < comm.length := (List.getElem?_eq_some_iff.mp h.rank).1
  have hreadRank : readAt ((List.range comm.length).map (translate comm comm')) s.node.rank
      = .ok (some (comm'.idxOf p)) := by
    apply readAt_eq
    rw [List.getElem?_map, List.getElem?_range hranklt, Option.map_some, hrank]
  have hlt : ∀ r k, translate comm comm' r = some k → k < comm.length := fun r k hk ↦
    (translate_lt_length hk).trans_le (List.length_filter_le _ _)
  have hloop := h.loop_jobTables hlt fun r r' k ↦ translate_inj hcomm
  rw [Process.shrink, h.comm, Process.updateJobList]
  dsimp only
  rw [h.jobsCount]
  split
  next hlive =>
    rw [if_pos hlive] at hloop
    obtain ⟨t, ht, hprogress, hfill⟩ := hloop
    refine ⟨t, hprogress, hfill, ?_⟩
    rw [ht, except_ok_bind, hreadRank, except_ok_bind]
    dsimp only
    have hown : Process.ownJob ⟨s.node, t.jobList, t.rank2Job, t.rankIgnoreList, s.ckptRestore,
        s.processShrinkingPending, acked, comm⟩ = Process.ownJob { s with jobList := t.jobList } :=
      rfl
    rw [hown]
    cases Process.ownJob { s with jobList := t.jobList } with
    | error e => rfl
    | ok job =>
      simp only [except_ok_bind]
      cases readAt job.rankList 0 with
      | error e => rfl
      | ok first =>
        rw [← h.jobsCount]
        rfl
  next hdead =>
    rw [if_neg hdead] at hloop
    rw [hloop]
    rfl

/-- **What a shrink that returns leaves**, whatever `job_id` is: every job has a survivor, the lists
are those of the renumbered map, and no rank of the new world is marked. -/
theorem of_shrink {keep : ℕ → Bool} (h : s.Holds L comm p) (hcomm : comm.Nodup)
    (hp : p ∈ comm.filter keep) {s' : Process} (hs : s.shrink (comm.filter keep) acked = .ok s') :
    (∀ i < L.jobs.length, (L.workers i).filterMap (translate comm (comm.filter keep)) ≠ []) ∧
      s'.ShrunkFrom s comm (comm.filter keep) acked ∧
      (∀ L' : Layout (comm.filter keep).length,
        L'.jobs = L.jobs.map (List.filterMap (translate comm (comm.filter keep))) →
          s'.Holds L' (comm.filter keep) p) ∧
      ∀ r < (comm.filter keep).length, s'.rankIgnoreList.entry r = 0 := by
  have hrank : translate comm (comm.filter keep) s.node.rank = some ((comm.filter keep).idxOf p) :=
    translate_eq_some_iff.mpr ⟨p, h.rank, hp, rfl⟩
  have hshrink := h.shrink_eq hcomm hp acked
  split at hshrink
  next hlive =>
    obtain ⟨t, hprogress, hfill, heq⟩ := hshrink
    obtain ⟨job, -, hs⟩ := except_bind_eq_ok.mp (heq.symm.trans hs)
    obtain ⟨first, -, hs⟩ := except_bind_eq_ok.mp hs
    obtain rfl := Except.ok.inj hs
    obtain ⟨start, table, hstart, htable, hsame, -⟩ := hprogress.rank2Job
    refine ⟨hlive, ⟨rfl, rfl, rfl, hrank, rfl, rfl, ⟨start, table, hstart, htable, hsame⟩, rfl,
      rfl⟩, fun L' hL' ↦ h.withTables hp (List.length_filter_le _ _) hprogress hL', ?_⟩
    intro r hr
    change t.rankIgnoreList.entry r = 0
    rw [hfill]
    refine Table.entry_fill_of_mem _ ?_ 0
    -- every new rank is the rank of a survivor, and the loop has cleared those
    have hcover := L.cover.filterMap (translate comm (comm.filter keep))
    rw [filterMap_translate_range hcomm] at hcover
    exact hcover.mem_iff.mpr (List.mem_range.mpr hr)
  next => exact absurd (hs.symm.trans hshrink) (by simp)

end Holds

namespace Shares

variable {comm comm' acked : Group} {L : Layout comm.length} {s : Process} {p first : ℕ}
  {translated : ℕ → Option ℕ} {t : JobTables}

/-- The process also finds its place in the renumbered map, if `first` is the first survivor of its
own job. -/
theorem withTables (h : s.Shares L comm p) (hp : p ∈ comm')
    (hle : comm'.length ≤ comm.length) (ht : t.Progress L translated s L.jobs.length)
    (hrank : translated s.node.rank = some (comm'.idxOf p))
    (hfirst : ∀ i : ℕ, s.node.jobId = i →
      ((L.workers i).filterMap translated).head? = some first)
    {L' : Layout comm'.length} (hL' : L'.jobs = L.jobs.map (List.filterMap translated)) :
    (s.withTables comm comm' acked p first t).Shares L' comm' p := by
  have hworkers := Layout.workers_of_jobs_eq_map hL'
  obtain ⟨i, hi, hmem⟩ := h.job
  refine ⟨h.toHolds.withTables hp hle ht hL', ⟨i, hi, ?_⟩, fun k hk ↦ ?_⟩
  · rw [hworkers]
    exact List.mem_filterMap.mpr ⟨_, hmem, hrank⟩
  · -- the checkpoint master is the first survivor of the job the process works in
    have hki : k = i := by exact_mod_cast hk.symm.trans hi
    have hmaster : L'.master k = first := by
      rw [Layout.master, hki, hworkers, List.headD_eq_head?_getD, hfirst i hi, Option.getD_some]
    rw [hmaster]
    by_cases hfr : first = comm'.idxOf p
    · simp [Process.withTables, hfr]
    · simp [Process.withTables, hfr, Ne.symm hfr]

/-- **`update_job_list` at a survivor.** It aborts exactly when some job lost its last worker, and
otherwise leaves the tables of the renumbered map. -/
theorem shrink_eq {keep : ℕ → Bool} (h : s.Shares L comm p) (hcomm : comm.Nodup)
    (hp : p ∈ comm.filter keep) (acked : Group) :
    if ∀ i < L.jobs.length, (L.workers i).filterMap (translate comm (comm.filter keep)) ≠ [] then
      ∃ s', s.shrink (comm.filter keep) acked = .ok s' ∧
        s'.ShrunkFrom s comm (comm.filter keep) acked ∧
        ∀ L' : Layout (comm.filter keep).length,
          L'.jobs = L.jobs.map (List.filterMap (translate comm (comm.filter keep))) →
            s'.Shares L' (comm.filter keep) p
    else s.shrink (comm.filter keep) acked = .error .abort := by
  have hshrink := h.toHolds.shrink_eq hcomm hp acked
  split at hshrink
  next hlive =>
    rw [if_pos hlive]
    obtain ⟨t, hprogress, -, heq⟩ := hshrink
    obtain ⟨i, hi, hmem⟩ := h.job
    have hilen := Layout.lt_length_of_mem_workers hmem
    have hi' : i < s.jobList.length := h.length_jobList ▸ hilen
    -- the own job has a survivor, so the read of its first rank is defined
    obtain ⟨first, hfirst⟩ : ∃ first,
        ((L.workers i).filterMap (translate comm (comm.filter keep))).head? = some first :=
      Option.isSome_iff_exists.mp (List.isSome_head?.mpr (hlive i hilen))
    have hown : Process.ownJob { s with jobList := t.jobList }
        = .ok (s.jobList[i].compact (translate comm (comm.filter keep))) := by
      rw [Process.ownJob, hi, if_neg (by omega), Int.toNat_natCast]
      apply readAt_eq
      rw [h.jobList_progress hprogress, List.getElem?_map, List.getElem?_eq_getElem hi']
      rfl
    have hread : readAt (s.jobList[i].compact (translate comm (comm.filter keep))).rankList 0
        = .ok first := Job.readAt_compact_zero (by rw [h.workers_getElem hi']; exact hfirst)
    have hok : s.shrink (comm.filter keep) acked
        = .ok (s.withTables comm (comm.filter keep) acked p first t) := by
      rw [heq, hown, except_ok_bind, hread]
      rfl
    obtain ⟨-, hfrom, -, -⟩ := h.toHolds.of_shrink hcomm hp hok
    refine ⟨_, hok, hfrom, fun L' hL' ↦ ?_⟩
    refine h.withTables hp (List.length_filter_le _ _) hprogress hfrom.rank ?_ hL'
    intro k hk
    have hki : k = i := by exact_mod_cast hk.symm.trans hi
    rw [hki, hfirst]
  next hdead => rwa [if_neg hdead]

end Shares

end Process

/-! ## All survivors -/

namespace World

/-- Every process of the world holds the map `L`. -/
def Holds (w : World) (L : Layout w.comm.length) : Prop :=
  ∀ p ∈ w.comm, (w.proc p).Holds L w.comm p

/-- Every process of the world holds the map `L` and knows its place in it. -/
def Shares (w : World) (L : Layout w.comm.length) : Prop :=
  ∀ p ∈ w.comm, (w.proc p).Shares L w.comm p

theorem Shares.holds {w : World} {L : Layout w.comm.length} (h : w.Shares L) : w.Holds L :=
  fun p hp ↦ (h p hp).toHolds

theorem Shares.follows {w : World} {L : Layout w.comm.length} (h : w.Shares L) : w.Follows L :=
  fun p hp ↦ (h p hp).follows

theorem Shares.updateComms {w : World} {L : Layout w.comm.length} (h : w.Shares L) :
    w.updateComms.Shares L := fun p hp ↦ { h p hp with }

theorem Holds.live_of_returns {w : World} {L : Layout w.comm.length} (h : w.Holds L)
    (hcomm : w.comm.Nodup) {keep : ℕ → Bool} {acked : ℕ → Group} (hret : w.ShrinkReturns keep acked)
    (hne : w.comm.filter keep ≠ []) :
    ∀ i < L.jobs.length,
      (L.workers i).filterMap (translate w.comm (w.comm.filter keep)) ≠ [] := by
  obtain ⟨p, hp⟩ := List.exists_mem_of_ne_nil _ hne
  obtain ⟨s, hs⟩ := hret p hp
  exact ((h p (List.mem_of_mem_filter hp)).of_shrink hcomm hp hs).1

theorem proc_shrink {w : World} {keep : ℕ → Bool} {acked : ℕ → Group} {p : ℕ} {s : Process}
    (hs : (w.proc p).shrink (w.comm.filter keep) (acked p) = .ok s) :
    ∃ activeComm worldJobComm, (w.shrink keep acked).proc p = { s with
      node := { s.node with activeComm := activeComm, worldJobComm := worldJobComm } } := by
  simp only [shrink, World.updateComms, World.node, hs]
  exact ⟨_, _, rfl⟩

/-- **One shrink of the world** leaves the survivors with one renumbered map. -/
theorem Shares.shrink {w : World} {L : Layout w.comm.length} (h : w.Shares L)
    (hcomm : w.comm.Nodup) {keep : ℕ → Bool} (acked : ℕ → Group)
    (hlive : ∀ i < L.jobs.length,
      (L.workers i).filterMap (translate w.comm (w.comm.filter keep)) ≠ []) :
    w.ShrinkReturns keep acked ∧
      (∀ p ∈ w.comm.filter keep, ((w.shrink keep acked).proc p).ShrunkFrom (w.proc p) w.comm
        (w.comm.filter keep) (acked p)) ∧
      (w.shrink keep acked).Shares (L.renumber hcomm keep (Layout.forall_jobs.mpr hlive)) := by
  have hproc : ∀ p ∈ w.comm.filter keep,
      ∃ s, (w.proc p).shrink (w.comm.filter keep) (acked p) = .ok s ∧
        s.ShrunkFrom (w.proc p) w.comm (w.comm.filter keep) (acked p) ∧
        s.Shares (L.renumber hcomm keep (Layout.forall_jobs.mpr hlive)) (w.comm.filter keep) p := by
    intro p hp
    have hshrink := (h p (List.mem_of_mem_filter hp)).shrink_eq hcomm hp (acked p)
    rw [if_pos hlive] at hshrink
    obtain ⟨s, hs, hfrom, hshares⟩ := hshrink
    exact ⟨s, hs, hfrom, hshares _ rfl⟩
  refine ⟨fun p hp ↦ (hproc p hp).imp fun _ hs ↦ hs.1, ?_, ?_⟩
  · intro p hp
    obtain ⟨s, hs, hfrom, -⟩ := hproc p hp
    obtain ⟨activeComm, worldJobComm, heq⟩ := proc_shrink hs
    rw [heq]
    exact { hfrom with }
  · intro p hp
    obtain ⟨s, hs, -, hshares⟩ := hproc p hp
    obtain ⟨activeComm, worldJobComm, heq⟩ := proc_shrink hs
    rw [heq]
    exact { hshares with }

/-- A shrink that returns leaves the survivors holding one renumbered map without marks, whatever
their job ids are. -/
theorem Holds.shrink {w : World} {L : Layout w.comm.length} (h : w.Holds L) (hcomm : w.comm.Nodup)
    {keep : ℕ → Bool} {acked : ℕ → Group} (hret : w.ShrinkReturns keep acked)
    (hlive : ∀ i < L.jobs.length,
      (L.workers i).filterMap (translate w.comm (w.comm.filter keep)) ≠ []) :
    (w.shrink keep acked).Holds (L.renumber hcomm keep (Layout.forall_jobs.mpr hlive)) ∧
      ∀ p ∈ w.comm.filter keep,
        ((w.shrink keep acked).proc p).ShrunkFrom (w.proc p) w.comm (w.comm.filter keep)
          (acked p) ∧
        ∀ r < (w.comm.filter keep).length,
          ((w.shrink keep acked).proc p).rankIgnoreList.entry r = 0 := by
  have hproc : ∀ p ∈ w.comm.filter keep,
      ((w.shrink keep acked).proc p).Holds (L.renumber hcomm keep (Layout.forall_jobs.mpr hlive))
        (w.comm.filter keep) p ∧
      ((w.shrink keep acked).proc p).ShrunkFrom (w.proc p) w.comm (w.comm.filter keep)
        (acked p) ∧
      ∀ r < (w.comm.filter keep).length,
        ((w.shrink keep acked).proc p).rankIgnoreList.entry r = 0 := by
    intro p hp
    obtain ⟨s, hs⟩ := hret p hp
    obtain ⟨activeComm, worldJobComm, heq⟩ := proc_shrink hs
    obtain ⟨-, hfrom, hholds, hzero⟩ := (h p (List.mem_of_mem_filter hp)).of_shrink hcomm hp hs
    rw [heq]
    exact ⟨{ hholds _ rfl with }, { hfrom with }, hzero⟩
  exact ⟨fun p hp ↦ (hproc p hp).1, fun p hp ↦ (hproc p hp).2⟩

/-! ## Any number of shrinks -/

/-- The state of the world `w` that shrinks have led to from `w₀`: the survivors share the first
map, filtered and renumbered once. -/
structure Renumbered (w₀ : World) (L₀ : Layout w₀.comm.length) (w : World) : Prop where
  subset : w.comm ⊆ w₀.comm
  nodup : w.comm.Nodup
  shares : w.comm ≠ [] → ∃ L : Layout w.comm.length,
    L.jobs = L₀.jobs.map (List.filterMap (translate w₀.comm w.comm)) ∧ w.Shares L ∧
      ∀ p ∈ w.comm, (w.node p).jobId = (w₀.node p).jobId

theorem Shares.renumbered {w₀ : World} {L₀ : Layout w₀.comm.length} (h : w₀.Shares L₀)
    (hcomm : w₀.comm.Nodup) : Renumbered w₀ L₀ w₀ where
  subset := List.Subset.refl _
  nodup := hcomm
  shares _ := by
    refine ⟨L₀, ?_, h, fun _ _ ↦ rfl⟩
    rw [L₀.map_translate_self hcomm le_rfl]

theorem Renumbered.step {w₀ w w' : World} {L₀ : Layout w₀.comm.length} (h : Renumbered w₀ L₀ w)
    (hstep : w.Shrinks w') : Renumbered w₀ L₀ w' := by
  obtain ⟨keep, acked, hret, rfl⟩ := hstep
  refine ⟨fun p hp ↦ h.subset (List.mem_of_mem_filter hp), h.nodup.filter _, ?_⟩
  intro hne
  have hne' : w.comm.filter keep ≠ [] := hne
  obtain ⟨L, hL, hshares, hjobId⟩ := h.shares fun hnil ↦ hne' (by rw [hnil, List.filter_nil])
  have hlive := hshares.holds.live_of_returns h.nodup hret hne'
  obtain ⟨-, hfrom, hshares'⟩ := hshares.shrink h.nodup acked hlive
  refine ⟨L.renumber h.nodup keep (Layout.forall_jobs.mpr hlive), ?_, hshares', ?_⟩
  · exact L.jobs_renumber_trans h.nodup keep _ hL
  · intro p hp
    exact (hfrom p hp).jobId.trans (hjobId p (List.mem_of_mem_filter hp))

theorem Renumbered.run {w₀ w : World} {L₀ : Layout w₀.comm.length} (hw₀ : w₀.Shares L₀)
    (hcomm : w₀.comm.Nodup) (hrun : Relation.ReflTransGen Shrinks w₀ w) : Renumbered w₀ L₀ w := by
  induction hrun with
  | refl => exact hw₀.renumbered hcomm
  | tail _ hstep ih => exact ih.step hstep

/-- What one more `update_job_list` does in the world `w`, to which shrinks have led from `w₀`. -/
structure ShrinkSound (w₀ : World) (L₀ : Layout w₀.comm.length) (w : World) : Prop where
  /-- It calls `PMPI_Abort` exactly when no worker of some job lives on. -/
  abort : ∀ keep acked, ∀ p ∈ w.comm.filter keep,
    (w.proc p).shrink (w.comm.filter keep) acked = .error .abort ↔
      ∃ i < L₀.jobs.length, ∀ r ∈ L₀.workers i, w₀.procAt r ∉ w.comm.filter keep
  /-- It ends in no other way early: no assertion fires, no access leaves its array. -/
  fault : ∀ keep acked, ∀ p ∈ w.comm.filter keep, ∀ e,
    (w.proc p).shrink (w.comm.filter keep) acked = .error e → e = .abort
  /-- Every survivor holds the same map of the smaller world: the first one, with each list filtered
  to the living and renumbered in its order. Its own job is still the one it started in. -/
  lists : ∀ w', w.Shrinks w' → ∀ p ∈ w'.comm, ∃ L : Layout w'.comm.length,
    L.jobs = L₀.jobs.map (List.filterMap (translate w₀.comm w'.comm)) ∧
      (w'.proc p).Shares L w'.comm p ∧ (w'.node p).jobId = (w₀.node p).jobId

theorem filterMap_translate_eq_nil_iff {w₀ : World} {L₀ : Layout w₀.comm.length} {comm : Group}
    {i : ℕ} : (L₀.workers i).filterMap (translate w₀.comm comm) = [] ↔
      ∀ r ∈ L₀.workers i, w₀.procAt r ∉ comm := by
  rw [List.filterMap_eq_nil_iff]
  apply forall₂_congr
  intro r hr
  rw [Renumbering.translate, getElem?_comm (Layout.lt_of_mem_workers hr), Option.bind_some]
  split
  next h => simp [h]
  next h => simp [h]

/-- The next `update_job_list` at a survivor, in terms of the first map. -/
theorem Renumbered.shrink_eq {w₀ w : World} {L₀ : Layout w₀.comm.length} (h : Renumbered w₀ L₀ w)
    {keep : ℕ → Bool} {p : ℕ} (hp : p ∈ w.comm.filter keep) (acked : Group) :
    if ∃ i < L₀.jobs.length, ∀ r ∈ L₀.workers i, w₀.procAt r ∉ w.comm.filter keep then
      (w.proc p).shrink (w.comm.filter keep) acked = .error .abort
    else ∃ s, (w.proc p).shrink (w.comm.filter keep) acked = .ok s := by
  have hmem := List.mem_of_mem_filter hp
  obtain ⟨L, hL, hw, -⟩ := h.shares (List.ne_nil_of_mem hmem)
  have hshrink := (hw p hmem).shrink_eq h.nodup hp acked
  -- a worker of the present map is alive exactly when the worker of the first map it comes from is
  have hlist : ∀ i, (L.workers i).filterMap (translate w.comm (w.comm.filter keep))
      = (L₀.workers i).filterMap (translate w₀.comm (w.comm.filter keep)) := by
    intro i
    rw [Layout.workers_of_jobs_eq_map hL]
    exact filterMap_translate_trans (List.filter_subset_self _) _
  have hlen : L.jobs.length = L₀.jobs.length := by rw [hL, List.length_map]
  simp only [hlist, hlen, ne_eq, filterMap_translate_eq_nil_iff] at hshrink
  split
  next hdead =>
    obtain ⟨i, hi, hnone⟩ := hdead
    rwa [if_neg fun h ↦ h i hi hnone] at hshrink
  next hlive =>
    rw [if_pos fun i hi hnone ↦ hlive ⟨i, hi, hnone⟩] at hshrink
    obtain ⟨s, hs, -⟩ := hshrink
    exact ⟨s, hs⟩

/-- **Any number of shrinks** keeps one map at all survivors, and a shrink aborts only when a job
lost its last worker. -/
theorem Shares.shrinkSound {w₀ w : World} {L₀ : Layout w₀.comm.length} (hw₀ : w₀.Shares L₀)
    (hcomm : w₀.comm.Nodup) (hrun : Relation.ReflTransGen Shrinks w₀ w) :
    ShrinkSound w₀ L₀ w := by
  have hrenumbered := Renumbered.run hw₀ hcomm hrun
  refine ⟨?_, ?_, ?_⟩
  · intro keep acked p hp
    have h := hrenumbered.shrink_eq hp acked
    split at h
    next hdead => exact iff_of_true h hdead
    next hlive =>
      obtain ⟨s, hs⟩ := h
      exact iff_of_false (by rw [hs]; simp) hlive
  · intro keep acked p hp e he
    have h := hrenumbered.shrink_eq hp acked
    split at h
    next => exact (Except.error.inj (he.symm.trans h))
    next =>
      obtain ⟨s, hs⟩ := h
      rw [hs] at he
      exact absurd he (by simp)
  · intro w' hstep p hp
    obtain ⟨L, hL, hw, hjobId⟩ := (hrenumbered.step hstep).shares (List.ne_nil_of_mem hp)
    exact ⟨L, hL, hw p hp, hjobId p hp⟩

end World

end EntangledMPI
