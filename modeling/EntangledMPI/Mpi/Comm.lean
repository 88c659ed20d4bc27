import EntangledMPI.Library.GroupSplit
import EntangledMPI.Mpi.MapFile
import Mathlib.Data.List.GetD

/-!
# Job maps and the communicators built from them

A `Layout n` is a job map as the processes mean it: every rank below `n` in exactly one job, and no
job empty. It is the abstract side of the tables `job_list` and `rank_2_job`, which hold it in a
process that `Holds` it, and of the fields `job_id` and `node_checkpoint_master`, which fit it as
well in a process that `Shares` it.

`update_comms` then splits the world twice. The first split keeps the masters, keyed by job id, so
position `i` of `active_comm` must be the master of job `i`; the second keeps one job, the master
keyed before the rest.

## Main result

`updateComms_commsMatch_iff`: the two communicators are what the collectives take them to be exactly
when the fields of `node` are `Numbered` by the map. The lists of the map do not make them so:
`parse_map_file` sets `job_id` only in a row whose update bit is `1`.
-/

namespace EntangledMPI

/-! ## Job maps -/

/-- A job map over the ranks below `n`: the worker lists of the jobs, in the order of the job ids.
The order inside a list is free, and its first rank is the master. -/
structure Layout (n : ℕ) where
  jobs : List (List ℕ)
  nonempty : ∀ ws ∈ jobs, ws ≠ []
  cover : jobs.flatten.Perm (List.range n)

namespace Layout

variable {n : ℕ} (L : Layout n)

/-- The worker list of job `i`; empty past the last job. -/
def workers (i : ℕ) : List ℕ := L.jobs.getD i []

variable {L}

theorem workers_eq_getElem {i : ℕ} (hi : i < L.jobs.length) : L.workers i = L.jobs[i] :=
  List.getD_eq_getElem _ _ hi

theorem lt_length_of_mem_workers {i r : ℕ} (h : r ∈ L.workers i) : i < L.jobs.length := by
  by_contra hi
  rw [workers, List.getD_eq_default _ _ (by omega)] at h
  exact absurd h List.not_mem_nil

theorem workers_mem {i : ℕ} (hi : i < L.jobs.length) : L.workers i ∈ L.jobs := by
  rw [workers_eq_getElem hi]
  exact List.getElem_mem hi

theorem workers_ne_nil {i : ℕ} (hi : i < L.jobs.length) : L.workers i ≠ [] :=
  L.nonempty _ (workers_mem hi)

theorem nodup_flatten (L : Layout n) : L.jobs.flatten.Nodup :=
  L.cover.nodup_iff.mpr List.nodup_range

theorem nodup_workers (L : Layout n) (i : ℕ) : (L.workers i).Nodup := by
  by_cases hi : i < L.jobs.length
  · exact (List.nodup_flatten.mp L.nodup_flatten).1 _ (workers_mem hi)
  · rw [workers, List.getD_eq_default _ _ (by omega)]
    exact List.nodup_nil

/-- **A rank is in one job only.** -/
theorem eq_of_mem_workers {i k r : ℕ} (hi : r ∈ L.workers i) (hk : r ∈ L.workers k) : i = k := by
  have hdisjoint := (List.nodup_flatten.mp L.nodup_flatten).2
  have hilen := lt_length_of_mem_workers hi
  have hklen := lt_length_of_mem_workers hk
  rw [workers_eq_getElem hilen] at hi
  rw [workers_eq_getElem hklen] at hk
  rcases lt_trichotomy i k with hlt | heq | hlt
  · exact absurd hk (List.disjoint_left.mp (List.pairwise_iff_getElem.mp hdisjoint i k _ _ hlt) hi)
  · exact heq
  · exact absurd hi (List.disjoint_left.mp (List.pairwise_iff_getElem.mp hdisjoint k i _ _ hlt) hk)

theorem lt_of_mem_workers {i r : ℕ} (h : r ∈ L.workers i) : r < n := by
  have hmem : r ∈ L.jobs.flatten :=
    List.mem_flatten.mpr ⟨_, workers_mem (lt_length_of_mem_workers h), h⟩
  exact List.mem_range.mp (L.cover.mem_iff.mp hmem)

theorem exists_mem_workers (L : Layout n) {r : ℕ} (hr : r < n) : ∃ i, r ∈ L.workers i := by
  obtain ⟨ws, hws, hmem⟩ := List.mem_flatten.mp (L.cover.mem_iff.mpr (List.mem_range.mpr hr))
  obtain ⟨i, hi, rfl⟩ := List.mem_iff_getElem.mp hws
  exact ⟨i, by rw [workers_eq_getElem hi]; exact hmem⟩

theorem exists_jobs_eq {m : ℕ} (L : Layout n) (h : n = m) : ∃ L' : Layout m, L'.jobs = L.jobs := by
  subst h
  exact ⟨L, rfl⟩

/-- The master of job `i`. -/
def master (L : Layout n) (i : ℕ) : ℕ := (L.workers i).headD 0

theorem head?_workers {i : ℕ} (hi : i < L.jobs.length) :
    (L.workers i).head? = some (L.master i) := by
  rw [master]
  cases h : L.workers i with
  | nil => exact absurd h (workers_ne_nil hi)
  | cons r rest => rfl

theorem master_mem_workers {i : ℕ} (hi : i < L.jobs.length) : L.master i ∈ L.workers i :=
  List.mem_of_mem_head? (head?_workers hi)

end Layout

/-! ## What a process that holds the map stores -/

/-- The fields of `node` for the process `p` of the communicator `world` under the map `L`. -/
structure Node.Follows {n : ℕ} (node : Node) (L : Layout n) (world : Group) (p : ℕ) : Prop where
  comm : node.repMpiCommWorld = world
  rank : world[node.rank]? = some p
  jobsCount : node.jobsCount = L.jobs.length
  job : ∃ i : ℕ, node.jobId = i ∧ node.rank ∈ L.workers i
  master : ∀ i : ℕ, node.jobId = i →
    (node.nodeCheckpointMaster = .yes ↔ node.rank = L.master i)

/-- The lists and tables of the process `p` hold the map `L`. What `job_id` and
`node_checkpoint_master` are is left open. -/
structure Process.Holds {n : ℕ} (s : Process) (L : Layout n) (world : Group) (p : ℕ) : Prop where
  comm : s.node.repMpiCommWorld = world
  rank : world[s.node.rank]? = some p
  jobsCount : s.node.jobsCount = L.jobs.length
  jobList : s.jobList.map Job.workers = L.jobs
  allocated : ∀ job ∈ s.jobList, job.workerCount ≤ job.rankList.length
  rank2Job : ∃ table, s.rank2Job = some table ∧ n ≤ table.size ∧
    ∀ i, ∀ r ∈ L.workers i, table.entry r = i
  rankIgnoreList : n ≤ s.rankIgnoreList.size

/-- The process `p` holds the map `L` and knows its own place in it. -/
structure Process.Shares {n : ℕ} (s : Process) (L : Layout n) (world : Group) (p : ℕ) : Prop
    extends s.Holds L world p where
  job : ∃ i : ℕ, s.node.jobId = i ∧ s.node.rank ∈ L.workers i
  master : ∀ i : ℕ, s.node.jobId = i →
    (s.node.nodeCheckpointMaster = .yes ↔ s.node.rank = L.master i)

theorem Process.Shares.follows {n : ℕ} {s : Process} {L : Layout n} {world : Group} {p : ℕ}
    (h : s.Shares L world p) : s.node.Follows L world p :=
  ⟨h.comm, h.rank, h.jobsCount, h.job, h.master⟩

/-! ## The tables of a process that has just been given a map -/

namespace Layout

variable {n : ℕ}

/-- The job that lists rank `r`. -/
def jobOf (L : Layout n) (r : ℕ) : ℕ := L.jobs.findIdx fun ws ↦ decide (r ∈ ws)

theorem mem_workers_jobOf {L : Layout n} {r : ℕ} (hr : r < n) : r ∈ L.workers (L.jobOf r) := by
  obtain ⟨i, hi⟩ := L.exists_mem_workers hr
  have hex : ∃ ws ∈ L.jobs, decide (r ∈ ws) = true :=
    ⟨_, workers_mem (lt_length_of_mem_workers hi), by simpa using hi⟩
  have hlt : L.jobOf r < L.jobs.length := List.findIdx_lt_length.mpr hex
  have hget := List.findIdx_getElem (w := hlt)
  rw [workers_eq_getElem hlt]
  exact of_decide_eq_true hget

theorem jobOf_eq {L : Layout n} {i r : ℕ} (h : r ∈ L.workers i) : L.jobOf r = i :=
  eq_of_mem_workers (mem_workers_jobOf (lt_of_mem_workers h)) h

/-- The globals of process `p` of `comm` when its tables hold the map and no failure was seen. -/
def process (L : Layout n) (comm : Group) (p : ℕ) : Process where
  node :=
    { jobId := L.jobOf (comm.idxOf p)
      rank := comm.idxOf p
      staticRank := p
      age := 1
      jobsCount := L.jobs.length
      nodeTransitState := .none
      nodeCheckpointMaster := if comm.idxOf p = L.master (L.jobOf (comm.idxOf p)) then .yes else .no
      repMpiCommWorld := comm
      worldJobComm := none
      activeComm := none }
  jobList := L.jobs.mapIdx fun i ws ↦ ⟨i, ws.length, ws⟩
  rank2Job := some ⟨n, L.jobOf⟩
  rankIgnoreList := ⟨n, fun _ ↦ 0⟩
  ckptRestore := .no
  processShrinkingPending := false
  lastGroupFailed := []
  previousWorldGroup := []

theorem process_shares (L : Layout n) {comm : Group} (hn : comm.length = n) {p : ℕ}
    (hp : p ∈ comm) : (L.process comm p).Shares L comm p where
  comm := rfl
  rank := List.getElem?_idxOf hp
  jobsCount := rfl
  job := ⟨_, rfl, mem_workers_jobOf (hn ▸ List.idxOf_lt_length_of_mem hp)⟩
  master i hi := by
    have hji : L.jobOf (comm.idxOf p) = i := Int.ofNat_inj.mp hi
    rw [← hji]
    simp [process]
  jobList := by
    apply List.ext_getElem (by simp [process])
    intro i h₁ h₂
    simp [process, Job.workers]
  allocated job hjob := by
    obtain ⟨i, hi, rfl⟩ := List.mem_mapIdx.mp hjob
    exact le_refl _
  rank2Job := ⟨_, rfl, le_refl n, fun _ _ hr ↦ jobOf_eq hr⟩
  rankIgnoreList := le_refl n

end Layout

/-! ## The world -/

/-- The processes and the communicator `rep_mpi_comm_world` they share. -/
structure World where
  comm : Group
  proc : ℕ → Process

/-- `PMPI_Comm_split` as the member `p` sees it, from the colours and keys all members pass; `none`
is `MPI_UNDEFINED`. Any other negative colour is an error, and then there is no communicator. -/
def commSplit (comm : Group) (color : ℕ → Option ℤ) (key : ℕ → ℤ) (p : ℕ) : Option Group :=
  if ∀ q ∈ comm, ∀ c ∈ color q, 0 ≤ c then
    (color p).map fun c ↦ GroupSplit.split comm color key c
  else none

theorem commSplit_of_nonneg {comm : Group} {color : ℕ → Option ℤ}
    (h : ∀ q ∈ comm, ∀ c ∈ color q, 0 ≤ c) (key : ℕ → ℤ) (p : ℕ) :
    commSplit comm color key p = (color p).map (GroupSplit.split comm color key) := if_pos h

/-- The colour of the first split of `update_comms`: a node that is no master passes
`MPI_UNDEFINED`. Its key is the job id. -/
def Node.activeColor (node : Node) : Option ℤ :=
  if node.nodeCheckpointMaster = .no then none else some 0

theorem Node.activeColor_eq_some_iff {node : Node} :
    node.activeColor = some 0 ↔ node.nodeCheckpointMaster = .yes := by
  rw [activeColor]
  cases node.nodeCheckpointMaster <;> simp

theorem Node.activeColor_eq_none_iff {node : Node} :
    node.activeColor = none ↔ node.nodeCheckpointMaster ≠ .yes := by
  rw [activeColor]
  cases node.nodeCheckpointMaster <;> simp

/-- The key of the second split, whose colour is the job id. -/
def Node.jobKey (node : Node) : ℤ := if node.nodeCheckpointMaster = .yes then 0 else 1

namespace World

def node (w : World) (p : ℕ) : Node := (w.proc p).node

/-- `update_comms` run by all members of the world. -/
def updateComms (w : World) : World :=
  { w with
    proc := fun p ↦
      { w.proc p with
        node :=
          { w.node p with
            activeComm := commSplit w.comm (fun q ↦ (w.node q).activeColor)
              (fun q ↦ (w.node q).jobId) p
            worldJobComm := commSplit w.comm (fun q ↦ some (w.node q).jobId)
              (fun q ↦ (w.node q).jobKey) p } } }

theorem activeComm_updateComms (w : World) (p : ℕ) : (w.updateComms.node p).activeComm
    = (w.node p).activeColor.map (GroupSplit.split w.comm (fun q ↦ (w.node q).activeColor)
        fun q ↦ (w.node q).jobId) := by
  refine commSplit_of_nonneg (fun q _ c hc ↦ ?_) _ p
  dsimp only [Node.activeColor] at hc
  split at hc
  · exact absurd hc (by simp)
  · exact (Option.some_inj.mp hc).le

theorem worldJobComm_updateComms {w : World} (h : ∀ q ∈ w.comm, 0 ≤ (w.node q).jobId) (p : ℕ) :
    (w.updateComms.node p).worldJobComm = some (GroupSplit.split w.comm
      (fun q ↦ some (w.node q).jobId) (fun q ↦ (w.node q).jobKey) (w.node p).jobId) :=
  commSplit_of_nonneg (fun q hq _ hc ↦ Option.some_inj.mp hc ▸ h q hq) _ p

/-- A job id that is no colour leaves everybody without `world_job_comm`. -/
theorem nonneg_of_worldJobComm {w : World} {p : ℕ} {group : Group}
    (h : (w.updateComms.node p).worldJobComm = some group) :
    ∀ q ∈ w.comm, 0 ≤ (w.node q).jobId := by
  change commSplit w.comm (fun q ↦ some (w.node q).jobId) _ p = some group at h
  rw [commSplit] at h
  split at h
  next hnonneg => exact fun q hq ↦ hnonneg q hq _ rfl
  next => exact absurd h (by simp)

/-- The map `L` is the one every process of the world follows. -/
def Follows (w : World) (L : Layout w.comm.length) : Prop :=
  ∀ p ∈ w.comm, (w.node p).Follows L w.comm p

variable {w : World} {L : Layout w.comm.length}

/-- The process at a rank, as the communicator lists it. -/
def procAt (w : World) (r : ℕ) : ℕ := w.comm.getD r 0

theorem getElem?_comm {r : ℕ} (hr : r < w.comm.length) : w.comm[r]? = some (w.procAt r) := by
  rw [procAt, List.getD_eq_getElem _ _ hr, List.getElem?_eq_getElem hr]

theorem procAt_mem {r : ℕ} (hr : r < w.comm.length) : w.procAt r ∈ w.comm :=
  List.mem_of_getElem? (getElem?_comm hr)

theorem procAt_inj (hcomm : w.comm.Nodup) {r r' : ℕ} (hr : r < w.comm.length)
    (hr' : r' < w.comm.length) (h : w.procAt r = w.procAt r') : r = r' :=
  (List.getElem?_inj hr hcomm).mp ((getElem?_comm hr).trans (h ▸ (getElem?_comm hr').symm))

theorem exists_worker (L : Layout w.comm.length) {p : ℕ} (hp : p ∈ w.comm) :
    ∃ i, ∃ r ∈ L.workers i, w.procAt r = p := by
  have hlt := List.idxOf_lt_length_of_mem hp
  obtain ⟨i, hi⟩ := L.exists_mem_workers hlt
  exact ⟨i, _, hi, Option.some_inj.mp ((getElem?_comm hlt).symm.trans (List.getElem?_idxOf hp))⟩

theorem rank_procAt (hcomm : w.comm.Nodup) (hw : w.Follows L) {r : ℕ} (hr : r < w.comm.length) :
    (w.node (w.procAt r)).rank = r := by
  have hget := (hw _ (procAt_mem hr)).rank
  exact ((List.getElem?_inj hr hcomm).mp ((getElem?_comm hr).trans hget.symm)).symm

theorem procAt_rank (hw : w.Follows L) {p : ℕ} (hp : p ∈ w.comm) :
    w.procAt (w.node p).rank = p := by
  have hget := (hw p hp).rank
  rw [procAt, List.getD_eq_getElem?_getD, hget, Option.getD_some]

theorem jobId_procAt (hcomm : w.comm.Nodup) (hw : w.Follows L) {i r : ℕ} (hr : r ∈ L.workers i) :
    (w.node (w.procAt r)).jobId = i := by
  have hlt := Layout.lt_of_mem_workers hr
  obtain ⟨k, hk, hmem⟩ := (hw _ (procAt_mem hlt)).job
  rw [rank_procAt hcomm hw hlt] at hmem
  rw [hk, Layout.eq_of_mem_workers hmem hr]

theorem master_procAt_iff (hcomm : w.comm.Nodup) (hw : w.Follows L) {i r : ℕ}
    (hr : r ∈ L.workers i) :
    (w.node (w.procAt r)).nodeCheckpointMaster = .yes ↔ r = L.master i := by
  have hlt := Layout.lt_of_mem_workers hr
  rw [(hw _ (procAt_mem hlt)).master i (jobId_procAt hcomm hw hr), rank_procAt hcomm hw hlt]

/-! ## The two splits -/

/-- The masters, in the order of their jobs. -/
def masters (w : World) {n : ℕ} (L : Layout n) : Group :=
  (List.range L.jobs.length).map fun i ↦ w.procAt (L.master i)

theorem length_masters : (w.masters L).length = L.jobs.length := by
  rw [masters, List.length_map, List.length_range]

theorem getElem?_masters {i : ℕ} (hi : i < L.jobs.length) :
    (w.masters L)[i]? = some (w.procAt (L.master i)) := by
  rw [masters, List.getElem?_map, List.getElem?_range hi, Option.map_some]

/-- What the two splits need of the fields of `node`: the masters are marked, and `job_id` puts the
processes into as many classes as there are jobs, in their order. -/
structure Numbered (w : World) {n : ℕ} (L : Layout n) : Prop where
  jobsCount : ∀ p ∈ w.comm, (w.node p).jobsCount = L.jobs.length
  master : ∀ i, ∀ r ∈ L.workers i,
    ((w.node (w.procAt r)).nodeCheckpointMaster = .yes ↔ r = L.master i)
  nonneg : ∀ p ∈ w.comm, 0 ≤ (w.node p).jobId
  same : ∀ i, ∀ r ∈ L.workers i,
    (w.node (w.procAt r)).jobId = (w.node (w.procAt (L.master i))).jobId
  increasing : ∀ i k, i < k → k < L.jobs.length →
    (w.node (w.procAt (L.master i))).jobId < (w.node (w.procAt (L.master k))).jobId

theorem Follows.numbered (hw : w.Follows L) (hcomm : w.comm.Nodup) : w.Numbered L where
  jobsCount p hp := (hw p hp).jobsCount
  master i r hr := master_procAt_iff hcomm hw hr
  nonneg p hp := by
    obtain ⟨i, hi, -⟩ := (hw p hp).job
    rw [hi]
    exact Int.natCast_nonneg i
  same i r hr := by
    have hi := Layout.master_mem_workers (Layout.lt_length_of_mem_workers hr)
    rw [jobId_procAt hcomm hw hr, jobId_procAt hcomm hw hi]
  increasing i k hik hk := by
    rw [jobId_procAt hcomm hw (Layout.master_mem_workers (hik.trans hk)),
      jobId_procAt hcomm hw (Layout.master_mem_workers hk)]
    exact_mod_cast hik

namespace Numbered

theorem jobId_eq_iff (hw : w.Numbered L) {i k r q : ℕ} (hr : r ∈ L.workers i)
    (hq : q ∈ L.workers k) :
    (w.node (w.procAt r)).jobId = (w.node (w.procAt q)).jobId ↔ i = k := by
  rw [hw.same i r hr, hw.same k q hq]
  have hi := Layout.lt_length_of_mem_workers hr
  have hk := Layout.lt_length_of_mem_workers hq
  constructor
  · intro heq
    rcases lt_trichotomy i k with hlt | rfl | hlt
    · exact absurd heq (hw.increasing i k hlt hk).ne
    · rfl
    · exact absurd heq (hw.increasing k i hlt hi).ne'
  · rintro rfl
    rfl

theorem mem_masters_iff (hw : w.Numbered L) {p : ℕ} :
    p ∈ w.masters L ↔ p ∈ w.comm ∧ (w.node p).activeColor = some 0 := by
  rw [masters, List.mem_map]
  constructor
  · rintro ⟨i, hi, rfl⟩
    have hmem := Layout.master_mem_workers (List.mem_range.mp hi)
    exact ⟨procAt_mem (Layout.lt_of_mem_workers hmem),
      Node.activeColor_eq_some_iff.mpr ((hw.master i _ hmem).mpr rfl)⟩
  · rintro ⟨hp, hcolor⟩
    obtain ⟨i, r, hr, rfl⟩ := exists_worker L hp
    refine ⟨i, List.mem_range.mpr (Layout.lt_length_of_mem_workers hr), ?_⟩
    rw [← (hw.master i r hr).mp (Node.activeColor_eq_some_iff.mp hcolor)]

/-- The first split keeps the masters and, keyed by job id, puts the master of job `i` at rank
`i`. -/
theorem split_activeColor (hw : w.Numbered L) (hcomm : w.comm.Nodup) :
    GroupSplit.split w.comm (fun q ↦ (w.node q).activeColor) (fun q ↦ (w.node q).jobId) 0
      = w.masters L := by
  refine GroupSplit.split_eq hcomm ?_ fun p ↦ hw.mem_masters_iff
  rw [masters, List.pairwise_map]
  refine (List.pairwise_lt_range (n := L.jobs.length)).imp_of_mem fun {i k} _ hk hik ↦ ?_
  exact hw.increasing i k hik (List.mem_range.mp hk)

/-- In the second split the master of a job comes first: it alone passes the key `0`. -/
theorem head?_split_jobKey (hw : w.Numbered L) {i r : ℕ} (hr : r ∈ L.workers i) :
    (GroupSplit.split w.comm (fun q ↦ some (w.node q).jobId) (fun q ↦ (w.node q).jobKey)
      (w.node (w.procAt r)).jobId).head? = some (w.procAt (L.master i)) := by
  have hmem := Layout.master_mem_workers (Layout.lt_length_of_mem_workers hr)
  refine GroupSplit.head?_split (procAt_mem (Layout.lt_of_mem_workers hmem))
    (by rw [hw.same i r hr]) ?_
  intro q hq hjob hne
  obtain ⟨k, r', hr', rfl⟩ := exists_worker L hq
  obtain rfl : k = i := (hw.jobId_eq_iff hr' hr).mp (Option.some_inj.mp hjob)
  have hno : (w.node (w.procAt r')).nodeCheckpointMaster ≠ .yes :=
    fun h ↦ hne (by rw [(hw.master k r' hr').mp h])
  rw [Node.jobKey, Node.jobKey, if_pos ((hw.master k _ hmem).mpr rfl), if_neg hno]
  exact zero_lt_one

theorem mem_split_jobId_iff (hw : w.Numbered L) {i r q : ℕ} (hr : r ∈ L.workers i) :
    q ∈ GroupSplit.split w.comm (fun q ↦ some (w.node q).jobId) (fun q ↦ (w.node q).jobKey)
      (w.node (w.procAt r)).jobId ↔ ∃ r' ∈ L.workers i, w.procAt r' = q := by
  rw [GroupSplit.mem_split]
  constructor
  · rintro ⟨hq, hjob⟩
    obtain ⟨k, r', hr', rfl⟩ := exists_worker L hq
    obtain rfl : k = i := (hw.jobId_eq_iff hr' hr).mp (Option.some_inj.mp hjob)
    exact ⟨r', hr', rfl⟩
  · rintro ⟨r', hr', rfl⟩
    exact ⟨procAt_mem (Layout.lt_of_mem_workers hr'),
      congrArg some ((hw.jobId_eq_iff hr' hr).mpr rfl)⟩

end Numbered

/-! ## What `update_comms` leaves -/

/-- `activeComm` and `worldJobComm` as every collective takes them to be. -/
structure CommsMatch (w : World) {n : ℕ} (L : Layout n) : Prop where
  /-- Every master holds the same `active_comm`. -/
  active : ∀ i < L.jobs.length, (w.node (w.procAt (L.master i))).activeComm = some (w.masters L)
  /-- It has `jobs_count` members. -/
  size : ∀ p ∈ w.comm, (w.masters L).length = (w.node p).jobsCount
  /-- Its rank `i` is the master of job `i`, so a root given as a job id is the right process. -/
  root : ∀ i < L.jobs.length, (w.masters L)[i]? = some (w.procAt (L.master i))
  /-- A process that is no master holds `MPI_COMM_NULL`. -/
  inactive : ∀ p ∈ w.comm, p ∉ w.masters L → (w.node p).activeComm = none
  /-- `world_job_comm` holds the workers of the job, the master at rank `0`. -/
  job : ∀ i, ∀ r ∈ L.workers i, ∃ group, (w.node (w.procAt r)).worldJobComm = some group ∧
    group.Nodup ∧ (∀ q, q ∈ group ↔ ∃ r' ∈ L.workers i, w.procAt r' = q) ∧
    group.head? = some (w.procAt (L.master i))

theorem Numbered.commsMatch (hw : w.Numbered L) (hcomm : w.comm.Nodup) :
    w.updateComms.CommsMatch L where
  active i hi := by
    have hmaster := hw.mem_masters_iff.mp (List.mem_of_getElem? (getElem?_masters (w := w) hi))
    have hact := activeComm_updateComms w (w.procAt (L.master i))
    rw [hmaster.2, Option.map_some, hw.split_activeColor hcomm] at hact
    exact hact
  size p hp := length_masters.trans (hw.jobsCount p hp).symm
  root i hi := getElem?_masters hi
  inactive p hp hnot := by
    have hcolor : (w.node p).activeColor = none := by
      rw [Node.activeColor_eq_none_iff]
      exact fun hyes ↦ hnot (hw.mem_masters_iff.mpr ⟨hp, Node.activeColor_eq_some_iff.mpr hyes⟩)
    rw [activeComm_updateComms, hcolor, Option.map_none]
  job i r hr := ⟨_, worldJobComm_updateComms hw.nonneg _, GroupSplit.nodup_split hcomm,
    fun _ ↦ hw.mem_split_jobId_iff hr, hw.head?_split_jobKey hr⟩

/-- **`update_comms` makes the two communicators fit together** where every process knows its
job. -/
theorem updateComms_commsMatch (hcomm : w.comm.Nodup) (hw : w.Follows L) :
    w.updateComms.CommsMatch L := (hw.numbered hcomm).commsMatch hcomm

namespace CommsMatch

theorem master_iff (h : w.updateComms.CommsMatch L) (hcomm : w.comm.Nodup) {i r : ℕ}
    (hr : r ∈ L.workers i) :
    (w.node (w.procAt r)).nodeCheckpointMaster = .yes ↔ r = L.master i := by
  have hactive := activeComm_updateComms w (w.procAt r)
  constructor
  · intro hyes
    rw [Node.activeColor_eq_some_iff.mpr hyes, Option.map_some] at hactive
    have hmem : w.procAt r ∈ w.masters L := by
      by_contra hnot
      have hnone := h.inactive _ (procAt_mem (Layout.lt_of_mem_workers hr)) hnot
      exact absurd (hactive.symm.trans hnone) (by simp)
    obtain ⟨k, hk, hproc⟩ := List.mem_map.mp hmem
    have hmaster := Layout.master_mem_workers (List.mem_range.mp hk)
    obtain rfl := procAt_inj hcomm (Layout.lt_of_mem_workers hmaster)
      (Layout.lt_of_mem_workers hr) hproc
    rw [Layout.eq_of_mem_workers hmaster hr]
  · rintro rfl
    by_contra hno
    rw [Node.activeColor_eq_none_iff.mpr hno, Option.map_none] at hactive
    have hsome := h.active i (Layout.lt_length_of_mem_workers hr)
    exact absurd (hactive.symm.trans hsome) (by simp)

theorem nonneg (h : w.updateComms.CommsMatch L) {p : ℕ} (hp : p ∈ w.comm) :
    0 ≤ (w.node p).jobId := by
  obtain ⟨i, r, hr, rfl⟩ := exists_worker L hp
  obtain ⟨group, hgroup, -⟩ := h.job i r hr
  exact nonneg_of_worldJobComm hgroup _ hp

theorem jobId_eq_iff (h : w.updateComms.CommsMatch L) (hcomm : w.comm.Nodup) {i k r q : ℕ}
    (hr : r ∈ L.workers i) (hq : q ∈ L.workers k) :
    (w.node (w.procAt q)).jobId = (w.node (w.procAt r)).jobId ↔ k = i := by
  obtain ⟨group, hgroup, -, hmem, -⟩ := h.job i r hr
  have hq' := Layout.lt_of_mem_workers hq
  have hsplit := (worldJobComm_updateComms (fun _ ↦ h.nonneg) (w.procAt r)).symm.trans hgroup
  have hjob : w.procAt q ∈ group ↔ (w.node (w.procAt q)).jobId = (w.node (w.procAt r)).jobId := by
    rw [← Option.some_inj.mp hsplit, GroupSplit.mem_split, and_iff_right (procAt_mem hq'),
      Option.some_inj]
  rw [← hjob, hmem]
  constructor
  · rintro ⟨r', hr', hproc⟩
    obtain rfl : r' = q := procAt_inj hcomm (Layout.lt_of_mem_workers hr') hq' hproc
    exact Layout.eq_of_mem_workers hq hr'
  · rintro rfl
    exact ⟨q, hq, rfl⟩

theorem numbered (h : w.updateComms.CommsMatch L) (hcomm : w.comm.Nodup) : w.Numbered L where
  jobsCount p hp := (h.size p hp).symm.trans length_masters
  master _ _ hr := h.master_iff hcomm hr
  nonneg _ hp := h.nonneg hp
  same _ _ hr := (h.jobId_eq_iff hcomm
    (Layout.master_mem_workers (Layout.lt_length_of_mem_workers hr)) hr).mpr rfl
  increasing i k hik hk := by
    have hi := Layout.master_mem_workers (hik.trans hk)
    -- `active_comm` is ordered by job id, and its ranks are the jobs
    have hsplit : (w.masters L).Pairwise fun a b ↦ (w.node a).jobId ≤ (w.node b).jobId := by
      have hactive := h.active i (hik.trans hk)
      have hyes := Node.activeColor_eq_some_iff.mpr ((h.master_iff hcomm hi).mpr rfl)
      change (w.updateComms.node (w.procAt (L.master i))).activeComm = some (w.masters L) at hactive
      rw [activeComm_updateComms, hyes, Option.map_some, Option.some_inj] at hactive
      rw [← hactive]
      exact GroupSplit.pairwise_split
    rw [masters, List.pairwise_map, List.pairwise_iff_getElem] at hsplit
    have hle := hsplit i k (by simpa using hik.trans hk) (by simpa using hk) hik
    rw [List.getElem_range, List.getElem_range] at hle
    refine lt_of_le_of_ne hle fun heq ↦ hik.ne ?_
    exact (h.jobId_eq_iff hcomm (Layout.master_mem_workers hk) hi).mp heq

end CommsMatch

/-- **When `update_comms` makes the two communicators fit the map**, whatever the processes have in
`node`. -/
theorem updateComms_commsMatch_iff (hcomm : w.comm.Nodup) :
    w.updateComms.CommsMatch L ↔ w.Numbered L :=
  ⟨fun h ↦ h.numbered hcomm, fun h ↦ h.commsMatch hcomm⟩

end World

/-- Job `0` is rank `1` alone; job `1` has the master `2` and the replica `0`. -/
def Layout.descending : Layout 3 := ⟨[[1], [2, 0]], by decide, by decide⟩

theorem updateComms_commsMatch_descending :
    (World.updateComms ⟨[7, 8, 9], Layout.descending.process [7, 8, 9]⟩).CommsMatch
      Layout.descending := by
  have hfollows : World.Follows ⟨[7, 8, 9], Layout.descending.process [7, 8, 9]⟩
      Layout.descending := fun _ hp ↦ (Layout.process_shares Layout.descending rfl hp).follows
  exact (World.updateComms_commsMatch_iff (by decide)).mpr (hfollows.numbered (by decide))

/-- Job `0` is rank `0` alone; job `1` has the master `1` and the replica `2`. -/
def Layout.movedReplica : Layout 3 := ⟨[[0], [1, 2]], by decide, by decide⟩

/-- Three processes that have entered with the replica `2` in job `0`, and then read a map that has
it in job `1`, in rows without update bits. -/
def World.movedReplica : World where
  comm := [0, 1, 2]
  proc p := ((do
    let s ← Process.blank.initNode [0, 1, 2] p [3, 2, 1, 0, 2, 0, 2, 1, 1, 1, 1]
    s.parseMapFile [3, 2, 0, 0, 1, 0, 0, 1, 2, 1, 2]) : Except Fault Process).toOption.getD
      Process.blank

/-- The lists of all three are those of the second map, and process `2` still has the job id of the
first: it is in the `world_job_comm` of job `0`. -/
theorem not_updateComms_commsMatch_movedReplica :
    (∀ p ∈ World.movedReplica.comm,
      (World.movedReplica.proc p).jobList.map Job.workers = Layout.movedReplica.jobs) ∧
      (World.movedReplica.updateComms.node 0).worldJobComm = some [0, 2] ∧
      ¬World.movedReplica.updateComms.CommsMatch Layout.movedReplica := by
  refine ⟨by decide, by decide, fun h ↦ ?_⟩
  have hmaster : 0 ∈ Layout.movedReplica.workers 0 := by decide
  obtain ⟨group, hgroup, -, hmem, -⟩ := h.job 0 0 hmaster
  obtain rfl : [0, 2] = group := Option.some_inj.mp hgroup
  obtain ⟨r, hr, hproc⟩ := (hmem 2).mp (by decide)
  obtain rfl : r = 0 := List.mem_singleton.mp hr
  exact absurd hproc (by decide)

end EntangledMPI
