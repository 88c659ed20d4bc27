import EntangledMPI.Library.CountingLoop
import EntangledMPI.Library.Renumbering
import EntangledMPI.Mpi.Comm
import EntangledMPI.Mpi.MapFile

/-!
# Shrinking the world

The branch of `rep_errhandler` that repairs `rep_mpi_comm_world`. `PMPIX_Comm_shrink` drops dead
processes and keeps the order of the rest, so a shrink is given by the processes it keeps; the group
translation that follows is `Renumbering.translate`. `update_job_list` then rewrites every
`rank_list` in place, in a loop that reads ahead of where it writes and decrements `worker_count`
for every rank that is gone.

`NULL` in the table of translated ranks, `none`, is `MPI_UNDEFINED`.
-/

namespace EntangledMPI

open CountingLoop Renumbering

/-! ## `update_job_list` -/

/-- The state of the loop over the workers of one job. -/
structure Compaction where
  job : Job
  overwritePointer : ℕ
  rank2Job : Option Table
  rankIgnoreList : Table

/-- One turn of the loop over the workers of job `i`. -/
def Compaction.turn (size : ℕ) (translatedRanks : List (Option ℕ)) (i : ℕ) (c : Compaction)
    (j : ℕ) : Except Fault Compaction := do
  let rank ← readAt c.job.rankList j
  if ¬rank < size then
    throw .assertFailed
  else
    match ← readAt translatedRanks rank with
    | none =>
      if c.job.workerCount - 1 = 0 then
        throw .abort
      else
        return { c with job := { c.job with workerCount := c.job.workerCount - 1 } }
    | some new =>
      let rankList ← writeAt c.job.rankList c.overwritePointer new
      let rank2Job ← writeRank2Job c.rank2Job new i
      let rankIgnoreList ← c.rankIgnoreList.write new 0
      return ⟨{ c.job with rankList := rankList }, c.overwritePointer + 1, rank2Job,
        rankIgnoreList⟩

/-- The tables the loop over the jobs rewrites. -/
structure JobTables where
  jobList : List Job
  rank2Job : Option Table
  rankIgnoreList : Table

/-- The loop over the workers of job `i`; its bound is the `worker_count` it starts with. -/
def JobTables.turn (size : ℕ) (translatedRanks : List (Option ℕ)) (t : JobTables) (i : ℕ) :
    Except Fault JobTables := do
  let job ← readAt t.jobList i
  let c ← loop (Compaction.turn size translatedRanks i) job.workerCount
    ⟨job, 0, t.rank2Job, t.rankIgnoreList⟩
  let jobList ← writeAt t.jobList i c.job
  return ⟨jobList, c.rank2Job, c.rankIgnoreList⟩

namespace Process

/-- `job_list[node.job_id]`. -/
def ownJob (s : Process) : Except Fault Job :=
  if s.node.jobId < 0 then .error .outOfBounds else readAt s.jobList s.node.jobId.toNat

def updateJobList (s : Process) (size : ℕ) (translatedRanks : List (Option ℕ)) :
    Except Fault Process := do
  let t ← loop (JobTables.turn size translatedRanks) s.node.jobsCount
    ⟨s.jobList, s.rank2Job, s.rankIgnoreList⟩
  let s := { s with
    jobList := t.jobList, rank2Job := t.rank2Job, rankIgnoreList := t.rankIgnoreList }
  match ← readAt translatedRanks s.node.rank with
  | none => throw .indeterminate
  | some rank =>
    let first ← readAt (← s.ownJob).rankList 0
    return { s with
      node := { s.node with
        rank := rank
        nodeCheckpointMaster := if first = rank then .yes else .no } }

/-- The shrinking branch of `rep_errhandler`, up to `update_comms`: the process has acknowledged the
failures `acked`, and `worldShrinked` is the group of the shrunk communicator. -/
def shrink (s : Process) (worldShrinked acked : Group) : Except Fault Process := do
  let groupWorldDup := s.node.repMpiCommWorld
  let size := groupWorldDup.length
  let translatedRanks := (List.range size).map (translate groupWorldDup worldShrinked)
  let s ← updateJobList { s with lastGroupFailed := acked, previousWorldGroup := groupWorldDup }
    size translatedRanks
  return { s with node := { s.node with repMpiCommWorld := worldShrinked } }

end Process

/-! ## All survivors -/

namespace World

/-- Every survivor's `update_job_list` returns. -/
def ShrinkReturns (w : World) (keep : ℕ → Bool) (acked : ℕ → Group) : Prop :=
  ∀ p ∈ w.comm.filter keep, ∃ s, (w.proc p).shrink (w.comm.filter keep) (acked p) = .ok s

/-- The world after a shrink that returns at every survivor. -/
def shrink (w : World) (keep : ℕ → Bool) (acked : ℕ → Group) : World :=
  updateComms
    { comm := w.comm.filter keep
      proc := fun p ↦
        match (w.proc p).shrink (w.comm.filter keep) (acked p) with
        | .ok s => s
        | .error _ => w.proc p }

/-- One shrink: any set of processes is dropped. -/
def Shrinks (w w' : World) : Prop :=
  ∃ keep acked, w.ShrinkReturns keep acked ∧ w' = w.shrink keep acked

end World

end EntangledMPI
