import Mathlib.Algebra.Group.Nat.Defs
import Mathlib.Data.Int.Notation
import Mathlib.Data.Nat.Notation
import Mathlib.Logic.Function.Basic

/-!
# The data every process keeps

The records of `shared.h` and the globals the replication layer works on. A process is named by the
rank it was started with, `static_rank`, which never changes; the *current* rank of a process is its
position in the group of `rep_mpi_comm_world`, and every shrink renumbers it. A communicator is its
group, listed in rank order, and `none` is `MPI_COMM_NULL`.

## Memory

`rank_2_job` and `rank_ignore_list` are tables allocated once and indexed by rank. A `rank_list` is
the allocated array: `worker_count` says how much of it is in use, and after a shrink the tail is
stale. Reads and writes are checked against the allocated size, and leaving it is a `Fault`.
-/

namespace EntangledMPI

/-! ## Enumerations of `shared.h` -/

inductive NodeTransitState
  | none
  | sender
  | receiver
  deriving DecidableEq, Repr

inductive NodeCheckpointMaster
  | no
  | yes
  deriving DecidableEq, Repr

inductive CkptRestore
  | no
  | yes
  deriving DecidableEq, Repr

/-- What ends a computation of the model early: an indeterminate value is used, an access leaves its
allocation, an `assert` fires, or `PMPI_Abort` is called. -/
inductive Fault
  | indeterminate
  | outOfBounds
  | assertFailed
  | abort
  deriving DecidableEq, Repr

/-! ## Memory -/

section Except

variable {ε α β : Type}

@[simp] theorem except_ok_bind (a : α) (f : α → Except ε β) : (Except.ok a >>= f) = f a := rfl

@[simp] theorem except_error_bind (e : ε) (f : α → Except ε β) :
    (Except.error e >>= f) = Except.error e := rfl

@[simp] theorem except_pure (a : α) : (pure a : Except ε α) = .ok a := rfl

@[simp] theorem except_throw (e : ε) : (throw e : Except ε α) = .error e := rfl

theorem except_bind_eq_ok {x : Except ε α} {f : α → Except ε β} {b : β} :
    (x >>= f) = .ok b ↔ ∃ a, x = .ok a ∧ f a = .ok b := by
  cases x <;> simp

@[simp] theorem except_map_ok (a : α) (f : α → β) : f <$> (Except.ok a : Except ε α) = .ok (f a) :=
  rfl

end Except

/-- Read the entry of an array at an index. -/
def readAt {α : Type*} (l : List α) (i : ℕ) : Except Fault α :=
  if h : i < l.length then .ok l[i] else .error .outOfBounds

/-- Write the entry of an array at an index. -/
def writeAt {α : Type*} (l : List α) (i : ℕ) (a : α) : Except Fault (List α) :=
  if i < l.length then .ok (l.set i a) else .error .outOfBounds

theorem readAt_of_lt {α : Type*} {l : List α} {i : ℕ} (h : i < l.length) :
    readAt l i = .ok l[i] := dif_pos h

theorem readAt_eq {α : Type*} {l : List α} {i : ℕ} {a : α} (h : l[i]? = some a) :
    readAt l i = .ok a := by
  obtain ⟨hi, rfl⟩ := List.getElem?_eq_some_iff.mp h
  exact readAt_of_lt hi

theorem getElem?_of_readAt {α : Type*} {l : List α} {i : ℕ} {a : α} (h : readAt l i = .ok a) :
    l[i]? = some a := by
  rw [readAt] at h
  split at h
  next hi => rw [List.getElem?_eq_getElem hi, Except.ok.inj h]
  next => exact absurd h (by simp)

theorem writeAt_of_lt {α : Type*} {l : List α} {i : ℕ} (h : i < l.length) (a : α) :
    writeAt l i a = .ok (l.set i a) := if_pos h

/-- An array of `int` indexed by rank, of which only the allocated size matters besides the
entries. -/
structure Table where
  size : ℕ
  entry : ℕ → ℕ

def Table.write (t : Table) (i v : ℕ) : Except Fault Table :=
  if i < t.size then .ok { t with entry := Function.update t.entry i v } else .error .outOfBounds

def Table.read (t : Table) (i : ℕ) : Except Fault ℕ :=
  if i < t.size then .ok (t.entry i) else .error .outOfBounds

theorem Table.write_of_lt {t : Table} {i : ℕ} (h : i < t.size) (v : ℕ) :
    t.write i v = .ok { t with entry := Function.update t.entry i v } := if_pos h

theorem Table.size_eq_of_write {t t' : Table} {i v : ℕ} (h : t.write i v = .ok t') :
    t'.size = t.size := by
  rw [Table.write] at h
  split at h
  next => rw [← Except.ok.inj h]
  next => exact absurd h (by simp)

theorem Table.read_of_lt {t : Table} {i : ℕ} (h : i < t.size) : t.read i = .ok (t.entry i) :=
  if_pos h

/-! ## Jobs and nodes -/

/-- The processes of a communicator, in rank order. -/
abbrev Group := List ℕ

/-- A job: `rankList` is the allocated array, of which the first `workerCount` entries are in
use. -/
structure Job where
  jobId : ℕ
  workerCount : ℕ
  rankList : List ℕ
  deriving DecidableEq, Repr

/-- The entry of a fresh `job_list` that has not been written yet. -/
def Job.unset : Job := ⟨0, 0, []⟩

/-- The ranks the job lists. -/
def Job.workers (job : Job) : List ℕ := job.rankList.take job.workerCount

structure Node where
  jobId : ℤ
  rank : ℕ
  staticRank : ℕ
  age : ℕ
  jobsCount : ℕ
  nodeTransitState : NodeTransitState
  nodeCheckpointMaster : NodeCheckpointMaster
  repMpiCommWorld : Group
  worldJobComm : Option Group
  activeComm : Option Group
  deriving DecidableEq, Repr

/-- The globals of one process; `rank_2_job` is `none` while the pointer is `NULL`. -/
structure Process where
  node : Node
  jobList : List Job
  rank2Job : Option Table
  rankIgnoreList : Table
  ckptRestore : CkptRestore
  processShrinkingPending : Bool
  lastGroupFailed : Group
  previousWorldGroup : Group

/-- `SET_TAG(rank, tag)`, in the arithmetic of a 32-bit `int`. -/
def setTag (rank tag : ℤ) : ℤ := (100 * (rank + 1) + tag).bmod (2 ^ 32)

end EntangledMPI
