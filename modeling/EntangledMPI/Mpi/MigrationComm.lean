import EntangledMPI.Mpi.Comm

/-!
# The communicator of a migration

`create_migration_comm` splits the world once more: by job, over the processes that send or receive,
the sender keyed first. `transfer_data_seg` and the two transfers after it broadcast from rank `0`
of the communicator it makes, so rank `0` has to be the sender.
-/

namespace EntangledMPI

/-- The colour of `create_migration_comm`; `none` is `MPI_UNDEFINED`. -/
def Node.migrationColor (node : Node) : Option ℤ :=
  if node.nodeTransitState ≠ .none then some node.jobId else none

def Node.migrationKey (node : Node) : ℤ := if node.nodeTransitState = .sender then 0 else 1

/-- What `create_migration_comm` leaves in `*job_comm` and `*rep_flag`, and whether it returns
something other than `0`. -/
structure MigrationComm where
  jobComm : Option Group
  repFlag : Bool
  valid : Bool
  deriving DecidableEq, Repr

namespace World

/-- `create_migration_comm` at the process `p`; the first argument is what `*job_comm` held. -/
def createMigrationComm (w : World) (jobComm : Option Group) (p : ℕ) : MigrationComm :=
  if (w.proc p).ckptRestore = .yes then ⟨jobComm, false, true⟩
  else
    let flag := decide ((w.node p).nodeTransitState ≠ .none)
    { jobComm := commSplit w.comm (fun q ↦ (w.node q).migrationColor)
        (fun q ↦ (w.node q).migrationKey) p
      repFlag := flag
      valid := flag || (w.node p).nodeCheckpointMaster = .yes }

variable {w : World} {s p : ℕ}

/-- The only sender of a job has rank `0` in the communicator of all that take part. -/
theorem exists_jobComm_createMigrationComm (hs : s ∈ w.comm)
    (hsender : (w.node s).nodeTransitState = .sender)
    (honly : ∀ q ∈ w.comm, (w.node q).jobId = (w.node s).jobId →
      (w.node q).nodeTransitState = .sender → q = s)
    (hnonneg : ∀ q ∈ w.comm, 0 ≤ (w.node q).jobId)
    (hjob : (w.node p).jobId = (w.node s).jobId) (hp : (w.node p).nodeTransitState ≠ .none)
    (hckpt : (w.proc p).ckptRestore = .no) (jobComm : Option Group) :
    ∃ group, (w.createMigrationComm jobComm p).jobComm = some group ∧ group[0]? = some s := by
  have hcolor : (w.node s).migrationColor = some (w.node s).jobId := by
    rw [Node.migrationColor, hsender, if_pos (by simp)]
  refine ⟨GroupSplit.split w.comm (fun q ↦ (w.node q).migrationColor)
    (fun q ↦ (w.node q).migrationKey) (w.node s).jobId, ?_, ?_⟩
  · rw [createMigrationComm, if_neg (by simp [hckpt])]
    dsimp only
    rw [commSplit_of_nonneg fun q hq c hc ↦ ?_, Node.migrationColor, if_pos hp, Option.map_some,
      hjob]
    rw [Node.migrationColor] at hc
    split at hc
    · exact Option.some_inj.mp hc ▸ hnonneg q hq
    · exact absurd hc (by simp)
  · rw [← List.head?_eq_getElem?]
    refine GroupSplit.head?_split hs hcolor fun q hq hqcolor hne ↦ ?_
    have hqjob : (w.node q).jobId = (w.node s).jobId := by
      rw [Node.migrationColor] at hqcolor
      split at hqcolor
      · exact Option.some_inj.mp hqcolor
      · exact absurd hqcolor (by simp)
    have hqsender : (w.node q).nodeTransitState ≠ .sender := fun h ↦ hne (honly q hq hqjob h)
    rw [Node.migrationKey, Node.migrationKey, if_pos hsender, if_neg hqsender]
    exact zero_lt_one

end World

end EntangledMPI
