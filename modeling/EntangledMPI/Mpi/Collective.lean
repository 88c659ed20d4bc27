import EntangledMPI.Mpi.JobListShrink

/-!
# Collective calls

`MPI_Scatter`, `MPI_Gather`, `MPI_Allgather`, `MPI_Allreduce` and `MPI_Reduce` share one shape. The
masters run the PMPI operation on `active_comm`, all processes agree on a flag, each job broadcasts
the result from its master, and all agree again; where an agreement shows a failure, the operation
or the broadcast is repeated. An agreement that reports a dead process fails everywhere, and
everybody shrinks the world before trying again.

An agreement is passed by all living processes together, so a call is modelled by the steps all of
them make between two agreements. Processes die at any point, and what a PMPI call that fails leaves
in the receive buffer is arbitrary.

A process contributes what is in its send buffer, or in its receive buffer where that is
`MPI_IN_PLACE`. The broadcast has an `int` for its count, which is a product for `MPI_Gather` and
`MPI_Allgather`, and wraps around.

`delivered` and `attempt` record what PMPI calls have returned. Nothing in the code depends on them.
-/

namespace EntangledMPI

open Renumbering

/-- `NO_TRIALS`. -/
def noTrials : ℕ := 10

/-- `is_failed_node_world_job_comm_root`: the first ranks of the lists, which are ranks of the
present world, are looked up among the ranks the dead had in the previous one. -/
def Process.isFailedNodeWorldJobCommRoot (s : Process) : Except Fault Bool :=
  let rankWorldComm := (List.range s.lastGroupFailed.length).map
    (translate s.lastGroupFailed s.previousWorldGroup)
  (List.range s.node.jobsCount).anyM fun i ↦ do
    let job ← readAt s.jobList i
    let first ← readAt job.rankList 0
    return rankWorldComm.contains (some first)

/-- Where all processes stand in the call: before the operation, before its agreement, before the
broadcast, before that agreement, or behind the call. -/
inductive CallPc
  | main
  | mainAgree
  | bcast
  | bcastAgree
  | returned
  deriving DecidableEq, Repr

/-- The variables of a call at every process. `mpiStatus` tells whether it is `MPI_SUCCESS`;
`recvbuf p k` is element `k` of a receive buffer. -/
structure CallState (α : Type*) where
  pc : CallPc
  world : World
  alive : ℕ → Bool
  mpiStatus : ℕ → Bool
  flag : ℕ → BitVec 32
  ckptMasterBackup : ℕ → NodeCheckpointMaster
  totalTrials : ℕ
  recvbuf : ℕ → ℕ → α
  /-- The last PMPI call of the process on its receive buffer succeeded. -/
  delivered : ℕ → Bool
  /-- How the last PMPI operation ended at each process that was active then. -/
  attempt : ℕ → Option Bool

/-- What the calls differ in. -/
structure Collective (β α : Type*) where
  /-- `mpi_status` is set back before every attempt. -/
  resetsStatus : Bool
  /-- The flag after a PMPI call, from whether it succeeded and the flag before. -/
  setFlag : Bool → BitVec 32 → BitVec 32
  succeeded : BitVec 32 → Bool
  /-- A new master writes its `static_rank` to the flag. -/
  watchesMaster : Bool
  /-- The jobs that broadcast. -/
  broadcasts : ℕ → Bool
  /-- The ranks of `active_comm` whose receive buffer the operation fills, which are the jobs. -/
  receives : ℕ → Bool
  /-- The number of elements the call delivers, from `jobs_count`. -/
  count : ℕ → ℕ
  /-- What the operation delivers at a rank, from what the ranks contribute. -/
  op : List β → ℕ → ℕ → α
  succeeded_and : ∀ a b, succeeded (a &&& b) = true → succeeded a = true ∧ succeeded b = true
  succeeded_staticRank : watchesMaster = true → ∀ n < 2 ^ 31, succeeded (BitVec.ofNat 32 n) = false
  broadcasts_of_receives : ∀ i, receives i = true → broadcasts i = true

namespace CallState

variable {α β : Type*} (s : CallState α)

def node (p : ℕ) : Node := s.world.node p

/-- The flag every process gets from an agreement. -/
def agreed : BitVec 32 :=
  ((s.world.comm.filter s.alive).map s.flag).foldl (· &&& ·) (BitVec.allOnes 32)

/-- No failure is left to report. -/
def Settled : Prop :=
  ∀ p ∈ s.world.comm, s.alive p = true ∧ (s.world.proc p).processShrinkingPending = false

/-- Rank `0` of the `world_job_comm` of a process. -/
def jobRoot (p : ℕ) : Option ℕ := (s.node p).worldJobComm.bind List.head?

end CallState

/-- `__process_shrinking_pending = 0` at every process. -/
def World.clearPending (w : World) : World :=
  { w with proc := fun p ↦ { w.proc p with processShrinkingPending := false } }

namespace Collective

variable {α β : Type*} (c : Collective β α)

/-! ## The steps -/

/-- The count of the broadcast is an `int`. -/
def bcastCount (jobsCount : ℕ) : ℤ := (BitVec.ofNat 32 (c.count jobsCount)).toInt

/-- The PMPI operation at the active processes: `ok` tells where it succeeds, `garbage` what it
leaves where it fails. -/
def call (input : ℕ → (ℕ → α) → β) (ok : ℕ → Bool) (garbage : ℕ → ℕ → α) (s : CallState α) :
    CallState α :=
  let mpiStatus := fun p ↦
    match (s.node p).activeComm with
    | some _ => ok p
    | none => c.resetsStatus || s.mpiStatus p
  { s with
    pc := .mainAgree
    mpiStatus := mpiStatus
    flag := fun p ↦ c.setFlag (mpiStatus p) (s.flag p)
    totalTrials := s.totalTrials + 1
    recvbuf := fun p k ↦
      match (s.node p).activeComm with
      | some group =>
        if ok p then
          if c.receives (group.idxOf p) ∧ k < c.count (s.node p).jobsCount then
            c.op (group.map fun q ↦ input q (s.recvbuf q)) (group.idxOf p) k
          else s.recvbuf p k
        else garbage p k
      | none => s.recvbuf p k
    delivered := fun p ↦ if (s.node p).activeComm.isSome then ok p else s.delivered p
    attempt := fun p ↦
      if p ∈ s.world.comm ∧ (s.node p).activeComm.isSome then some (s.alive p && ok p) else none }

/-- A failed agreement: everybody acknowledges failures and shrinks the world to the processes alive
by then. Whether the flag is written when an agreement fails is left open. -/
def repair (written alive : ℕ → Bool) (acked : ℕ → Group) (s : CallState α) : CallState α :=
  let world := (s.world.shrink alive acked).clearPending
  let changed := fun p ↦
    c.watchesMaster && s.ckptMasterBackup p ≠ (world.node p).nodeCheckpointMaster
  { s with
    world := world
    alive := alive
    flag := fun p ↦
      if changed p then BitVec.ofNat 32 (world.node p).staticRank
      else if written p then s.agreed else s.flag p
    ckptMasterBackup := fun p ↦
      if changed p then (world.node p).nodeCheckpointMaster else s.ckptMasterBackup p }

/-- The agreement on the operation. -/
def agreeMain (s : CallState α) : CallState α :=
  { s with pc := if c.succeeded s.agreed then .bcast else .main, flag := fun _ ↦ s.agreed }

/-- The broadcast in the jobs. The root only reads its buffer. -/
def broadcast (ok : ℕ → Bool) (garbage : ℕ → ℕ → α) (s : CallState α) : CallState α :=
  let mpiStatus := fun p ↦ if c.broadcasts (s.node p).jobId.toNat then ok p else true
  let receiver := fun p ↦ c.broadcasts (s.node p).jobId.toNat && s.jobRoot p ≠ some p
  { s with
    pc := .bcastAgree
    mpiStatus := mpiStatus
    flag := fun p ↦ c.setFlag (mpiStatus p) (s.flag p)
    recvbuf := fun p k ↦
      if receiver p then
        if ok p then
          if k < c.bcastCount (s.node p).jobsCount then
            ((s.jobRoot p).map fun m ↦ s.recvbuf m k).getD (s.recvbuf p k)
          else s.recvbuf p k
        else garbage p k
      else s.recvbuf p k
    delivered := fun p ↦ if receiver p then ok p else s.delivered p }

/-- The agreement on the broadcast: a failure leads back to the operation if the root of a job was
found dead, and else to another broadcast. -/
def agreeBcast (failedRoot : Bool) (s : CallState α) : CallState α :=
  { s with
    pc := if c.succeeded s.agreed then .returned else if failedRoot then .main else .bcast
    flag := fun _ ↦ s.agreed }

/-- A step of a call. `input` is what the processes contribute, which may depend on their receive
buffers. The call aborts, and makes no more steps, when its trials are used up or a shrink finds a
job without workers. What each process has acknowledged is left open, as long as all take the same
way behind a failed broadcast. -/
inductive Step (input : ℕ → (ℕ → α) → β) : CallState α → CallState α → Prop
  | die {s : CallState α} (alive : ℕ → Bool) (halive : ∀ p, alive p = true → s.alive p = true) :
      Step input s { s with alive := alive }
  | call {s : CallState α} (hpc : s.pc = .main) (htrials : s.totalTrials + 1 < noTrials)
      (ok : ℕ → Bool) (garbage : ℕ → ℕ → α) : Step input s (c.call input ok garbage s)
  | repair {s : CallState α} (hpc : s.pc = .mainAgree ∨ s.pc = .bcastAgree) (hfail : ¬s.Settled)
      (written alive : ℕ → Bool) (acked : ℕ → Group)
      (hwritten : ∀ p, (s.world.proc p).processShrinkingPending = true → written p = false)
      (halive : ∀ p, alive p = true → s.alive p = true)
      (hacked : ∀ p, ∀ q ∈ acked p, q ∈ s.world.comm ∧ alive q = false)
      (hlive : s.world.comm.filter alive ≠ []) (hret : s.world.ShrinkReturns alive acked) :
      Step input s (c.repair written alive acked s)
  | agreeMain {s : CallState α} (hpc : s.pc = .mainAgree) (hs : s.Settled) :
      Step input s (c.agreeMain s)
  | broadcast {s : CallState α} (hpc : s.pc = .bcast) (ok : ℕ → Bool) (garbage : ℕ → ℕ → α)
      (hok : ∀ p, ok p = true → ∀ m, s.jobRoot p = some m → s.alive m = true) :
      Step input s (c.broadcast ok garbage s)
  | agreeBcast {s : CallState α} (hpc : s.pc = .bcastAgree) (hs : s.Settled) (failedRoot : Bool)
      (hroot : c.succeeded s.agreed = false → ∀ p ∈ s.world.comm,
        (s.world.proc p).isFailedNodeWorldJobCommRoot = .ok failedRoot) :
      Step input s (c.agreeBcast failedRoot s)

/-- A run whose steps meet a condition on the states before and after. -/
def Run (input : ℕ → (ℕ → α) → β) (condition : CallState α → CallState α → Prop) :
    CallState α → CallState α → Prop :=
  Relation.ReflTransGen fun s s' ↦ c.Step input s s' ∧ condition s s'

end Collective

/-! ## The five calls -/

section

variable {α β : Type*}

/-- The calls whose flag is `mpi_status == MPI_SUCCESS`. -/
def collective (resetsStatus : Bool) (receives : ℕ → Bool) (count : ℕ → ℕ)
    (op : List β → ℕ → ℕ → α) : Collective β α where
  resetsStatus := resetsStatus
  setFlag ok _ := if ok then 1 else 0
  succeeded flag := flag ≠ 0
  watchesMaster := false
  broadcasts _ := true
  receives := receives
  count := count
  op := op
  succeeded_and a b h := by
    rw [decide_eq_true_eq] at h
    exact ⟨decide_eq_true fun ha ↦ h (by simp [ha]), decide_eq_true fun hb ↦ h (by simp [hb])⟩
  succeeded_staticRank h := absurd h Bool.false_ne_true
  broadcasts_of_receives _ _ := rfl

def mpiScatter (recvcount : ℕ) (scatter : List β → ℕ → ℕ → α) : Collective β α :=
  collective true (fun _ ↦ true) (fun _ ↦ recvcount) scatter

def mpiGather (recvcount root : ℕ) (gather : List β → ℕ → ℕ → α) : Collective β α :=
  collective false (fun i ↦ i = root) (fun jobsCount ↦ recvcount * jobsCount) gather

def mpiAllgather (recvcount : ℕ) (allgather : List β → ℕ → ℕ → α) : Collective β α :=
  collective false (fun _ ↦ true) (fun jobsCount ↦ recvcount * jobsCount) allgather

def mpiAllreduce (count : ℕ) (allreduce : List β → ℕ → ℕ → α) : Collective β α :=
  collective false (fun _ ↦ true) (fun _ ↦ count) allreduce

/-- `MPI_Reduce`: success is the flag `-1`, and a failure leaves the flag alone. -/
def mpiReduce (count root : ℕ) (reduce : List β → ℕ → ℕ → α) : Collective β α where
  resetsStatus := false
  setFlag ok flag := if ok then BitVec.allOnes 32 else flag
  succeeded flag := flag = BitVec.allOnes 32
  watchesMaster := true
  broadcasts i := i = root
  receives i := i = root
  count _ := count
  op := reduce
  succeeded_and a b h := by
    simpa only [decide_eq_true_eq, BitVec.and_eq_allOnes_iff] using h
  succeeded_staticRank _ n hn := by
    apply decide_eq_false
    intro h
    have htoNat := congrArg BitVec.toNat h
    rw [BitVec.toNat_ofNat, BitVec.toNat_allOnes] at htoNat
    omega
  broadcasts_of_receives _ h := h

end

end EntangledMPI
