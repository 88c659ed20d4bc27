import EntangledMPI.Mpi.StatusCalls

/-!
# `MPI_Reduce`

Here success is the flag `-1`, and a failure leaves the flag as it was: the local variable before
the first assignment, or the `-1` of the agreement before. The call is right in the runs in which no
failure meets a flag that is already `-1`, and whose broadcasts have roots with data.

A process that becomes master during the agreement on the operation writes its `static_rank` to the
flag, because its `PMPI_Reduce` never took place. That is what makes the operation succeed at every
active process before the call goes on.
-/

namespace EntangledMPI

open Collective

variable {α β : Type*} {c : Collective β α} {jobs : ℕ} {input : ℕ → (ℕ → α) → β} {jobInput : ℕ → β}

/-! ## The last attempt at the operation -/

/-- What the agreement on the operation will find, where new masters write to the flag. -/
structure Collective.Attempted (c : Collective β α) (jobs : ℕ) (s : CallState α) : Prop where
  backup : ∀ p ∈ s.world.comm, s.ckptMasterBackup p = (s.node p).nodeCheckpointMaster
  /-- A failed operation leaves a job whose living master, whoever that is by now, says so. -/
  failed : s.pc = .mainAgree → ∀ p, s.attempt p = some false → ∃ i < jobs, ∀ m ∈ s.world.comm,
    (s.node m).jobId = (i : ℕ) → (s.node m).nodeCheckpointMaster = .yes → s.alive m = true →
      c.succeeded (s.flag m) = false
  done : s.pc ≠ .main → s.pc ≠ .mainAgree → ∀ p, s.attempt p ≠ some false

namespace Collective.Attempted

variable {s : CallState α}

theorem start (h : s.Starts jobs input jobInput) : c.Attempted jobs s where
  backup := h.ckptMasterBackup
  failed hpc := by simp [h.pc] at hpc
  done hpc := absurd h.pc hpc

theorem die (h : c.Attempted jobs s) {alive : ℕ → Bool}
    (halive : ∀ p, alive p = true → s.alive p = true) :
    c.Attempted jobs { s with alive := alive } where
  backup := h.backup
  failed hpc p hp := by
    obtain ⟨i, hi, hmaster⟩ := h.failed hpc p hp
    exact ⟨i, hi, fun m hm hmi hyes hlive ↦ hmaster m hm hmi hyes (halive m hlive)⟩
  done := h.done

theorem call (h : c.Attempted jobs s) (hready : s.world.CallReady jobs input fun i _ ↦ jobInput i)
    (hpc : s.pc = .main) {ok : ℕ → Bool} {garbage : ℕ → ℕ → α}
    (hshow : c.FailuresShow s (c.call input ok garbage s)) :
    c.Attempted jobs (c.call input ok garbage s) where
  backup := h.backup
  failed _ p hp := by
    by_cases hactive : p ∈ s.world.comm ∧ (s.node p).activeComm.isSome = true
    · obtain ⟨hmem, hsome⟩ := hactive
      obtain ⟨group, hgroup⟩ := Option.isSome_iff_exists.mp hsome
      obtain ⟨i, hi, hpi, hpyes, -⟩ := hready.active hmem hgroup
      refine ⟨i, hi, fun m hm hmi hmyes (hlive : s.alive m = true) ↦ ?_⟩
      -- the only master of the job is the process whose attempt failed
      obtain rfl := hready.master_unique hmem hm hpi hmi hpyes hmyes
      have hstatus : (c.call input ok garbage s).mpiStatus m = false := by
        simpa [Collective.call, hmem, hgroup, hlive] using hp
      have hmoves : s.pc ≠ CallPc.mainAgree := by simp [hpc]
      have hflag : (c.call input ok garbage s).flag m
          = c.setFlag ((c.call input ok garbage s).mpiStatus m) (s.flag m) := rfl
      rw [hflag, hstatus]
      exact hshow (Or.inl hpc) hmoves m hm hlive hstatus
    · simp [Collective.call, hactive] at hp
  done _ hpc' := absurd rfl hpc'

theorem repair (h : c.Attempted jobs s) (hready : s.world.CallReady jobs input fun i _ ↦ jobInput i)
    (hwatches : c.watchesMaster = true) {written alive : ℕ → Bool} {acked : ℕ → Group}
    (halive : ∀ p, alive p = true → s.alive p = true) (hlive : s.world.comm.filter alive ≠ [])
    (hret : s.world.ShrinkReturns alive acked) :
    c.Attempted jobs (c.repair written alive acked s) := by
  obtain ⟨hready', hjobId⟩ := hready.repair hlive hret
  refine ⟨?_, ?_, h.done⟩
  · intro p hp
    change (if _ then ((c.repair written alive acked s).node p).nodeCheckpointMaster
      else s.ckptMasterBackup p) = _
    split_ifs with hchanged
    · rfl
    · beta_reduce at hchanged
      rw [hwatches, Bool.true_and, decide_eq_true_eq, not_not] at hchanged
      exact hchanged
  · intro hpc p hp
    obtain ⟨i, hi, hmaster⟩ := h.failed hpc p hp
    refine ⟨i, hi, ?_⟩
    intro m hm hmi hmyes hmlive
    obtain ⟨hmem, hkeep⟩ := List.mem_filter.mp hm
    by_contra hflag
    rw [Bool.not_eq_false] at hflag
    obtain ⟨hbefore, hsame⟩ := succeeded_of_repair hready halive hlive hret hm hflag
    have hwas : (s.node m).nodeCheckpointMaster = .yes := by
      rw [← h.backup m hmem, hsame hwatches, hmyes]
    rw [hmaster m hmem ((hjobId m hm).symm.trans hmi) hwas (halive m hkeep)] at hbefore
    exact absurd hbefore Bool.false_ne_true

/-- If the agreement shows success, nobody's operation failed. -/
theorem agreeMain (h : c.Attempted jobs s)
    (hready : s.world.CallReady jobs input fun i _ ↦ jobInput i) (hpc : s.pc = .mainAgree)
    (hs : s.Settled) : c.Attempted jobs (c.agreeMain s) := by
  refine ⟨h.backup, ?_, ?_⟩
  · intro hpc'
    simp only [Collective.agreeMain] at hpc'
    split_ifs at hpc'
  · intro hpc' _ p hp
    have hagreed : c.succeeded s.agreed = true := by
      by_contra hfailed
      simp [Collective.agreeMain, hfailed] at hpc'
    obtain ⟨i, hi, hmaster⟩ := h.failed hpc p hp
    obtain ⟨m, hm, hmi, hmyes⟩ := hready.exists_master hi
    have hflag := hmaster m hm hmi hmyes (hs m hm).1
    rw [succeeded_of_agreed hagreed hm (hs m hm).1] at hflag
    exact absurd hflag.symm Bool.false_ne_true

theorem broadcast (h : c.Attempted jobs s) (hpc : s.pc = .bcast) (ok : ℕ → Bool)
    (garbage : ℕ → ℕ → α) : c.Attempted jobs (c.broadcast ok garbage s) where
  backup := h.backup
  failed hpc' := by simp [Collective.broadcast] at hpc'
  done _ _ := h.done (by simp [hpc]) (by simp [hpc])

theorem agreeBcast (h : c.Attempted jobs s) (hpc : s.pc = .bcastAgree) (failedRoot : Bool) :
    c.Attempted jobs (c.agreeBcast failedRoot s) where
  backup := h.backup
  failed hpc' := by
    simp only [Collective.agreeBcast] at hpc'
    split_ifs at hpc'
  done _ _ := h.done (by simp [hpc]) (by simp [hpc])

/-- **Every step keeps it**, for a call that watches for new masters. -/
theorem step {s' : CallState α} (h : c.Attempted jobs s)
    (hready : s.world.CallReady jobs input fun i _ ↦ jobInput i) (hwatches : c.watchesMaster = true)
    (hstep : c.Step input s s') (hshow : c.FailuresShow s s') : c.Attempted jobs s' := by
  cases hstep with
  | die alive halive => exact h.die halive
  | call hpc htrials ok garbage => exact h.call hready hpc hshow
  | repair hpc hfail written alive acked hwritten halive hacked hlive hret =>
    exact h.repair hready hwatches halive hlive hret
  | agreeMain hpc hs => exact h.agreeMain hready hpc hs
  | broadcast hpc ok garbage hok => exact h.broadcast hpc ok garbage
  | agreeBcast hpc hs failedRoot hroot => exact h.agreeBcast hpc failedRoot

end Collective.Attempted

theorem Collective.Sound.run_attempted {s₀ s : CallState α}
    (hwatches : c.watchesMaster = true) (hcount : c.count jobs < 2 ^ 31)
    (h₀ : s₀.Starts jobs input jobInput)
    (hrun : c.Run input (fun s s' ↦ c.RootsDelivered s s' ∧ c.FailuresShow s s') s₀ s) :
    c.Sound jobs input jobInput s ∧ c.Attempted jobs s := by
  induction hrun with
  | refl => exact ⟨Sound.start h₀, Attempted.start h₀⟩
  | tail _ hlast ih =>
    obtain ⟨hsound, hattempted⟩ := ih
    obtain ⟨hstep, hroots, hshow⟩ := hlast
    exact ⟨hsound.step hcount hstep hroots hshow, hattempted.step hsound.ready hwatches hstep hshow⟩

/-- **`MPI_Reduce` returns with the operation done and the result everywhere in the root job**, in
every run in which no failure meets a flag that is `-1` and all broadcasts have roots with data. -/
theorem mpiReduce_correct {count root : ℕ} (hcount : count < 2 ^ 31)
    {reduce : List β → ℕ → ℕ → α} {s₀ s : CallState α} (h₀ : s₀.Starts jobs input jobInput)
    (hrun : (mpiReduce count root reduce).Run input (fun s s' ↦
      (mpiReduce count root reduce).RootsDelivered s s' ∧
        (mpiReduce count root reduce).FailuresShow s s') s₀ s)
    (hpc : s.pc = .returned) :
    (∀ p, s.attempt p ≠ some false) ∧ (mpiReduce count root reduce).Correct jobs jobInput s := by
  obtain ⟨hsound, hattempted⟩ := Sound.run_attempted rfl hcount h₀ hrun
  exact ⟨hattempted.done (by simp [hpc]) (by simp [hpc]), hsound.correct_of_returned hpc⟩

/-- `MPI_Reduce` of one element by sum to job `0`. -/
def sumReduce : Collective ℕ ℕ := mpiReduce 1 0 fun inputs _ _ ↦ inputs.sum

namespace CallState

/-- `PMPI_Reduce` succeeded at the master of the two workers. -/
def reduced : CallState ℕ := sumReduce.call (fun _ _ ↦ 5) (fun _ ↦ true) (fun _ _ ↦ 0) twoWorkers

/-- The agreement and the broadcast succeeded. -/
def reducedBoth : CallState ℕ :=
  sumReduce.broadcast (fun _ ↦ true) (fun _ _ ↦ 0) (sumReduce.agreeMain reduced)

end CallState

/-- Both workers live, and all PMPI calls succeed. -/
theorem mpiReduce_correct_twoWorkers :
    (∀ p, (sumReduce.agreeBcast false .reducedBoth).attempt p ≠ some false) ∧
      sumReduce.Correct 1 (fun _ ↦ 5) (sumReduce.agreeBcast false .reducedBoth) := by
  have hsettled : CallState.twoWorkers.Settled := fun _ _ ↦ ⟨rfl, rfl⟩
  have hcall : sumReduce.Step (fun _ _ ↦ 5) .twoWorkers .reduced := .call rfl (by decide) _ _
  have hagree : sumReduce.Step (fun _ _ ↦ 5) .reduced (sumReduce.agreeMain .reduced) :=
    .agreeMain rfl hsettled
  have hbroadcast : sumReduce.Step (fun _ _ ↦ 5) (sumReduce.agreeMain .reduced) .reducedBoth :=
    .broadcast (by decide) _ _ fun _ _ _ _ ↦ rfl
  have hroots : sumReduce.RootsDelivered (sumReduce.agreeMain .reduced) .reducedBoth :=
    fun _ _ ↦ by decide
  have hend : sumReduce.Step (fun _ _ ↦ 5) .reducedBoth (sumReduce.agreeBcast false .reducedBoth) :=
    .agreeBcast (s := .reducedBoth) rfl hsettled false fun h ↦ absurd h (by decide)
  refine mpiReduce_correct (by decide) CallState.starts_twoWorkers ?_ (by decide)
  exact .tail (.tail (.tail (.single ⟨hcall, nofun, fun _ _ ↦ by decide⟩)
    ⟨hagree, nofun, by simp [Collective.FailuresShow, CallState.reduced, Collective.call]⟩)
    ⟨hbroadcast, hroots, fun _ _ ↦ by decide⟩)
    ⟨hend, nofun, by simp [Collective.FailuresShow, CallState.reducedBoth, Collective.broadcast]⟩

/-! ## A broadcast whose failure does not show -/

/-- One job with the workers `0`, `1` and `2`. -/
def Layout.threeWorkers : Layout 3 := ⟨[[0, 1, 2]], by decide, by decide⟩

namespace CallState

/-- The three workers of the one job, before a call. -/
def threeWorkers : CallState ℕ where
  pc := .main
  world := World.updateComms ⟨[0, 1, 2], Layout.threeWorkers.process [0, 1, 2]⟩
  alive _ := true
  mpiStatus _ := true
  flag _ := 0
  ckptMasterBackup p := (Layout.threeWorkers.process [0, 1, 2] p).node.nodeCheckpointMaster
  totalTrials := 0
  recvbuf _ _ := 0
  delivered _ := false
  attempt _ := none

theorem starts_threeWorkers : threeWorkers.Starts 1 (fun _ _ ↦ 5) fun _ ↦ 5 where
  ready := by
    have hshares : World.Shares ⟨[0, 1, 2], Layout.threeWorkers.process [0, 1, 2]⟩
        Layout.threeWorkers := fun p hp ↦ Layout.process_shares _ rfl hp
    exact hshares.callReady (by decide) (fun _ _ _ _ ↦ rfl) (by decide)
  pc := rfl
  totalTrials := rfl
  mpiStatus _ := rfl
  ckptMasterBackup _ _ := rfl
  delivered _ := rfl

/-- `PMPI_Reduce` succeeded, and so did the agreement on it. -/
def reducedAtMaster : CallState ℕ :=
  sumReduce.agreeMain (sumReduce.call (fun _ _ ↦ 5) (fun _ ↦ true) (fun _ _ ↦ 0) threeWorkers)

/-- The replica `2` died and `PMPI_Bcast` fails at the replica `1`, whose flag is `-1` still. -/
def bcastFailed : CallState ℕ :=
  sumReduce.broadcast (fun p ↦ p = 0) (fun _ _ ↦ 0) { reducedAtMaster with alive := fun p ↦ p ≠ 2 }

/-- The agreement failed and the world was shrunk to `0` and `1`. -/
def replicaDropped : CallState ℕ :=
  sumReduce.repair (fun _ ↦ false) (fun p ↦ p ≠ 2) (fun _ ↦ [2]) bcastFailed

end CallState

/-- A replica dies in the broadcast, and the agreement does not see that the broadcast failed. -/
theorem run_replicaDropped :
    sumReduce.Run (fun _ _ ↦ 5) (fun _ _ ↦ True) .threeWorkers
      (sumReduce.agreeBcast false .replicaDropped) := by
  have hsettled : CallState.threeWorkers.Settled := fun _ _ ↦ ⟨rfl, rfl⟩
  have hcall : sumReduce.Step (fun _ _ ↦ 5) .threeWorkers
      (sumReduce.call (fun _ _ ↦ 5) (fun _ ↦ true) (fun _ _ ↦ 0) .threeWorkers) :=
    .call rfl (by decide) _ _
  have hagree : sumReduce.Step (fun _ _ ↦ 5)
      (sumReduce.call (fun _ _ ↦ 5) (fun _ ↦ true) (fun _ _ ↦ 0) .threeWorkers) .reducedAtMaster :=
    .agreeMain rfl hsettled
  have hdie : sumReduce.Step (fun _ _ ↦ 5) .reducedAtMaster
      { CallState.reducedAtMaster with alive := fun p ↦ p ≠ 2 } := .die _ fun _ _ ↦ rfl
  have hbroadcast : sumReduce.Step (fun _ _ ↦ 5)
      { CallState.reducedAtMaster with alive := fun p ↦ p ≠ 2 } .bcastFailed := by
    refine .broadcast (by decide) _ _ ?_
    intro p hp m hm
    rw [of_decide_eq_true hp] at hm
    rw [← Option.some_inj.mp hm]
    decide
  have hrepair : sumReduce.Step (fun _ _ ↦ 5) .bcastFailed .replicaDropped := by
    refine .repair (Or.inr rfl) (fun h ↦ absurd (h 2 (by decide)).1 (by decide)) _ _ _
      (fun _ _ ↦ rfl) (fun _ h ↦ h) ?_ (by decide) ?_
    · intro _ q hq
      rw [List.mem_singleton.mp hq]
      decide
    · intro p hp
      have hp' : p = 0 ∨ p = 1 := List.mem_pair.mp hp
      rcases hp' with rfl | rfl
      · exact ⟨_, rfl⟩
      · exact ⟨_, rfl⟩
  have hend : sumReduce.Step (fun _ _ ↦ 5) .replicaDropped
      (sumReduce.agreeBcast false .replicaDropped) := by
    refine .agreeBcast rfl ?_ false fun h ↦ absurd h (by decide)
    intro p hp
    have hp' : p = 0 ∨ p = 1 := List.mem_pair.mp hp
    rcases hp' with rfl | rfl
    · exact ⟨rfl, rfl⟩
    · exact ⟨rfl, rfl⟩
  exact .tail (.tail (.tail (.tail (.tail (.tail .refl ⟨hcall, trivial⟩) ⟨hagree, trivial⟩)
    ⟨hdie, trivial⟩) ⟨hbroadcast, trivial⟩) ⟨hrepair, trivial⟩) ⟨hend, trivial⟩

/-- **The replica `1` returns without the sum.** -/
theorem not_correct_mpiReduce :
    CallState.threeWorkers.Starts 1 (fun _ _ ↦ 5) (fun _ ↦ 5) ∧
      ∃ s, sumReduce.Run (fun _ _ ↦ 5) (fun _ _ ↦ True) CallState.threeWorkers s ∧
        s.pc = .returned ∧
          ¬((∀ p, s.attempt p ≠ some false) ∧ sumReduce.Correct 1 (fun _ ↦ 5) s) := by
  exact ⟨CallState.starts_threeWorkers, _, run_replicaDropped, by decide,
    fun h ↦ absurd (h.2 1 (by decide) (by decide) 0 (by decide) rfl 0 (by decide)) (by decide)⟩

end EntangledMPI
