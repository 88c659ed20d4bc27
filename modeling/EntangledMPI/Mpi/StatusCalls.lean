import EntangledMPI.Mpi.CollectiveRuns

/-!
# `MPI_Scatter`, `MPI_Gather`, `MPI_Allgather` and `MPI_Allreduce`

In these four the flag is `mpi_status == MPI_SUCCESS`, so a failure always shows, and what is left
is the root of the broadcast. If a master dies behind its successful operation, the agreement on the
operation shrinks the world, promotes a replica, and then finds only flags of success. The replica
is root of the broadcast with a buffer that was never filled.
-/

namespace EntangledMPI

open Collective

variable {α β : Type*}

/-- The four calls, for any operation: what they deliver at each rank from what the ranks
contribute. -/
inductive StatusCall : Collective β α → Prop
  | mpiScatter (recvcount : ℕ) (scatter : List β → ℕ → ℕ → α) :
      StatusCall (mpiScatter recvcount scatter)
  | mpiGather (recvcount root : ℕ) (gather : List β → ℕ → ℕ → α) :
      StatusCall (mpiGather recvcount root gather)
  | mpiAllgather (recvcount : ℕ) (allgather : List β → ℕ → ℕ → α) :
      StatusCall (mpiAllgather recvcount allgather)
  | mpiAllreduce (count : ℕ) (allreduce : List β → ℕ → ℕ → α) :
      StatusCall (mpiAllreduce count allreduce)

theorem StatusCall.failuresShow {c : Collective β α} (hc : StatusCall c) (s s' : CallState α) :
    c.FailuresShow s s' := by
  intro _ _ p _ _ _
  rcases hc with _ | _ | _ | _ <;> rfl

/-! ## Two workers of one job -/

/-- One job with the workers `0` and `1`. -/
def Layout.twoWorkers : Layout 2 := ⟨[[0, 1]], by decide, by decide⟩

/-- The two workers of the one job, before a call. -/
def CallState.twoWorkers : CallState ℕ where
  pc := .main
  world := World.updateComms ⟨[0, 1], Layout.twoWorkers.process [0, 1]⟩
  alive _ := true
  mpiStatus _ := true
  flag _ := 0
  ckptMasterBackup p := (Layout.twoWorkers.process [0, 1] p).node.nodeCheckpointMaster
  totalTrials := 0
  recvbuf _ _ := 0
  delivered _ := false
  attempt _ := none

theorem CallState.starts_twoWorkers :
    CallState.twoWorkers.Starts 1 (fun _ _ ↦ 5) fun _ ↦ 5 where
  ready := by
    have hshares : World.Shares ⟨[0, 1], Layout.twoWorkers.process [0, 1]⟩ Layout.twoWorkers :=
      fun p hp ↦ Layout.process_shares _ rfl hp
    exact hshares.callReady (by decide) (fun _ _ _ _ ↦ rfl) (by decide)
  pc := rfl
  totalTrials := rfl
  mpiStatus _ := rfl
  ckptMasterBackup _ _ := rfl
  delivered _ := rfl

/-- `MPI_Allreduce` of one element by sum. -/
def sumAllreduce : Collective ℕ ℕ := mpiAllreduce 1 fun inputs _ _ ↦ inputs.sum

namespace CallState

/-- `PMPI_Allreduce` succeeded. -/
def called : CallState ℕ := sumAllreduce.call (fun _ _ ↦ 5) (fun _ ↦ true) (fun _ _ ↦ 0) twoWorkers

/-- The agreement and the broadcast succeeded. -/
def summed : CallState ℕ :=
  sumAllreduce.broadcast (fun _ ↦ true) (fun _ _ ↦ 0) (sumAllreduce.agreeMain called)

end CallState

/-! ## Runs whose roots have data -/

/-- **A call of the four** returns the result of the operation over one process per job, in every
run whose broadcasts have roots with data. -/
theorem StatusCall.correct {c : Collective β α} (hc : StatusCall c) {jobs : ℕ}
    (hcount : c.count jobs < 2 ^ 31) {input : ℕ → (ℕ → α) → β} {jobInput : ℕ → β}
    {s₀ s : CallState α} (h₀ : s₀.Starts jobs input jobInput)
    (hrun : c.Run input c.RootsDelivered s₀ s) (hpc : s.pc = .returned) :
    c.Correct jobs jobInput s := by
  have hsound := (Sound.start h₀).run hcount hrun (fun _ _ h ↦ h) fun s s' _ ↦ hc.failuresShow s s'
  exact hsound.correct_of_returned hpc

/-- Both workers live, and all PMPI calls succeed. -/
theorem StatusCall.correct_twoWorkers :
    sumAllreduce.Correct 1 (fun _ ↦ 5) (sumAllreduce.agreeBcast false .summed) := by
  have hsettled : CallState.twoWorkers.Settled := fun _ _ ↦ ⟨rfl, rfl⟩
  have hcall : sumAllreduce.Step (fun _ _ ↦ 5) .twoWorkers .called := .call rfl (by decide) _ _
  have hagree : sumAllreduce.Step (fun _ _ ↦ 5) .called (sumAllreduce.agreeMain .called) :=
    .agreeMain rfl hsettled
  have hbroadcast : sumAllreduce.Step (fun _ _ ↦ 5) (sumAllreduce.agreeMain .called) .summed :=
    .broadcast (by decide) _ _ fun _ _ _ _ ↦ rfl
  have hroots : sumAllreduce.RootsDelivered (sumAllreduce.agreeMain .called) .summed :=
    fun _ _ ↦ by decide
  have hend : sumAllreduce.Step (fun _ _ ↦ 5) .summed (sumAllreduce.agreeBcast false .summed) :=
    .agreeBcast (s := .summed) rfl hsettled false fun h ↦ absurd h (by decide)
  refine StatusCall.correct (.mpiAllreduce 1 _) (by decide) CallState.starts_twoWorkers ?_
    (by decide)
  exact .tail (.tail (.tail (.single ⟨hcall, nofun⟩) ⟨hagree, nofun⟩) ⟨hbroadcast, hroots⟩)
    ⟨hend, nofun⟩

/-! ## A master that dies between the operation and the broadcast -/

namespace CallState

/-- The master died behind `PMPI_Allreduce`. -/
def masterDied : CallState ℕ := { called with alive := fun p ↦ p ≠ 0 }

/-- The agreement failed, and `1` is the master now. -/
def replicaPromoted : CallState ℕ :=
  sumAllreduce.repair (fun _ ↦ false) (fun p ↦ p ≠ 0) (fun _ ↦ [0]) masterDied

/-- The agreement and the broadcast by the new master succeeded. -/
def replicaBroadcast : CallState ℕ :=
  sumAllreduce.broadcast (fun p ↦ p = 1) (fun _ _ ↦ 0) (sumAllreduce.agreeMain replicaPromoted)

end CallState

theorem CallState.settled_of_comm_eq {s : CallState α} {p : ℕ} (hcomm : s.world.comm = [p])
    (halive : s.alive p = true) (hpending : (s.world.proc p).processShrinkingPending = false) :
    s.Settled := by
  intro q hq
  rw [hcomm, List.mem_singleton] at hq
  exact hq ▸ ⟨halive, hpending⟩

/-- The master dies after `PMPI_Allreduce`, and the replica broadcasts. -/
theorem run_replicaBroadcast :
    sumAllreduce.Run (fun _ _ ↦ 5) (fun _ _ ↦ True) .twoWorkers
      (sumAllreduce.agreeBcast false .replicaBroadcast) := by
  have hcall : sumAllreduce.Step (fun _ _ ↦ 5) .twoWorkers .called := .call rfl (by decide) _ _
  have hdie : sumAllreduce.Step (fun _ _ ↦ 5) .called .masterDied := .die _ fun _ _ ↦ rfl
  have hrepair : sumAllreduce.Step (fun _ _ ↦ 5) .masterDied .replicaPromoted := by
    refine .repair (Or.inl rfl) (fun h ↦ absurd (h 0 (by decide)).1 (by decide)) _ _ _
      (fun _ _ ↦ rfl) (fun _ h ↦ h) ?_ (by decide) ?_
    · intro _ q hq
      rw [List.mem_singleton.mp hq]
      decide
    · intro p hp
      have hp' : p = 1 := List.mem_singleton.mp hp
      rw [hp']
      exact ⟨_, rfl⟩
  have hagree : sumAllreduce.Step (fun _ _ ↦ 5) .replicaPromoted
      (sumAllreduce.agreeMain .replicaPromoted) :=
    .agreeMain rfl (CallState.settled_of_comm_eq rfl rfl rfl)
  have hbroadcast : sumAllreduce.Step (fun _ _ ↦ 5) (sumAllreduce.agreeMain .replicaPromoted)
      .replicaBroadcast := by
    refine .broadcast (by decide) _ _ ?_
    intro p hp m hm
    rw [of_decide_eq_true hp] at hm
    rw [← Option.some_inj.mp hm]
    decide
  have hend : sumAllreduce.Step (fun _ _ ↦ 5) .replicaBroadcast
      (sumAllreduce.agreeBcast false .replicaBroadcast) :=
    .agreeBcast rfl (CallState.settled_of_comm_eq rfl rfl rfl) false
      fun h ↦ absurd h (by decide)
  exact .tail (.tail (.tail (.tail (.tail (.tail .refl ⟨hcall, trivial⟩) ⟨hdie, trivial⟩)
    ⟨hrepair, trivial⟩) ⟨hagree, trivial⟩) ⟨hbroadcast, trivial⟩) ⟨hend, trivial⟩

/-- **The replica returns without the sum.** -/
theorem not_correct_mpiAllreduce :
    CallState.twoWorkers.Starts 1 (fun _ _ ↦ 5) (fun _ ↦ 5) ∧
      ∃ s, sumAllreduce.Run (fun _ _ ↦ 5) (fun _ _ ↦ True) CallState.twoWorkers s ∧
        s.pc = .returned ∧ ¬sumAllreduce.Correct 1 (fun _ ↦ 5) s := by
  exact ⟨CallState.starts_twoWorkers, _, run_replicaBroadcast, by decide,
    fun h ↦ absurd (h 1 (by decide) (by decide) 0 (by decide) rfl 0 (by decide)) (by decide)⟩

end EntangledMPI
