import EntangledMPI.Mpi.LoopDecisions
import EntangledMPI.Mpi.Reduce

/-!
# A status left over from an earlier attempt

A worker that is not in `active_comm` takes no part in the operation of an attempt, and votes with
the `mpi_status` it has. `MPI_Scatter` sets that back at the head of its loop. In the other four
calls it is what the last `PMPI_Bcast` has returned, so a broadcast that failed and led back to the
operation makes the worker vote for a failure ever after.

## Main result

`lastAttempt_iff`: at every loop head, an attempt without failures is the last one exactly when
every worker outside `active_comm` has `MPI_SUCCESS` in `mpi_status`, or the call is
`MPI_Scatter`.
-/

namespace EntangledMPI

open Collective

variable {α β : Type*}

/-- The five calls. -/
inductive CollectiveCall : Collective β α → Prop
  | status {c : Collective β α} (h : StatusCall c) : CollectiveCall c
  | mpiReduce (count root : ℕ) (reduce : List β → ℕ → ℕ → α) :
      CollectiveCall (mpiReduce count root reduce)

/-- A call as it is entered, whatever the processes contribute. -/
structure CallState.Enters (jobs : ℕ) (s : CallState α) : Prop where
  ready : s.world.CallReady jobs (fun _ ↦ ()) fun _ ↦ ()
  pc : s.pc = .main
  totalTrials : s.totalTrials = 0
  mpiStatus : ∀ p, s.mpiStatus p = true

theorem CallState.Starts.enters {jobs : ℕ} {input : ℕ → (ℕ → α) → β} {jobInput : ℕ → β}
    {s : CallState α} (h : s.Starts jobs input jobInput) : s.Enters jobs where
  ready := { h.ready with input := fun _ _ _ _ ↦ rfl }
  pc := h.pc
  totalTrials := h.totalTrials
  mpiStatus := h.mpiStatus

/-! ## Flags of success -/

theorem foldl_and_of_forall_eq {n : ℕ} {b v : BitVec n} {flags : List (BitVec n)}
    (h : ∀ a ∈ flags, a = v) (hb : b = BitVec.allOnes n ∨ b = v) :
    flags.foldl (· &&& ·) b = BitVec.allOnes n ∨ flags.foldl (· &&& ·) b = v := by
  induction flags generalizing b with
  | nil => exact hb
  | cons a flags ih =>
    obtain ⟨ha, hflags⟩ := List.forall_mem_cons.mp h
    refine ih hflags (Or.inr ?_)
    change b &&& a = v
    rcases hb with rfl | rfl
    · rw [BitVec.allOnes_and, ha]
    · rw [ha, BitVec.and_self]

namespace CollectiveCall

variable {c : Collective β α}

theorem setFlag_true (hc : CollectiveCall c) (flag flag' : BitVec 32) :
    c.setFlag true flag = c.setFlag true flag' := by
  rcases hc with (_ | _ | _ | _) | _ <;> rfl

theorem succeeded_setFlag (hc : CollectiveCall c) : c.succeeded (c.setFlag true 0) = true := by
  rcases hc with (_ | _ | _ | _) | _ <;> rfl

theorem setFlag_false (hc : CollectiveCall c) {flag : BitVec 32} (h : c.succeeded flag = false) :
    c.succeeded (c.setFlag false flag) = false := by
  rcases hc with (_ | _ | _ | _) | _
  case mpiReduce => exact h
  all_goals rfl

theorem succeeded_agreed (hc : CollectiveCall c) {s : CallState α}
    (h : ∀ p ∈ s.world.comm, s.flag p = c.setFlag true 0) : c.succeeded s.agreed = true := by
  have hflags : ∀ a ∈ (s.world.comm.filter s.alive).map s.flag, a = c.setFlag true 0 := by
    intro a ha
    obtain ⟨p, hp, rfl⟩ := List.mem_map.mp ha
    exact h p (List.mem_of_mem_filter hp)
  have hempty : c.succeeded (BitVec.allOnes 32) = true := by
    rcases hc with (_ | _ | _ | _) | _ <;> rfl
  rw [CallState.agreed]
  rcases foldl_and_of_forall_eq hflags (Or.inl rfl) with hagreed | hagreed
  · rw [hagreed, hempty]
  · rw [hagreed, hc.succeeded_setFlag]

end CollectiveCall

namespace Collective

variable (c : Collective β α) (input : ℕ → (ℕ → α) → β)

/-! ## An attempt without failures -/

/-- The steps of an attempt in which nobody dies and every PMPI call succeeds where it is made. -/
inductive CleanStep : CallState α → CallState α → Prop
  | call {s : CallState α} (hpc : s.pc = .main) (htrials : s.totalTrials + 1 < noTrials)
      (ok : ℕ → Bool) (garbage : ℕ → ℕ → α)
      (hok : ∀ p ∈ s.world.comm, (s.node p).activeComm.isSome → ok p = true) :
      CleanStep s (c.call input ok garbage s)
  | agreeMain {s : CallState α} (hpc : s.pc = .mainAgree) (hs : s.Settled) :
      CleanStep s (c.agreeMain s)
  | broadcast {s : CallState α} (hpc : s.pc = .bcast) (ok : ℕ → Bool) (garbage : ℕ → ℕ → α)
      (hok : ∀ p ∈ s.world.comm, ok p = true)
      (halive : ∀ p, ok p = true → ∀ m, s.jobRoot p = some m → s.alive m = true) :
      CleanStep s (c.broadcast ok garbage s)
  | agreeBcast {s : CallState α} (hpc : s.pc = .bcastAgree) (hs : s.Settled) (failedRoot : Bool)
      (hroot : c.succeeded s.agreed = false → ∀ p ∈ s.world.comm,
        (s.world.proc p).isFailedNodeWorldJobCommRoot = .ok failedRoot) :
      CleanStep s (c.agreeBcast failedRoot s)

def CleanRun : CallState α → CallState α → Prop := Relation.ReflTransGen (c.CleanStep input)

/-- In an attempt that begins in `s` without failures nobody votes for one. -/
def NothingLeftOver (s : CallState α) : Prop :=
  ∀ s', c.CleanStep input s s' → ∀ p ∈ s.world.comm, c.succeeded (s'.flag p) = true

/-- The attempt that begins in `s` is the last one if there are no failures: wherever it stands, the
call can still return from it, and only from it. -/
def LastAttempt (s : CallState α) : Prop :=
  ∀ s', c.CleanRun input s s' → ∃ s'', c.CleanRun input s' s'' ∧ s''.pc = .returned ∧
    s''.totalTrials = s.totalTrials + 1

/-- No worker outside `active_comm` has a failure in `mpi_status` when the next attempt begins. -/
def NoFailureKept (s : CallState α) : Prop :=
  c.resetsStatus = true ∨
    ∀ p ∈ s.world.comm, (s.node p).activeComm = none → s.mpiStatus p = true

variable {c input} {s s' t t' : CallState α}

theorem CleanStep.step (h : c.CleanStep input s s') : c.Step input s s' := by
  cases h with
  | call hpc htrials ok garbage hok => exact .call hpc htrials ok garbage
  | agreeMain hpc hs => exact .agreeMain hpc hs
  | broadcast hpc ok garbage hok halive => exact .broadcast hpc ok garbage halive
  | agreeBcast hpc hs failedRoot hroot => exact .agreeBcast hpc hs failedRoot hroot

theorem CleanStep.totalTrials (h : c.CleanStep input s s') :
    s'.totalTrials = if s.pc = .main then s.totalTrials + 1 else s.totalTrials := by
  cases h with
  | call hpc htrials ok garbage hok => rw [if_pos hpc, Collective.call]
  | agreeMain hpc hs => rw [if_neg (by simp [hpc]), Collective.agreeMain]
  | broadcast hpc ok garbage hok halive => rw [if_neg (by simp [hpc]), Collective.broadcast]
  | agreeBcast hpc hs failedRoot hroot => rw [if_neg (by simp [hpc]), Collective.agreeBcast]

theorem CleanRun.totalTrials_le (h : c.CleanRun input s s') : s.totalTrials ≤ s'.totalTrials := by
  induction h with
  | refl => exact le_refl _
  | tail _ hstep ih =>
    rw [hstep.totalTrials]
    split
    next => exact ih.trans (Nat.le_succ _)
    next => exact ih

/-- How many steps an attempt that succeeds still takes. -/
def stepsLeft : CallPc → ℕ
  | .main => 4
  | .mainAgree => 3
  | .bcast => 2
  | .bcastAgree => 1
  | .returned => 0

/-- The call is in the attempt that began in `s`, and nobody has voted for a failure. -/
structure OnTime (c : Collective β α) (s t : CallState α) : Prop where
  world : t.world = s.world
  alive : t.alive = s.alive
  stage : t = s ∨ t.pc ≠ .main ∧ t.totalTrials = s.totalTrials + 1 ∧
    (t.pc = .mainAgree ∨ t.pc = .bcastAgree → ∀ p ∈ s.world.comm, t.flag p = c.setFlag true 0)

namespace OnTime

theorem start (s : CallState α) : c.OnTime s s := ⟨rfl, rfl, Or.inl rfl⟩

theorem settled (h : c.OnTime s t) (hs : s.Settled) : t.Settled := by
  intro p hp
  rw [h.world] at hp
  obtain ⟨halive, hpending⟩ := hs p hp
  exact ⟨by rwa [h.alive], by rwa [h.world]⟩

/-- The flags of the operation: an active process has just succeeded, and the others kept no
failure. -/
theorem flag_call (hc : CollectiveCall c) (hkept : c.NoFailureKept s) {ok : ℕ → Bool}
    {garbage : ℕ → ℕ → α}
    (hok : ∀ p ∈ s.world.comm, (s.node p).activeComm.isSome → ok p = true) {p : ℕ}
    (hp : p ∈ s.world.comm) : (c.call input ok garbage s).flag p = c.setFlag true 0 := by
  have hstatus : (c.call input ok garbage s).mpiStatus p = true := by
    simp only [Collective.call]
    cases hgroup : (s.node p).activeComm with
    | some group => exact hok p hp (by rw [hgroup]; rfl)
    | none =>
      rw [Bool.or_eq_true]
      exact hkept.imp_right fun h ↦ h p hp hgroup
  change c.setFlag ((c.call input ok garbage s).mpiStatus p) (s.flag p) = _
  rw [hstatus, hc.setFlag_true]

/-- **A step of the attempt** leads on. -/
theorem step (hc : CollectiveCall c) (hpc : s.pc = .main) (hkept : c.NoFailureKept s)
    (h : c.OnTime s t) (hstep : c.CleanStep input t t') :
    c.OnTime s t' ∧ stepsLeft t'.pc < stepsLeft t.pc := by
  obtain ⟨hworld, halive, hstage⟩ := h
  -- in front of the call the states agree, and behind it every flag that counts is set
  cases hstep with
  | call hpc' htrials ok garbage hok =>
    obtain rfl : t = s := hstage.resolve_right fun h ↦ h.1 hpc'
    refine ⟨⟨rfl, rfl, Or.inr ⟨by simp [Collective.call], rfl, fun _ p hp ↦ ?_⟩⟩, ?_⟩
    · exact flag_call hc hkept hok hp
    · rw [hpc']
      exact Nat.lt_succ_self 3
  | agreeMain hpc' hs =>
    obtain ⟨-, htrials, hflags⟩ := hstage.resolve_left fun h ↦ by simp [h, hpc] at hpc'
    have hagreed : c.succeeded t.agreed = true :=
      hc.succeeded_agreed fun p hp ↦ hflags (Or.inl hpc') p (hworld ▸ hp)
    have hnext : (c.agreeMain t).pc = .bcast := by rw [Collective.agreeMain, if_pos hagreed]
    refine ⟨⟨hworld, halive, Or.inr ⟨by simp [hnext], htrials, by simp [hnext]⟩⟩, ?_⟩
    rw [hnext, hpc']
    decide
  | broadcast hpc' ok garbage hok hsent =>
    obtain ⟨-, htrials, -⟩ := hstage.resolve_left fun h ↦ by simp [h, hpc] at hpc'
    refine ⟨⟨hworld, halive, Or.inr ⟨by simp [Collective.broadcast], htrials, fun _ p hp ↦ ?_⟩⟩, ?_⟩
    · have hstatus : (c.broadcast ok garbage t).mpiStatus p = true := by
        simp only [Collective.broadcast]
        split
        next => exact hok p (hworld ▸ hp)
        next => rfl
      rw [flag_broadcast, hstatus, hc.setFlag_true]
    · rw [hpc']
      exact Nat.lt_succ_self 1
  | agreeBcast hpc' hs failedRoot hroot =>
    obtain ⟨-, htrials, hflags⟩ := hstage.resolve_left fun h ↦ by simp [h, hpc] at hpc'
    have hagreed : c.succeeded t.agreed = true :=
      hc.succeeded_agreed fun p hp ↦ hflags (Or.inr hpc') p (hworld ▸ hp)
    have hnext : (c.agreeBcast failedRoot t).pc = .returned := by
      rw [Collective.agreeBcast, if_pos hagreed]
    refine ⟨⟨hworld, halive, Or.inr ⟨by simp [hnext], htrials, by simp [hnext]⟩⟩, ?_⟩
    rw [hnext, hpc']
    decide

theorem run (hc : CollectiveCall c) (hpc : s.pc = .main) (hkept : c.NoFailureKept s)
    (hrun : c.CleanRun input s t) : c.OnTime s t := by
  induction hrun with
  | refl => exact start s
  | tail _ hstep ih => exact (ih.step hc hpc hkept hstep).1

theorem exists_step {jobs : ℕ} (hc : CollectiveCall c) (hpc : s.pc = .main)
    (hready : s.world.CallReady jobs (fun _ ↦ ()) fun _ ↦ ()) (hs : s.Settled)
    (htrials : s.totalTrials + 1 < noTrials) (h : c.OnTime s t) (hnot : t.pc ≠ .returned) :
    ∃ t', c.CleanStep input t t' := by
  have hsettled := h.settled hs
  cases hpc' : t.pc with
  | main =>
    obtain rfl : t = s := h.stage.resolve_right fun hstage ↦ hstage.1 hpc'
    exact ⟨_, .call hpc' htrials (fun _ ↦ true) t.recvbuf fun _ _ _ ↦ rfl⟩
  | mainAgree => exact ⟨_, .agreeMain hpc' hsettled⟩
  | bcast =>
    -- the root of a job is one of the living processes
    refine ⟨_, .broadcast hpc' (fun p ↦ p ∈ t.world.comm) t.recvbuf
      (fun p hp ↦ decide_eq_true hp) ?_⟩
    intro p hp m hm
    have hp' := of_decide_eq_true hp
    rw [h.world] at hp'
    obtain ⟨L, -, hshares, -⟩ := hready.layout
    obtain ⟨i, hi, -⟩ := (hshares.follows p hp').job
    obtain ⟨m', hm', -, hroot, -⟩ := hready.root hp' hi
    obtain rfl : m' = m := by
      rw [CallState.jobRoot, CallState.node, h.world] at hm
      exact Option.some_inj.mp (hroot.symm.trans hm)
    rw [h.alive]
    exact (hs m' hm').1
  | bcastAgree =>
    obtain ⟨-, -, hflags⟩ := h.stage.resolve_left fun hts ↦ by simp [hts, hpc] at hpc'
    refine ⟨_, .agreeBcast hpc' hsettled false fun hfailed ↦ ?_⟩
    rw [hc.succeeded_agreed fun p hp ↦ hflags (Or.inr hpc') p (h.world ▸ hp)] at hfailed
    exact absurd hfailed.symm Bool.false_ne_true
  | returned => exact absurd hpc' hnot

/-- **The attempt goes on to its end.** -/
theorem exists_returned {jobs : ℕ} (hc : CollectiveCall c) (hpc : s.pc = .main)
    (hkept : c.NoFailureKept s) (hready : s.world.CallReady jobs (fun _ ↦ ()) fun _ ↦ ())
    (hs : s.Settled) (htrials : s.totalTrials + 1 < noTrials) (h : c.OnTime s t) :
    ∃ t', c.CleanRun input t t' ∧ t'.pc = .returned ∧ t'.totalTrials = s.totalTrials + 1 := by
  induction hleft : stepsLeft t.pc using Nat.strong_induction_on generalizing t with
  | _ left ih =>
    by_cases hret : t.pc = .returned
    · refine ⟨t, .refl, hret, ?_⟩
      exact (h.stage.resolve_left fun hts ↦ by simp [hts, hpc] at hret).2.1
    · obtain ⟨t', hstep⟩ : ∃ t', c.CleanStep input t t' :=
        h.exists_step hc hpc hready hs htrials hret
      obtain ⟨h', hlt⟩ := h.step hc hpc hkept hstep
      obtain ⟨t'', hrun, hend⟩ := ih _ (hleft ▸ hlt) h' rfl
      exact ⟨t'', .head hstep hrun, hend⟩

end OnTime

/-! ## Every state a call can reach -/

/-- What holds whatever has failed: the communicators fit, and at the head of the loop every process
has `MPI_SUCCESS` in `mpi_status` or a flag that still shows the failure of the last attempt. -/
structure HeadFlags (c : Collective β α) (jobs : ℕ) (s : CallState α) : Prop where
  ready : s.world.CallReady jobs (fun _ ↦ ()) fun _ ↦ ()
  head : s.pc = .main → ∀ p ∈ s.world.comm, s.mpiStatus p = true ∨
    c.succeeded (c.setFlag false (s.flag p)) = false

namespace HeadFlags

variable {jobs : ℕ}

theorem start (h : s.Enters jobs) : c.HeadFlags jobs s :=
  ⟨h.ready, fun _ p _ ↦ Or.inl (h.mpiStatus p)⟩

theorem step (hc : CollectiveCall c) (h : c.HeadFlags jobs s) (hstep : c.Step input s s') :
    c.HeadFlags jobs s' := by
  cases hstep with
  | die alive halive => exact ⟨h.ready, h.head⟩
  | call hpc htrials ok garbage => exact ⟨h.ready, fun hhead ↦ by simp [Collective.call] at hhead⟩
  | repair hpc hfail written alive acked hwritten halive hacked hlive hret =>
    refine ⟨(h.ready.repair hlive hret).1, fun hhead ↦ ?_⟩
    rcases hpc with hpc | hpc <;> simp [Collective.repair, hpc] at hhead
  | agreeMain hpc hs =>
    refine ⟨h.ready, fun hhead p _ ↦ Or.inr (hc.setFlag_false ?_)⟩
    change c.succeeded s.agreed = false
    by_contra hagreed
    simp [Collective.agreeMain, Bool.eq_true_of_not_eq_false hagreed] at hhead
  | broadcast hpc ok garbage hok =>
    exact ⟨h.ready, fun hhead ↦ by simp [Collective.broadcast] at hhead⟩
  | agreeBcast hpc hs failedRoot hroot =>
    refine ⟨h.ready, fun hhead p _ ↦ Or.inr (hc.setFlag_false ?_)⟩
    change c.succeeded s.agreed = false
    by_contra hagreed
    simp [Collective.agreeBcast, Bool.eq_true_of_not_eq_false hagreed] at hhead

theorem run (hc : CollectiveCall c) {condition : CallState α → CallState α → Prop}
    (h₀ : c.HeadFlags jobs s) (hrun : c.Run input condition s s') : c.HeadFlags jobs s' := by
  induction hrun with
  | refl => exact h₀
  | tail _ hlast ih => exact ih.step hc hlast.1

end HeadFlags

/-- A status that was kept shows in the flag. -/
theorem noFailureKept_of_succeeded {jobs : ℕ} (h : c.HeadFlags jobs s) (hpc : s.pc = .main)
    (hflags : ∀ p ∈ s.world.comm,
      c.succeeded ((c.call input (fun _ ↦ true) s.recvbuf s).flag p) = true) :
    c.NoFailureKept s := by
  rw [NoFailureKept, or_iff_not_imp_left]
  intro hresets p hp hgroup
  rcases h.head hpc p hp with hstatus | hflag
  · exact hstatus
  · by_contra hfailed
    have hsucceeded := hflags p hp
    have hreset : c.resetsStatus = false := Bool.eq_false_of_not_eq_true hresets
    simp only [Collective.call, hgroup, hreset, Bool.eq_false_of_not_eq_true hfailed,
      Bool.or_self, hflag] at hsucceeded
    exact absurd hsucceeded Bool.false_ne_true

/-- A vote for a failure leads back to the head of the loop, and to a second attempt. -/
theorem not_lastAttempt (hpc : s.pc = .main) (hs : s.Settled)
    (htrials : s.totalTrials + 1 < noTrials)
    (hfailed : c.succeeded (c.call input (fun _ ↦ true) s.recvbuf s).agreed = false) :
    ¬c.LastAttempt input s := by
  intro hlast
  set t := c.call input (fun _ ↦ true) s.recvbuf s with ht
  have hcall : c.CleanStep input s t := .call hpc htrials _ _ fun _ _ _ ↦ rfl
  have hback : (c.agreeMain t).pc = .main := by simp [Collective.agreeMain, hfailed]
  have hrun : c.CleanRun input s (c.agreeMain t) := .tail (.single hcall) (.agreeMain rfl hs)
  obtain ⟨s'', hrun', hret, htotal⟩ := hlast _ hrun
  rcases hrun'.cases_head with heq | ⟨u, hstep, hrest⟩
  · rw [← heq, hback] at hret
    exact absurd hret (by simp)
  · have hle := CleanRun.totalTrials_le hrest
    rw [hstep.totalTrials, if_pos hback, htotal] at hle
    change s.totalTrials + 1 + 1 ≤ s.totalTrials + 1 at hle
    omega

/-- **When an attempt without failures is the last one**, at every loop head. -/
theorem lastAttempt_iff {jobs : ℕ} (hc : CollectiveCall c) (hhead : c.HeadFlags jobs s)
    (hpc : s.pc = .main) (hs : s.Settled) (htrials : s.totalTrials + 1 < noTrials) :
    (c.NothingLeftOver input s ↔ c.NoFailureKept s) ∧
      (c.LastAttempt input s ↔ c.NoFailureKept s) := by
  have hcall : c.CleanStep input s (c.call input (fun _ ↦ true) s.recvbuf s) :=
    .call hpc htrials _ _ fun _ _ _ ↦ rfl
  refine ⟨⟨fun h ↦ noFailureKept_of_succeeded hhead hpc (h _ hcall), ?_⟩, ⟨?_, ?_⟩⟩
  · intro hkept s' hstep p hp
    cases hstep with
    | call _ _ ok garbage hok => rw [OnTime.flag_call hc hkept hok hp, hc.succeeded_setFlag]
    | agreeMain hpc' => simp [hpc] at hpc'
    | broadcast hpc' => simp [hpc] at hpc'
    | agreeBcast hpc' => simp [hpc] at hpc'
  · intro hlast
    by_contra hkept
    refine not_lastAttempt hpc hs htrials ?_ hlast
    by_contra hagreed
    exact hkept (noFailureKept_of_succeeded hhead hpc fun p hp ↦
      succeeded_of_agreed (Bool.eq_true_of_not_eq_false hagreed) hp (hs p hp).1)
  · intro hkept s' hrun'
    exact (OnTime.run hc hpc hkept hrun').exists_returned hc hpc hkept hhead.ready hs htrials

end Collective

/-! ## A failed operation and a failed broadcast -/

namespace CallState

/-- The replica `2` is dead, and `PMPI_Reduce` fails at the master. -/
def operationFailed : CallState ℕ :=
  sumReduce.call (fun _ _ ↦ 5) (fun _ ↦ false) (fun _ _ ↦ 0)
    { threeWorkers with alive := fun p ↦ p ≠ 2 }

/-- The survivors have shrunk the world, and are back at the head of the loop. -/
def operationRetried : CallState ℕ :=
  sumReduce.agreeMain
    (sumReduce.repair (fun _ ↦ false) (fun p ↦ p ≠ 2) (fun _ ↦ [2]) operationFailed)

theorem settled_operationRetried : operationRetried.Settled := by
  intro p hp
  have hp' : p = 0 ∨ p = 1 := List.mem_pair.mp hp
  rcases hp' with rfl | rfl
  · exact ⟨rfl, rfl⟩
  · exact ⟨rfl, rfl⟩

theorem run_operationRetried :
    sumReduce.Run (fun _ _ ↦ 5) (fun _ _ ↦ True) threeWorkers operationRetried := by
  have hdie : sumReduce.Step (fun _ _ ↦ 5) threeWorkers
      { threeWorkers with alive := fun p ↦ p ≠ 2 } := .die _ fun _ _ ↦ rfl
  have hcall : sumReduce.Step (fun _ _ ↦ 5) { threeWorkers with alive := fun p ↦ p ≠ 2 }
      operationFailed := .call rfl (by decide) _ _
  have hrepair : sumReduce.Step (fun _ _ ↦ 5) operationFailed
      (sumReduce.repair (fun _ ↦ false) (fun p ↦ p ≠ 2) (fun _ ↦ [2]) operationFailed) := by
    refine .repair (Or.inl rfl) (fun h ↦ absurd (h 2 (by decide)).1 (by decide)) _ _ _
      (fun _ _ ↦ rfl) (fun _ h ↦ h) ?_ (by decide) ?_
    · intro _ q hq
      rw [List.mem_singleton.mp hq]
      decide
    · intro p hp
      have hp' : p = 0 ∨ p = 1 := List.mem_pair.mp hp
      rcases hp' with rfl | rfl
      · exact ⟨_, rfl⟩
      · exact ⟨_, rfl⟩
  have hagree : sumReduce.Step (fun _ _ ↦ 5)
      (sumReduce.repair (fun _ ↦ false) (fun p ↦ p ≠ 2) (fun _ ↦ [2]) operationFailed)
      operationRetried := .agreeMain rfl settled_operationRetried
  exact .tail (.tail (.tail (.tail .refl ⟨hdie, trivial⟩) ⟨hcall, trivial⟩) ⟨hrepair, trivial⟩)
    ⟨hagree, trivial⟩

end CallState

namespace Collective

/-- Behind a failed operation the replica keeps no failure. -/
theorem lastAttempt_operationRetried :
    sumReduce.NothingLeftOver (fun _ _ ↦ 5) .operationRetried ∧
      sumReduce.LastAttempt (fun _ _ ↦ 5) .operationRetried := by
  have hkept : sumReduce.NoFailureKept .operationRetried := by
    refine Or.inr ?_
    intro p hp hgroup
    have hp' : p = 0 ∨ p = 1 := List.mem_pair.mp hp
    rcases hp' with rfl | rfl
    · exact absurd hgroup (by decide)
    · rfl
  have hcall : CollectiveCall sumReduce := .mpiReduce 1 0 _
  have hhead := (HeadFlags.start (c := sumReduce) CallState.starts_threeWorkers.enters).run hcall
    CallState.run_operationRetried
  obtain ⟨hnothing, hlast⟩ := lastAttempt_iff hcall hhead (by decide)
    CallState.settled_operationRetried (by decide)
  exact ⟨hnothing.mpr hkept, hlast.mpr hkept⟩

/-- **A vote from an earlier broadcast.** The workers `0` and `1` of one job have died in the
broadcast, which failed at `2` and `3`. These go back to the operation, `2` as the master; `3` still
has the status of the broadcast. -/
theorem not_lastAttempt_twoDropped :
    CallState.fourWorkers.Enters 1 ∧ ∃ s : CallState ℕ,
      sumAllreduce.Run (fun _ _ ↦ 5) (fun _ _ ↦ True) .fourWorkers s ∧ s.pc = .main ∧ s.Settled ∧
        s.totalTrials + 1 < noTrials ∧ ¬sumAllreduce.NothingLeftOver (fun _ _ ↦ 5) s ∧
          ¬sumAllreduce.LastAttempt (fun _ _ ↦ 5) s := by
  have hsettled := CallState.settled_twoDropped fun _ ↦ [0, 1]
  have hback : sumAllreduce.Step (fun _ _ ↦ 5) (.twoDropped fun _ ↦ [0, 1])
      (sumAllreduce.agreeBcast true (.twoDropped fun _ ↦ [0, 1])) := by
    refine .agreeBcast rfl hsettled true fun _ p hp ↦ ?_
    rcases List.mem_pair.mp hp with rfl | rfl
    · rfl
    · rfl
  have hrun := CallState.run_twoDropped (fun _ ↦ [0, 1]) fun _ _ hq ↦ List.mem_pair.mp hq
  refine ⟨CallState.starts_fourWorkers.enters, _, hrun.tail ⟨hback, trivial⟩, by decide, hsettled,
    by decide, ?_, not_lastAttempt (by decide) hsettled (by decide) (by decide)⟩
  intro hnothing
  have hcall := hnothing _
    (.call (by decide) (by decide) (fun _ ↦ true) (fun _ _ ↦ 0) fun _ _ _ ↦ rfl)
  exact absurd (hcall 3 (by decide)) (by decide)

end Collective

end EntangledMPI
