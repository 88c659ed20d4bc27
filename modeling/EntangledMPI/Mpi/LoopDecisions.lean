import EntangledMPI.Mpi.StatusCalls

/-!
# The way back from a failed broadcast

Behind a failed broadcast every process decides for itself whether the operation or only the
broadcast has to be repeated: it asks whether the root of some job is among the failures it has
acknowledged. Processes may have acknowledged different failures of the same shrink. What is more,
the first ranks of the lists are ranks of the world after the shrink, and they are looked up among
ranks of the world before it.

## Main result

`PlacedCall.placed_iff`: all living processes stay at the same operation as long as those that
decide agree on whether one of the failures they have acknowledged had a rank that is now the first
of a list, and no longer.
-/

namespace EntangledMPI

open Renumbering

/-! ## What a process looks for -/

/-- A loop in `Except` that looks for an element finds one exactly when there is one, if it
returns. -/
theorem anyM_eq_ok {ε ι : Type} {l : List ι} {f : ι → Except ε Bool} {b : Bool}
    (h : l.anyM f = .ok b) : b = true ↔ ∃ i ∈ l, f i = .ok true := by
  induction l with
  | nil =>
    obtain rfl := Except.ok.inj h
    simp
  | cons i l ih =>
    rw [List.anyM_cons] at h
    obtain ⟨found, hfound, h⟩ := except_bind_eq_ok.mp h
    cases found with
    | true =>
      obtain rfl := Except.ok.inj h
      exact iff_of_true rfl ⟨i, List.mem_cons_self, hfound⟩
    | false =>
      rw [ih h]
      simp [hfound]

theorem exists_anyM_eq_ok {ε ι : Type} {l : List ι} {f : ι → Except ε Bool}
    (h : ∀ i ∈ l, ∃ b, f i = .ok b) : ∃ b, l.anyM f = .ok b := by
  induction l with
  | nil => exact ⟨false, rfl⟩
  | cons i l ih =>
    obtain ⟨hi, hl⟩ := List.forall_mem_cons.mp h
    obtain ⟨found, hfound⟩ := hi
    rw [List.anyM_cons, hfound, except_ok_bind]
    cases found with
    | true => exact ⟨true, rfl⟩
    | false => exact ih hl

namespace Process

/-- A process acknowledged last had, in the world before the last shrink, the rank that now is the
first of some job's list. -/
def SeesFailedRoot (s : Process) : Prop :=
  ∃ i < s.node.jobsCount, ∃ job first, s.jobList[i]? = some job ∧ job.rankList[0]? = some first ∧
    ∃ q ∈ s.lastGroupFailed, q ∈ s.previousWorldGroup ∧ s.previousWorldGroup.idxOf q = first

theorem contains_translate_iff {failed previous : Group} {first : ℕ} :
    ((List.range failed.length).map (translate failed previous)).contains (some first) = true ↔
      ∃ q ∈ failed, q ∈ previous ∧ previous.idxOf q = first := by
  rw [List.contains_iff_mem, List.mem_map]
  constructor
  · rintro ⟨k, -, hk⟩
    obtain ⟨q, hq, hmem, hidx⟩ := translate_eq_some_iff.mp hk
    exact ⟨q, List.mem_of_getElem? hq, hmem, hidx⟩
  · rintro ⟨q, hq, hmem, rfl⟩
    exact ⟨failed.idxOf q, List.mem_range.mpr (List.idxOf_lt_length_of_mem hq),
      translate_idxOf hq hmem⟩

theorem isFailedNodeWorldJobCommRoot_eq_ok {s : Process} {b : Bool}
    (h : s.isFailedNodeWorldJobCommRoot = .ok b) : b = true ↔ s.SeesFailedRoot := by
  rw [isFailedNodeWorldJobCommRoot] at h
  rw [anyM_eq_ok h, SeesFailedRoot]
  constructor
  · rintro ⟨i, hi, hturn⟩
    obtain ⟨job, hjob, hturn⟩ := except_bind_eq_ok.mp hturn
    obtain ⟨first, hfirst, hturn⟩ := except_bind_eq_ok.mp hturn
    exact ⟨i, List.mem_range.mp hi, job, first, getElem?_of_readAt hjob, getElem?_of_readAt hfirst,
      contains_translate_iff.mp (Except.ok.inj hturn)⟩
  · rintro ⟨i, hi, job, first, hjob, hfirst, hroot⟩
    refine ⟨i, List.mem_range.mpr hi, ?_⟩
    rw [readAt_eq hjob, except_ok_bind, readAt_eq hfirst, except_ok_bind,
      contains_translate_iff.mpr hroot]
    rfl

theorem Shares.exists_isFailedNodeWorldJobCommRoot {n : ℕ} {L : Layout n} {s : Process}
    {comm : Group} {p : ℕ} (h : s.Shares L comm p) :
    ∃ b, s.isFailedNodeWorldJobCommRoot = .ok b := by
  apply exists_anyM_eq_ok
  intro i hi
  have hlt : i < L.jobs.length := h.jobsCount ▸ List.mem_range.mp hi
  obtain ⟨job, hjob, hcount, hranks⟩ := h.exists_job hlt
  have hpos : 0 < job.workerCount :=
    hcount ▸ List.length_pos_of_ne_nil (Layout.workers_ne_nil hlt)
  obtain ⟨first, -, -, hfirst⟩ := hranks 0 hpos
  rw [hjob, except_ok_bind, hfirst]
  exact ⟨_, rfl⟩

end Process

/-! ## Processes that decide for themselves -/

/-- A call, and where each process stands in it. While all stand where `call.pc` is, they go on
together. -/
structure PlacedCall (α : Type*) where
  call : CallState α
  place : ℕ → CallPc

inductive PlacedEvent
  | die
  | together
  | decide
  deriving DecidableEq

namespace PlacedCall

variable {α β : Type*}

def ofCall (s : CallState α) : PlacedCall α := ⟨s, fun _ ↦ s.pc⟩

/-- No two living processes are at different operations. -/
def Aligned (s : PlacedCall α) : Prop :=
  ∀ p ∈ s.call.world.comm, s.call.alive p = true → ∀ q ∈ s.call.world.comm, s.call.alive q = true →
    s.place p = s.place q

/-- All living processes have come to the operation the call is at. -/
def Together (s : PlacedCall α) : Prop :=
  ∀ p ∈ s.call.world.comm, s.call.alive p = true → s.place p = s.call.pc

/-- The steps of a call, but for the decision behind a failed broadcast, which each process takes
from what `is_failed_node_world_job_comm_root` returns to it. -/
inductive Step (c : Collective β α) (input : ℕ → (ℕ → α) → β) :
    PlacedCall α → PlacedEvent → PlacedCall α → Prop
  | die {s : PlacedCall α} (alive : ℕ → Bool)
      (halive : ∀ p, alive p = true → s.call.alive p = true) :
      Step c input s .die { s with call := { s.call with alive := alive } }
  | together {s : PlacedCall α} {t : CallState α} (h : s.Together)
      (hstep : c.Step input s.call t) : Step c input s .together (ofCall t)
  | decide {s : PlacedCall α} (h : s.Together) (hpc : s.call.pc = .bcastAgree)
      (hs : s.call.Settled) (hfail : c.succeeded s.call.agreed = false) (failedRoot : ℕ → Bool)
      (hroot : ∀ p ∈ s.call.world.comm,
        (s.call.world.proc p).isFailedNodeWorldJobCommRoot = .ok (failedRoot p)) :
      Step c input s .decide
        ⟨c.agreeBcast (s.call.world.comm.any failedRoot) s.call,
          fun p ↦ if failedRoot p then .main else .bcast⟩

/-- A run of steps that all meet a condition. -/
def Run (c : Collective β α) (input : ℕ → (ℕ → α) → β)
    (condition : PlacedCall α → PlacedEvent → Prop) : PlacedCall α → PlacedCall α → Prop :=
  Relation.ReflTransGen fun s s' ↦ ∃ e, Step c input s e s' ∧ condition s e

/-- Nobody has put off a shrink. -/
def NonePending (s : PlacedCall α) : Prop :=
  ∀ p ∈ s.call.world.comm, (s.call.world.proc p).processShrinkingPending = false

/-- Behind a failed broadcast, all processes see a failed root or none does. -/
def SameRoots (s : PlacedCall α) (e : PlacedEvent) : Prop :=
  e = .decide → ∀ p ∈ s.call.world.comm, ∀ q ∈ s.call.world.comm,
    ((s.call.world.proc p).SeesFailedRoot ↔ (s.call.world.proc q).SeesFailedRoot)

variable {c : Collective β α} {input : ℕ → (ℕ → α) → β} {s s' : PlacedCall α} {e : PlacedEvent}

theorem aligned_ofCall (s : CallState α) : (ofCall s).Aligned := fun _ _ _ _ _ _ ↦ rfl

theorem together_ofCall (s : CallState α) : (ofCall s).Together := fun _ _ _ ↦ rfl

/-- A call puts no shrink off, and the shrink of a failed agreement makes up for all of them. -/
theorem NonePending.step (h : s.NonePending) (hstep : Step c input s e s') : s'.NonePending := by
  cases hstep with
  | die alive halive => exact h
  | together _ hstep =>
    cases hstep with
    | repair => exact fun _ _ ↦ rfl
    | _ => exact h
  | decide => exact h

/-- So an agreement only fails where somebody is dead, and then it fails everywhere. -/
theorem NonePending.exists_dead (h : s.NonePending) (hs : ¬s.call.Settled) :
    ∃ p ∈ s.call.world.comm, s.call.alive p = false := by
  by_contra hnone
  push Not at hnone
  exact hs fun p hp ↦ ⟨Bool.eq_true_of_not_eq_false (hnone p hp), h p hp⟩

theorem Aligned.step_iff (h : s.Aligned) (hstep : Step c input s e s') :
    s'.Aligned ↔ s.SameRoots e := by
  cases hstep with
  | die alive halive =>
    refine iff_of_true ?_ (fun he ↦ nomatch he)
    intro p hp hlive q hq hlive'
    exact h p hp (halive p hlive) q hq (halive q hlive')
  | together => exact iff_of_true (aligned_ofCall _) fun he ↦ nomatch he
  | decide _ hpc hs hfail failedRoot hroot =>
    have hsees : ∀ p ∈ s.call.world.comm,
        (failedRoot p = true ↔ (s.call.world.proc p).SeesFailedRoot) := fun p hp ↦
      Process.isFailedNodeWorldJobCommRoot_eq_ok (hroot p hp)
    constructor
    · intro haligned _ p hp q hq
      have hplace := haligned p hp (hs p hp).1 q hq (hs q hq).1
      rw [← hsees p hp, ← hsees q hq]
      dsimp only at hplace
      split_ifs at hplace <;> simp_all
    · intro hsame p hp _ q hq _
      have heq : failedRoot p = failedRoot q := by
        rw [Bool.eq_iff_iff, hsees p hp, hsees q hq]
        exact hsame rfl p hp q hq
      dsimp only
      rw [heq]

theorem exists_decide {L : Layout s.call.world.comm.length} (hshares : s.call.world.Shares L)
    (h : s.Together) (hpc : s.call.pc = .bcastAgree) (hs : s.call.Settled)
    (hfail : c.succeeded s.call.agreed = false) : ∃ s', Step c input s .decide s' := by
  have hroot : ∀ p, ∃ b, p ∈ s.call.world.comm →
      (s.call.world.proc p).isFailedNodeWorldJobCommRoot = .ok b := by
    intro p
    by_cases hp : p ∈ s.call.world.comm
    · obtain ⟨b, hb⟩ := (hshares p hp).exists_isFailedNodeWorldJobCommRoot
      exact ⟨b, fun _ ↦ hb⟩
    · exact ⟨false, fun hmem ↦ absurd hmem hp⟩
  choose failedRoot hroot using hroot
  exact ⟨_, .decide h hpc hs hfail failedRoot hroot⟩

/-- A step that meets the condition is one of the call, and leaves the living together. -/
theorem Together.step (h : s.Together) (hstep : Step c input s e s') (hsame : s.SameRoots e) :
    c.Step input s.call s'.call ∧ s'.Together := by
  cases hstep with
  | die alive halive =>
    exact ⟨.die alive halive, fun p hp hlive ↦ h p hp (halive p hlive)⟩
  | together _ hstep => exact ⟨hstep, together_ofCall _⟩
  | decide _ hpc hs hfail failedRoot hroot =>
    have heq : ∀ p ∈ s.call.world.comm, failedRoot p = s.call.world.comm.any failedRoot := by
      intro p hp
      rw [Bool.eq_iff_iff, List.any_eq_true]
      refine ⟨fun hfound ↦ ⟨p, hp, hfound⟩, ?_⟩
      intro hfound
      obtain ⟨q, hq, hfound⟩ := hfound
      rw [Process.isFailedNodeWorldJobCommRoot_eq_ok (hroot q hq)] at hfound
      rw [Process.isFailedNodeWorldJobCommRoot_eq_ok (hroot p hp)]
      exact (hsame rfl p hp q hq).mpr hfound
    refine ⟨.agreeBcast hpc hs _ fun _ p hp ↦ heq p hp ▸ hroot p hp, ?_⟩
    intro p hp _
    simp only [Collective.agreeBcast, hfail, Bool.false_eq_true, if_false]
    rw [heq p hp]

/-- **Runs that meet the condition are runs of the call.** -/
theorem run_call {s₀ : CallState α} (hrun : Run c input SameRoots (ofCall s₀) s) :
    c.Run input (fun _ _ ↦ True) s₀ s.call ∧ s.Together := by
  induction hrun with
  | refl => exact ⟨.refl, together_ofCall s₀⟩
  | tail _ hstep ih =>
    obtain ⟨e, hstep, hsame⟩ := hstep
    obtain ⟨hcall, htogether⟩ := ih.2.step hstep hsame
    exact ⟨ih.1.tail ⟨hcall, trivial⟩, htogether⟩

/-- Every run of the call is a run of processes that decide for themselves. -/
theorem run_ofCall (condition : PlacedCall α → PlacedEvent → Prop)
    (htogether : ∀ s, condition s .together) {s₀ t : CallState α}
    (hrun : c.Run input (fun _ _ ↦ True) s₀ t) : Run c input condition (ofCall s₀) (ofCall t) := by
  induction hrun with
  | refl => exact .refl
  | tail _ hlast ih =>
    exact ih.tail ⟨.together, .together (together_ofCall _) hlast.1, htogether _⟩

theorem NonePending.run {condition : PlacedCall α → PlacedEvent → Prop} {s₀ : PlacedCall α}
    (h : s₀.NonePending) (hrun : Run c input condition s₀ s) : s.NonePending := by
  induction hrun with
  | refl => exact h
  | tail _ hlast ih =>
    obtain ⟨e, hstep, -⟩ := hlast
    exact ih.step hstep

end PlacedCall

/-! ## Two failures and two views -/

/-- One job with the workers `0` to `3`. -/
def Layout.fourWorkers : Layout 4 := ⟨[[0, 1, 2, 3]], by decide, by decide⟩

namespace CallState

/-- The four workers of the one job, before a call. -/
def fourWorkers : CallState ℕ where
  pc := .main
  world := World.updateComms ⟨[0, 1, 2, 3], Layout.fourWorkers.process [0, 1, 2, 3]⟩
  alive _ := true
  mpiStatus _ := true
  flag _ := 0
  ckptMasterBackup p := (Layout.fourWorkers.process [0, 1, 2, 3] p).node.nodeCheckpointMaster
  totalTrials := 0
  recvbuf _ _ := 0
  delivered _ := false
  attempt _ := none

theorem starts_fourWorkers : fourWorkers.Starts 1 (fun _ _ ↦ 5) fun _ ↦ 5 where
  ready := by
    have hshares : World.Shares ⟨[0, 1, 2, 3], Layout.fourWorkers.process [0, 1, 2, 3]⟩
        Layout.fourWorkers := fun p hp ↦ Layout.process_shares _ rfl hp
    exact hshares.callReady (by decide) (fun _ _ _ _ ↦ rfl) (by decide)
  pc := rfl
  totalTrials := rfl
  mpiStatus _ := rfl
  ckptMasterBackup _ _ := rfl
  delivered _ := rfl

/-- The operation and the agreement on it succeeded, and then `0` and `1` died. -/
def twoDied : CallState ℕ :=
  { sumAllreduce.agreeMain
      (sumAllreduce.call (fun _ _ ↦ 5) (fun _ ↦ true) (fun _ _ ↦ 0) fourWorkers) with
    alive := fun p ↦ 2 ≤ p }

/-- The broadcast failed everywhere, and the survivors have acknowledged `acked` and shrunk. -/
def twoDropped (acked : ℕ → Group) : CallState ℕ :=
  sumAllreduce.repair (fun _ ↦ false) (fun p ↦ 2 ≤ p) acked
    (sumAllreduce.broadcast (fun _ ↦ false) (fun _ _ ↦ 0) twoDied)

theorem run_twoDropped (acked : ℕ → Group) (hacked : ∀ p, ∀ q ∈ acked p, q = 0 ∨ q = 1) :
    sumAllreduce.Run (fun _ _ ↦ 5) (fun _ _ ↦ True) fourWorkers (twoDropped acked) := by
  have hsettled : fourWorkers.Settled := fun _ _ ↦ ⟨rfl, rfl⟩
  have hcall : sumAllreduce.Step (fun _ _ ↦ 5) fourWorkers
      (sumAllreduce.call (fun _ _ ↦ 5) (fun _ ↦ true) (fun _ _ ↦ 0) fourWorkers) :=
    .call rfl (by decide) _ _
  have hagree : sumAllreduce.Step (fun _ _ ↦ 5)
      (sumAllreduce.call (fun _ _ ↦ 5) (fun _ ↦ true) (fun _ _ ↦ 0) fourWorkers)
      (sumAllreduce.agreeMain
        (sumAllreduce.call (fun _ _ ↦ 5) (fun _ ↦ true) (fun _ _ ↦ 0) fourWorkers)) :=
    .agreeMain rfl hsettled
  have hdie : sumAllreduce.Step (fun _ _ ↦ 5)
      (sumAllreduce.agreeMain
        (sumAllreduce.call (fun _ _ ↦ 5) (fun _ ↦ true) (fun _ _ ↦ 0) fourWorkers)) twoDied :=
    .die _ fun _ _ ↦ rfl
  have hbroadcast : sumAllreduce.Step (fun _ _ ↦ 5) twoDied
      (sumAllreduce.broadcast (fun _ ↦ false) (fun _ _ ↦ 0) twoDied) :=
    .broadcast (by decide) _ _ fun _ h ↦ absurd h Bool.false_ne_true
  have hrepair : sumAllreduce.Step (fun _ _ ↦ 5)
      (sumAllreduce.broadcast (fun _ ↦ false) (fun _ _ ↦ 0) twoDied) (twoDropped acked) := by
    refine .repair (Or.inr rfl) (fun h ↦ absurd (h 0 (by decide)).1 (by decide)) _ _ _
      (fun _ _ ↦ rfl) (fun _ h ↦ h) ?_ (by decide) ?_
    · intro p q hq
      rcases hacked p q hq with rfl | rfl
      · decide
      · decide
    · intro p hp
      have hp' : p = 2 ∨ p = 3 := List.mem_pair.mp hp
      rcases hp' with rfl | rfl
      · exact ⟨_, rfl⟩
      · exact ⟨_, rfl⟩
  exact .tail (.tail (.tail (.tail (.tail .refl ⟨hcall, trivial⟩) ⟨hagree, trivial⟩)
    ⟨hdie, trivial⟩) ⟨hbroadcast, trivial⟩) ⟨hrepair, trivial⟩

theorem settled_twoDropped (acked : ℕ → Group) : (twoDropped acked).Settled := by
  intro p hp
  have hp' : p = 2 ∨ p = 3 := List.mem_pair.mp hp
  rcases hp' with rfl | rfl
  · exact ⟨rfl, rfl⟩
  · exact ⟨rfl, rfl⟩

theorem agreed_twoDropped (acked : ℕ → Group) :
    sumAllreduce.succeeded (twoDropped acked).agreed = false := by
  rw [← Bool.not_eq_true]
  intro hagreed
  have hflag := Collective.succeeded_of_agreed hagreed (List.mem_cons_self : 2 ∈ [2, 3]) rfl
  have hzero : (twoDropped acked).flag 2 = 0 := rfl
  rw [hzero] at hflag
  exact absurd hflag (by decide)

end CallState

namespace PlacedCall

theorem step_twoDropped (acked : ℕ → Group) (failedRoot : ℕ → Bool)
    (hroot : ∀ p ∈ [2, 3], ((CallState.twoDropped acked).world.proc p).isFailedNodeWorldJobCommRoot
      = .ok (failedRoot p)) :
    Step sumAllreduce (fun _ _ ↦ 5) (ofCall (CallState.twoDropped acked)) .decide
      ⟨sumAllreduce.agreeBcast ([2, 3].any failedRoot) (CallState.twoDropped acked),
        fun p ↦ if failedRoot p then .main else .bcast⟩ :=
  .decide (together_ofCall _) rfl (CallState.settled_twoDropped acked)
    (CallState.agreed_twoDropped acked) failedRoot hroot

end PlacedCall

end EntangledMPI
