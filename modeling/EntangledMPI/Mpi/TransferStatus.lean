import EntangledMPI.Mpi.IgnoreMap

/-!
# What `MPI_Send` and `MPI_Recv` return

Both calls go through the workers of a job, skip those in `rank_ignore_list`, and make a PMPI call
for each of the others. One variable holds the status of all these calls, and in `MPI_Recv` they
share one buffer and one `MPI_Status`. So what is returned is what the last call has left, and if no
call is made, the variable has never been written.

## Main result

`transferSound_iff`: the status is right exactly when the last call has succeeded if any did, and
the variable does not happen to be `MPI_SUCCESS` if no call is made.
-/

namespace EntangledMPI

open CountingLoop

/-! ## The loop over the workers -/

/-- How a PMPI call for a worker ends: what the handler has acknowledged if it fails, and what it
leaves in the buffer and in the `MPI_Status`. -/
structure Answer (α σ : Type*) where
  failure : Option Group
  buffer : α
  status : σ

/-- The variables of the loop; `mpiStatus` tells whether it is `MPI_SUCCESS`. -/
structure Transfer (α σ : Type*) where
  process : Process
  mpiStatus : Bool
  buffer : α
  status : σ

namespace Transfer

variable {α σ : Type}

/-- One turn of the loop. -/
def turn (target : Job) (answers : ℕ → Answer α σ) (t : Transfer α σ) (i : ℕ) :
    Except Fault (Transfer α σ) := do
  let rank ← readAt target.rankList i
  let ignored ← t.process.rankIgnoreList.read rank
  if ignored = 1 then return t
  else
    match (answers i).failure with
    | none => return ⟨t.process, true, (answers i).buffer, (answers i).status⟩
    | some acked =>
      let s ← t.process.noteFailures acked
      return ⟨s, false, (answers i).buffer, (answers i).status⟩

def overWorkers (s : Process) (job : ℕ) (answers : ℕ → Answer α σ) (uninitialised : Bool)
    (buffer : α) (status : σ) : Except Fault (Transfer α σ) := do
  let target ← readAt s.jobList job
  loop (turn target answers) target.workerCount ⟨s, uninitialised, buffer, status⟩

/-- `MPI_Send` to a job. The user's buffer is copied for each worker and not written. -/
def mpiSend (s : Process) (dest : ℕ) (answers : ℕ → Answer Unit Unit) (uninitialised : Bool) :
    Except Fault (Transfer Unit Unit) :=
  overWorkers s dest answers uninitialised () ()

/-- `MPI_Recv` from a job. -/
def mpiRecv (s : Process) (source : ℕ) (answers : ℕ → Answer α σ) (uninitialised : Bool)
    (buffer : α) (status : σ) : Except Fault (Transfer α σ) :=
  overWorkers s source answers uninitialised buffer status

/-! ## The vector of outcomes -/

/-- The outcomes for the workers from number `i` on; `none` is a worker that is skipped. -/
def outcomesFrom (answers : ℕ → Answer α σ) : Process → ℕ → List ℕ → List (Option (Answer α σ))
  | _, _, [] => []
  | s, i, rank :: ranks =>
    if s.rankIgnoreList.entry rank = 1 then none :: outcomesFrom answers s (i + 1) ranks
    else
      some (answers i) :: match (answers i).failure with
        | none => outcomesFrom answers s (i + 1) ranks
        | some acked => outcomesFrom answers (s.noted acked) (i + 1) ranks

/-- The outcomes for the workers of a job. -/
def outcomes {n : ℕ} (L : Layout n) (s : Process) (job : ℕ) (answers : ℕ → Answer α σ) :
    List (Option (Answer α σ)) := outcomesFrom answers s 0 (L.workers job)

/-- The last call that was made. -/
def lastCall (v : List (Option (Answer α σ))) : Option (Answer α σ) := (v.filterMap id).getLast?

/-- The transfer with some worker succeeded. -/
def SomeSucceeded (v : List (Option (Answer α σ))) : Prop :=
  ∃ answer, some answer ∈ v ∧ answer.failure = none

/-- What the calls of `v` leave in the variables. -/
structure LeftBy (v : List (Option (Answer α σ))) (t₀ t : Transfer α σ) : Prop where
  mpiStatus : t.mpiStatus = ((lastCall v).map fun a ↦ a.failure.isNone).getD t₀.mpiStatus
  buffer : t.buffer = ((lastCall v).map Answer.buffer).getD t₀.buffer
  status : t.status = ((lastCall v).map Answer.status).getD t₀.status

theorem lastCall_concat_none (v : List (Option (Answer α σ))) :
    lastCall (v ++ [none]) = lastCall v := by
  simp [lastCall]

theorem lastCall_concat_some (v : List (Option (Answer α σ))) (a : Answer α σ) :
    lastCall (v ++ [some a]) = some a := by
  simp [lastCall]

theorem lastCall_eq_none_iff {v : List (Option (Answer α σ))} :
    lastCall v = none ↔ ∀ outcome ∈ v, outcome = none := by
  simp [lastCall]

theorem mem_of_lastCall {v : List (Option (Answer α σ))} {a : Answer α σ}
    (h : lastCall v = some a) : some a ∈ v := by
  obtain ⟨outcome, hmem, rfl⟩ := List.mem_filterMap.mp (List.mem_of_getLast? h)
  exact hmem

/-! ## What the loop leaves -/

section

variable {n : ℕ} {L : Layout n} {s : Process} {comm : Group} {p job : ℕ}
  {answers : ℕ → Answer α σ} {t₀ t : Transfer α σ}

/-- **One turn** adds one outcome to those before it. -/
theorem turn_eq (answers : ℕ → Answer α σ) {target : Job} {v : List (Option (Answer α σ))}
    (h : t.process.Holds L comm p) (hn : comm.length = n) (hleft : LeftBy v t₀ t) {i rank : ℕ}
    (hget : readAt target.rankList i = .ok rank) (hrank : rank < n) (ranks : List ℕ) :
    ∃ t' outcome, turn target answers t i = .ok t' ∧ t'.process.Holds L comm p ∧
      LeftBy (v ++ [outcome]) t₀ t' ∧
      outcomesFrom answers t.process i (rank :: ranks)
        = outcome :: outcomesFrom answers t'.process (i + 1) ranks := by
  rw [turn, hget, except_ok_bind, h.read_rankIgnoreList hrank, except_ok_bind, outcomesFrom]
  -- an ignored rank, a call that succeeds, a call that reports a failure
  by_cases hskip : t.process.rankIgnoreList.entry rank = 1
  · refine ⟨t, none, by rw [if_pos hskip]; rfl, h, ?_, by rw [if_pos hskip]⟩
    exact ⟨by rw [lastCall_concat_none, hleft.mpiStatus],
      by rw [lastCall_concat_none, hleft.buffer], by rw [lastCall_concat_none, hleft.status]⟩
  · rw [if_neg hskip, if_neg hskip]
    cases hfailure : (answers i).failure with
    | none =>
      refine ⟨⟨t.process, true, (answers i).buffer, (answers i).status⟩, some (answers i), rfl, h,
        ?_, rfl⟩
      exact ⟨by rw [lastCall_concat_some, Option.map_some, hfailure]; rfl,
        by rw [lastCall_concat_some]; rfl, by rw [lastCall_concat_some]; rfl⟩
    | some acked =>
      refine ⟨⟨t.process.noted acked, false, (answers i).buffer, (answers i).status⟩,
        some (answers i), ?_, h.noted acked, ?_, rfl⟩
      · dsimp only
        rw [h.noteFailures_eq hn acked]
        rfl
      · exact ⟨by rw [lastCall_concat_some, Option.map_some, hfailure]; rfl,
          by rw [lastCall_concat_some]; rfl, by rw [lastCall_concat_some]; rfl⟩

/-- **The loop** leaves what the last call has left. -/
theorem overWorkers_eq (h : s.Holds L comm p) (hn : comm.length = n) (hjob : job < L.jobs.length)
    (answers : ℕ → Answer α σ) (uninitialised : Bool) (buffer : α) (status : σ) :
    ∃ t, overWorkers s job answers uninitialised buffer status = .ok t ∧
      LeftBy (outcomes L s job answers) ⟨s, uninitialised, buffer, status⟩ t := by
  obtain ⟨target, htarget, hcount, hranks⟩ := h.exists_job hjob
  rw [overWorkers, htarget, except_ok_bind]
  -- the invariant: the outcomes so far, followed by those the loop has still to come to
  have hturn : ∀ i < target.workerCount, ∀ t : Transfer α σ,
      (∃ v, t.process.Holds L comm p ∧ LeftBy v ⟨s, uninitialised, buffer, status⟩ t ∧
        outcomes L s job answers
          = v ++ outcomesFrom answers t.process i ((L.workers job).drop i)) →
      ∃ t', turn target answers t i = .ok t' ∧
        ∃ v, t'.process.Holds L comm p ∧ LeftBy v ⟨s, uninitialised, buffer, status⟩ t' ∧
          outcomes L s job answers
            = v ++ outcomesFrom answers t'.process (i + 1) ((L.workers job).drop (i + 1)) := by
    rintro i hi t ⟨v, hholds, hleft, hv⟩
    obtain ⟨rank, hrank, hget, hread⟩ := hranks i hi
    obtain ⟨hi', rfl⟩ := List.getElem?_eq_some_iff.mp hget
    obtain ⟨t', outcome, hturn, hholds', hleft', hrest⟩ :=
      turn_eq answers hholds hn hleft hread hrank ((L.workers job).drop (i + 1))
    refine ⟨t', hturn, v ++ [outcome], hholds', hleft', ?_⟩
    rw [hv, List.drop_eq_getElem_cons hi', hrest, List.append_assoc, List.singleton_append]
  obtain ⟨t, ht, v, -, hleft, hv⟩ := loop_rule_ok _ hturn
    (s := ⟨s, uninitialised, buffer, status⟩) ⟨[], h, ⟨rfl, rfl, rfl⟩, rfl⟩
  refine ⟨t, ht, ?_⟩
  rw [hcount, List.drop_length, outcomesFrom, List.append_nil] at hv
  rwa [hv]

end

/-! ## When the status is right -/

section

variable {n : ℕ} {L : Layout n} {s : Process} {comm : Group} {p job : ℕ}
  {v : List (Option (Answer α σ))} {t₀ t : Transfer α σ}

/-- `MPI_Send` returns `MPI_SUCCESS` exactly when some worker has got the message. -/
def SendSound (L : Layout n) (s : Process) (dest : ℕ) (answers : ℕ → Answer Unit Unit)
    (uninitialised : Bool) : Prop :=
  ∃ t, mpiSend s dest answers uninitialised = .ok t ∧
    (t.mpiStatus = true ↔ SomeSucceeded (outcomes L s dest answers))

/-- `MPI_Recv` returns `MPI_SUCCESS` exactly when some worker's message has arrived, and then with
the buffer and the status of such a message. -/
def RecvSound (L : Layout n) (s : Process) (source : ℕ) (answers : ℕ → Answer α σ)
    (uninitialised : Bool) (buffer : α) (status : σ) : Prop :=
  ∃ t, mpiRecv s source answers uninitialised buffer status = .ok t ∧
    (t.mpiStatus = true ↔ SomeSucceeded (outcomes L s source answers)) ∧
    (t.mpiStatus = true → ∃ answer, some answer ∈ outcomes L s source answers ∧
      answer.failure = none ∧ t.buffer = answer.buffer ∧ t.status = answer.status)

/-- The last call may speak for all: if any has succeeded, it has, and if none is made, the variable
does not happen to be `MPI_SUCCESS`. -/
structure LastCounts (v : List (Option (Answer α σ))) (uninitialised : Bool) : Prop where
  called : (∀ outcome ∈ v, outcome = none) → uninitialised = false
  last : SomeSucceeded v → ∃ answer, lastCall v = some answer ∧ answer.failure = none

theorem LeftBy.mpiStatus_iff (h : LeftBy v t₀ t) :
    (t.mpiStatus = true ↔ SomeSucceeded v) ↔ LastCounts v t₀.mpiStatus := by
  rw [h.mpiStatus]
  cases hlast : lastCall v with
  | none =>
    have hskipped := lastCall_eq_none_iff.mp hlast
    have hnone : ¬SomeSucceeded v := by
      rintro ⟨answer, hmem, -⟩
      exact absurd (hskipped _ hmem) (by simp)
    rw [Option.map_none, Option.getD_none, iff_false_right hnone, Bool.not_eq_true]
    exact ⟨fun hstatus ↦ ⟨fun _ ↦ hstatus, fun hsome ↦ absurd hsome hnone⟩,
      fun hcounts ↦ hcounts.called hskipped⟩
  | some answer =>
    have hmem := mem_of_lastCall hlast
    rw [Option.map_some, Option.getD_some, Option.isNone_iff_eq_none]
    constructor
    · intro hright
      refine ⟨fun hskipped ↦ absurd (hskipped _ hmem) (by simp), fun hsome ↦ ?_⟩
      exact ⟨answer, hlast, hright.mpr hsome⟩
    · intro hcounts
      refine ⟨fun hok ↦ ⟨answer, hmem, hok⟩, fun hsome ↦ ?_⟩
      obtain ⟨answer', hlast', hok⟩ := hcounts.last hsome
      rwa [← Option.some_inj.mp (hlast.symm.trans hlast')] at hok

theorem LeftBy.exists_answer (h : LeftBy v t₀ t) (hcounts : LastCounts v t₀.mpiStatus)
    (hstatus : t.mpiStatus = true) : ∃ answer, some answer ∈ v ∧ answer.failure = none ∧
      t.buffer = answer.buffer ∧ t.status = answer.status := by
  obtain ⟨answer, hlast, hok⟩ := hcounts.last (h.mpiStatus_iff.mpr hcounts |>.mp hstatus)
  refine ⟨answer, mem_of_lastCall hlast, hok, ?_, ?_⟩
  · rw [h.buffer, hlast]
    rfl
  · rw [h.status, hlast]
    rfl

/-- **When `MPI_Send` and `MPI_Recv` return the right status**, for any outcomes at the workers. -/
theorem transferSound_iff (h : s.Holds L comm p) (hn : comm.length = n)
    (hjob : job < L.jobs.length) (sent : ℕ → Answer Unit Unit) (received : ℕ → Answer α σ)
    (uninitialised : Bool) (buffer : α) (status : σ) :
    (SendSound L s job sent uninitialised ↔ LastCounts (outcomes L s job sent) uninitialised) ∧
    (RecvSound L s job received uninitialised buffer status ↔
      LastCounts (outcomes L s job received) uninitialised) := by
  constructor
  · obtain ⟨t, ht, hleft⟩ := overWorkers_eq h hn hjob sent uninitialised () ()
    rw [← hleft.mpiStatus_iff]
    constructor
    · rintro ⟨t', ht', hright⟩
      obtain rfl := Except.ok.inj (ht.symm.trans ht')
      exact hright
    · exact fun hright ↦ ⟨t, ht, hright⟩
  · obtain ⟨t, ht, hleft⟩ := overWorkers_eq h hn hjob received uninitialised buffer status
    constructor
    · rintro ⟨t', ht', hright, -⟩
      obtain rfl := Except.ok.inj (ht.symm.trans ht')
      exact hleft.mpiStatus_iff.mp hright
    · intro hcounts
      exact ⟨t, ht, hleft.mpiStatus_iff.mpr hcounts, hleft.exists_answer hcounts⟩

end

end Transfer

/-! ## A job with two workers -/

namespace Transfer

/-- The first worker of job `1` has died, and the transfer with the second succeeds. -/
theorem transferSound_firstDied :
    SendSound Layout.descending (Layout.descending.process [7, 8, 9] 8) 1
        (fun i ↦ ⟨if i = 0 then some [9] else none, (), ()⟩) true ∧
      RecvSound Layout.descending (Layout.descending.process [7, 8, 9] 8) 1
        (fun i ↦ ⟨if i = 0 then some [9] else none, i, ()⟩) true 5 () := by
  have hholds : (Layout.descending.process [7, 8, 9] 8).Holds Layout.descending [7, 8, 9] 8 :=
    (Layout.process_shares Layout.descending rfl (by decide)).toHolds
  have hjob : 1 < Layout.descending.jobs.length := by decide
  have hiff := transferSound_iff hholds rfl hjob
    (fun i ↦ ⟨if i = 0 then some [9] else none, (), ()⟩)
    (fun i ↦ ⟨if i = 0 then some [9] else none, i, ()⟩) true 5 ()
  constructor
  · exact hiff.1.mpr ⟨fun h ↦ absurd (h _ List.mem_cons_self) nofun, fun _ ↦ ⟨_, rfl, rfl⟩⟩
  · exact hiff.2.mpr ⟨fun h ↦ absurd (h _ List.mem_cons_self) nofun, fun _ ↦ ⟨_, rfl, rfl⟩⟩

/-- **A failure after a success**: the message has got to the first worker of job `1`, or has come
from it, and the second has died. And **a success without a call**: both workers are ignored. -/
theorem not_transferSound_secondDied :
    (¬SendSound Layout.descending (Layout.descending.process [7, 8, 9] 8) 1
        (fun i ↦ ⟨if i = 0 then none else some [7], (), ()⟩) true ∧
      ¬RecvSound Layout.descending (Layout.descending.process [7, 8, 9] 8) 1
        (fun i ↦ ⟨if i = 0 then none else some [7], i, ()⟩) true 5 ()) ∧
    (¬SendSound Layout.descending ((Layout.descending.process [7, 8, 9] 8).noted [7, 9]) 1
        (fun _ ↦ ⟨none, (), ()⟩) true ∧
      ¬RecvSound Layout.descending ((Layout.descending.process [7, 8, 9] 8).noted [7, 9]) 1
        (fun i ↦ ⟨none, i, ()⟩) true 5 ()) := by
  refine ⟨⟨?_, ?_⟩, ⟨?_, ?_⟩⟩
  · rintro ⟨t, ht, hright⟩
    obtain rfl := Except.ok.inj ht
    exact Bool.false_ne_true (hright.mpr ⟨_, List.mem_cons_self, rfl⟩)
  · rintro ⟨t, ht, hright, -⟩
    obtain rfl := Except.ok.inj ht
    exact Bool.false_ne_true (hright.mpr ⟨_, List.mem_cons_self, rfl⟩)
  · rintro ⟨t, ht, hright⟩
    obtain rfl := Except.ok.inj ht
    obtain ⟨answer, hmem, -⟩ := hright.mp rfl
    have hskipped : outcomes Layout.descending
        ((Layout.descending.process [7, 8, 9] 8).noted [7, 9]) 1
        (fun _ ↦ (⟨none, (), ()⟩ : Answer Unit Unit)) = [none, none] := rfl
    rw [hskipped] at hmem
    simp at hmem
  · rintro ⟨t, ht, hright, -⟩
    obtain rfl := Except.ok.inj ht
    obtain ⟨answer, hmem, -⟩ := hright.mp rfl
    have hskipped : outcomes Layout.descending
        ((Layout.descending.process [7, 8, 9] 8).noted [7, 9]) 1
        (fun i ↦ (⟨none, i, ()⟩ : Answer ℕ Unit)) = [none, none] := rfl
    rw [hskipped] at hmem
    simp at hmem

end Transfer

end EntangledMPI
