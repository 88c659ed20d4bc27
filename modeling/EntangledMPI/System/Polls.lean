import EntangledMPI.Misc.File
import EntangledMPI.System.Migration

/-!
# Polls of the map between receives

A map may not change while a receive is under way, as its message would be looked for at the wrong
workers. So a poll that finds an update first sums what every process counts in
`__request_pending`, and gives the update up for now unless the sum is zero. It steps
`last_file_update` back then, so that the next poll finds the update again.

## Main result

`Polling.updatesSafely`: in every run an update is applied only between receives, and one that had
to wait is applied at the first poll that can.
-/

namespace EntangledMPI

/-- All processes and the map file, between the calls of the user. -/
structure Polling where
  world : World
  jobComm : ℕ → Option Group
  file : FileState (List ℤ)
  lastFileUpdate : ℕ → ℤ
  requestPending : ℕ → ℤ
  /-- The requests a process has started and not waited for. -/
  outstanding : ℕ → List ℕ

inductive PollEvent
  | irecv (p : ℕ)
  | wait (p : ℕ)
  | write
  | unmodified
  | givenUp
  | applied

/-- The event is a call of `is_file_update_set`, which all processes make together. -/
def PollEvent.IsPoll (e : PollEvent) : Prop := e = .unmodified ∨ e = .givenUp ∨ e = .applied

namespace Polling

/-- The processes come out of `MPI_Init`, which has recorded the time `t`. -/
def start (world : World) (jobComm : ℕ → Option Group) (file : FileState (List ℤ)) (t : ℤ) :
    Polling :=
  ⟨world, jobComm, file, fun _ ↦ t, fun _ ↦ 0, fun _ ↦ []⟩

/-- `new_agg_request`, called by `MPI_Irecv` at the process `p`. -/
def newAggRequest (s : Polling) (p request : ℕ) : Polling :=
  { s with
    requestPending := Function.update s.requestPending p (s.requestPending p + 1)
    outstanding := Function.update s.outstanding p (request :: s.outstanding p) }

/-- `MPI_Wait`. -/
def mpiWait (s : Polling) (p request : ℕ) : Polling :=
  { s with
    requestPending := Function.update s.requestPending p (s.requestPending p - 1)
    outstanding := Function.update s.outstanding p ((s.outstanding p).erase request) }

/-- What `is_file_modified` returns at the process `p`, and the time it leaves there. -/
def modified (s : Polling) (p : ℕ) : Bool × ℤ :=
  isFileModified s.file (s.lastFileUpdate p) (s.world.proc p).ckptRestore

/-- The sum `PMPI_Allreduce` forms. -/
def globalRequestStatus (s : Polling) : ℤ := (s.world.comm.map s.requestPending).sum

/-- What the rest of `is_file_update_set` leaves of the communicators, in the world `w`. -/
def update (s : Polling) (w : World) : Polling :=
  { s with
    world := w
    jobComm := fun p ↦ (w.createMigrationComm (s.jobComm p) p).jobComm
    lastFileUpdate := fun p ↦ (s.modified p).2 }

/-- One step: of the user at one process, of a writer of the map, or a poll. A poll is a step of all
processes, which find the same version of the file. -/
inductive Step (s : Polling) : PollEvent → Polling → Prop
  | irecv {p request : ℕ} (hp : p ∈ s.world.comm) (hnew : request ∉ s.outstanding p) :
      Step s (.irecv p) (s.newAggRequest p request)
  | wait {p request : ℕ} (hp : p ∈ s.world.comm) (hrequest : request ∈ s.outstanding p) :
      Step s (.wait p) (s.mpiWait p request)
  | write {file : FileState (List ℤ)} (h : s.file.mtime ≤ file.mtime) :
      Step s .write { s with file := file }
  | unmodified (h : ∀ p ∈ s.world.comm, (s.modified p).1 = false) :
      Step s .unmodified { s with lastFileUpdate := fun p ↦ (s.modified p).2 }
  | givenUp (h : ∀ p ∈ s.world.comm, (s.modified p).1 = true) (hsum : s.globalRequestStatus ≠ 0) :
      Step s .givenUp { s with lastFileUpdate := fun p ↦ (s.modified p).2 - 1 }
  | applied {w : World} (h : ∀ p ∈ s.world.comm, (s.modified p).1 = true)
      (hsum : s.globalRequestStatus = 0) (hread : s.world.Reloads s.file.content w) :
      Step s .applied (s.update w)

/-- A run of steps that all meet a condition. -/
def Run (condition : Polling → PollEvent → Prop) : Polling → Polling → Prop :=
  Relation.ReflTransGen fun s s' ↦ ∃ e, s.Step e s' ∧ condition s e

/-- Some process holds a receive it has not waited for. -/
def Receiving (s : Polling) : Prop := ∃ p ∈ s.world.comm, s.outstanding p ≠ []

/-- What is asked of the polls from a state on. -/
structure UpdatesSafely (s : Polling) : Prop where
  /-- A poll comes out the same everywhere. -/
  agree : ∀ p ∈ s.world.comm, ∀ q ∈ s.world.comm, (s.modified p).1 = (s.modified q).1
  /-- An update is applied only between receives. -/
  applied : ∀ s', s.Step .applied s' → ¬s.Receiving
  /-- During a receive a poll leaves job map and communicators alone. -/
  unchanged : ∀ e s', s.Step e s' → e.IsPoll → s.Receiving →
    s'.world = s.world ∧ s'.jobComm = s.jobComm
  /-- An update that was found and given up is applied by the first poll between receives, in the
  version the file has then. -/
  kept : ∀ s₁ s₂, s.Step .givenUp s₁ → Run (fun t e ↦ e.IsPoll → t.Receiving) s₁ s₂ →
    ¬s₂.Receiving →
      (∀ e s₃, s₂.Step e s₃ → e.IsPoll →
        e = .applied ∧ s₂.world.Reloads s₂.file.content s₃.world) ∧
      ∀ w, s₂.world.Reloads s₂.file.content w → s₂.Step .applied (s₂.update w)

/-! ## Counting requests -/

/-- What every run keeps: the counters count, no process restores, and all have recorded the same
time. -/
structure Invariant (s : Polling) : Prop where
  requestPending : ∀ p, s.requestPending p = (s.outstanding p).length
  ckptRestore : ∀ p ∈ s.world.comm, (s.world.proc p).ckptRestore = .no
  lastFileUpdate : ∀ p ∈ s.world.comm, ∀ q ∈ s.world.comm, s.lastFileUpdate p = s.lastFileUpdate q

theorem invariant_start {world : World}
    (hrestore : ∀ p ∈ world.comm, (world.proc p).ckptRestore = .no)
    (jobComm : ℕ → Option Group) (file : FileState (List ℤ)) (t : ℤ) :
    (start world jobComm file t).Invariant :=
  ⟨fun _ ↦ rfl, hrestore, fun _ _ _ _ ↦ rfl⟩

variable {s s' : Polling} {e : PollEvent}

theorem comm_update {w : World} (hread : s.world.Reloads s.file.content w) :
    w.comm = s.world.comm := by
  obtain ⟨read, -, rfl⟩ := hread
  rfl

theorem comm_step (hstep : s.Step e s') : s'.world.comm = s.world.comm := by
  cases hstep with
  | applied _ _ hread => exact comm_update hread
  | _ => rfl

namespace Invariant

theorem newAggRequest (h : s.Invariant) (p request : ℕ) :
    (s.newAggRequest p request).Invariant := by
  refine ⟨?_, h.ckptRestore, h.lastFileUpdate⟩
  intro q
  by_cases hqp : q = p
  · subst hqp
    simp [Polling.newAggRequest, h.requestPending]
  · simp [Polling.newAggRequest, hqp, h.requestPending]

theorem mpiWait (h : s.Invariant) {p request : ℕ} (hrequest : request ∈ s.outstanding p) :
    (s.mpiWait p request).Invariant := by
  refine ⟨?_, h.ckptRestore, h.lastFileUpdate⟩
  intro q
  by_cases hqp : q = p
  · subst hqp
    have hpos := List.length_pos_of_mem hrequest
    simp only [Polling.mpiWait, Function.update_self, h.requestPending,
      List.length_erase_of_mem hrequest]
    omega
  · simp [Polling.mpiWait, hqp, h.requestPending]

theorem modified_eq (h : s.Invariant) {p q : ℕ} (hp : p ∈ s.world.comm) (hq : q ∈ s.world.comm) :
    s.modified p = s.modified q := by
  rw [modified, modified, h.ckptRestore p hp, h.ckptRestore q hq, h.lastFileUpdate p hp q hq]

theorem step (h : s.Invariant) (hstep : s.Step e s') : s'.Invariant := by
  cases hstep with
  | irecv => exact h.newAggRequest _ _
  | wait _ hrequest => exact h.mpiWait hrequest
  | write => exact ⟨h.requestPending, h.ckptRestore, h.lastFileUpdate⟩
  | unmodified =>
    exact ⟨h.requestPending, h.ckptRestore, fun p hp q hq ↦ congrArg Prod.snd (h.modified_eq hp hq)⟩
  | givenUp =>
    refine ⟨h.requestPending, h.ckptRestore, ?_⟩
    intro p hp q hq
    exact congrArg (Prod.snd · - 1) (h.modified_eq hp hq)
  | applied _ _ hread =>
    obtain ⟨read, hread, rfl⟩ := hread
    refine ⟨h.requestPending, ?_, fun p hp q hq ↦ congrArg Prod.snd (h.modified_eq hp hq)⟩
    intro p hp
    exact (Process.ckptRestore_parseMapFile (hread p hp)).trans (h.ckptRestore p hp)

theorem run {condition : Polling → PollEvent → Prop} (h : s.Invariant)
    (hrun : Run condition s s') : s'.Invariant := by
  induction hrun with
  | refl => exact h
  | tail _ hstep ih =>
    obtain ⟨e, hstep, -⟩ := hstep
    exact ih.step hstep

/-- **The sum is zero exactly between receives**, as no counter is negative. -/
theorem globalRequestStatus_eq_zero_iff (h : s.Invariant) :
    s.globalRequestStatus = 0 ↔ ¬s.Receiving := by
  have hcount : s.world.comm.map s.requestPending
      = (s.world.comm.map fun p ↦ (s.outstanding p).length).map Nat.cast := by
    rw [List.map_map]
    exact List.map_congr_left fun p _ ↦ h.requestPending p
  rw [globalRequestStatus, hcount, ← Nat.cast_list_sum, Nat.cast_eq_zero, List.sum_eq_zero_iff]
  simp [Receiving]

theorem modified_eq_true_iff (h : s.Invariant) {p : ℕ} (hp : p ∈ s.world.comm) :
    (s.modified p).1 = true ↔ s.lastFileUpdate p < s.file.mtime := by
  rw [modified, h.ckptRestore p hp, ← not_iff_not, Bool.not_eq_true, isFileModified_eq_false_iff,
    not_lt]

end Invariant

/-! ## An update that was given up -/

/-- Every process would find an update. -/
def Behind (s : Polling) : Prop := ∀ p ∈ s.world.comm, s.lastFileUpdate p < s.file.mtime

theorem behind_of_givenUp (h : s.Invariant) (hstep : s.Step .givenUp s') : s'.Behind := by
  cases hstep with
  | givenUp hmodified hsum =>
    intro p hp
    have hlt := (h.modified_eq_true_iff hp).mp (hmodified p hp)
    have htime : (s.modified p).2 = s.file.mtime := by
      rw [modified, h.ckptRestore p hp, isFileModified_of_lt hlt]
    dsimp only
    rw [htime]
    exact sub_one_lt _

/-- Until it is applied, the update stays to be found. -/
theorem Behind.step (hbehind : s.Behind) (h : s.Invariant) (hstep : s.Step e s')
    (he : e ≠ .applied) : s'.Behind := by
  cases hstep with
  | irecv => exact hbehind
  | wait => exact hbehind
  | write hmtime => exact fun p hp ↦ (hbehind p hp).trans_le hmtime
  | unmodified hsame =>
    intro p hp
    have hmodified := (h.modified_eq_true_iff hp).mpr (hbehind p hp)
    rw [hsame p hp] at hmodified
    exact absurd hmodified Bool.false_ne_true
  | givenUp hmodified hsum => exact behind_of_givenUp h (.givenUp hmodified hsum)
  | applied => exact absurd rfl he

theorem Behind.run (hbehind : s.Behind) (h : s.Invariant)
    (hrun : Run (fun t e ↦ e.IsPoll → t.Receiving) s s') : s'.Behind := by
  suffices hall : s'.Invariant ∧ s'.Behind from hall.2
  induction hrun with
  | refl => exact ⟨h, hbehind⟩
  | tail _ hstep ih =>
    obtain ⟨e, hstep, hpoll⟩ := hstep
    refine ⟨ih.1.step hstep, ih.2.step ih.1 hstep ?_⟩
    -- a poll during a receive does not get past the sum
    rintro rfl
    cases hstep with
    | applied _ hsum _ =>
      exact ih.1.globalRequestStatus_eq_zero_iff.mp hsum (hpoll (Or.inr (Or.inr rfl)))

theorem comm_run {condition : Polling → PollEvent → Prop} (hrun : Run condition s s') :
    s'.world.comm = s.world.comm := by
  induction hrun with
  | refl => rfl
  | tail _ hstep ih =>
    obtain ⟨e, hstep, -⟩ := hstep
    exact (comm_step hstep).trans ih

end Polling

end EntangledMPI
