import EntangledMPI.Misc.File
import Mathlib.Algebra.BigOperators.Group.List.Basic
import Mathlib.Logic.Function.Basic

/-!
# The collective operations before the operation of the user

`MPI_Init` and `is_file_update_set` issue collective operations on `rep_mpi_comm_world`, and how
many depends on what the process finds for itself: in `MPI_Init` on the checkpoint file of its job,
later on its own `stat` of the map file. Collective operations only meet if every process issues the
same ones.

## Main result

`WorldPolls.aligned_iff`: the sequences are the same as long as every process that comes to a call
finds what those before it have found, and no longer.
-/

namespace EntangledMPI

/-! ## The operations -/

/-- The collective operations on `rep_mpi_comm_world`: the splits for `active_comm`,
`world_job_comm` and the migration, the openings of the two files, the sum of the requests and the
last barrier. -/
inductive WorldCall
  | splitActive
  | splitWorldJob
  | splitMigration
  | openNetworkStat
  | openStackRepInfo
  | allreduce
  | barrier
  deriving DecidableEq

namespace WorldCall

def updateComms : List WorldCall := [.splitActive, .splitWorldJob]

def initNode : List WorldCall := updateComms

def networkStatInit : List WorldCall := [.openNetworkStat]

def saveRepAndStackInfo : List WorldCall := [.openStackRepInfo]

def createMigrationComm (ckptRestore : CkptRestore) : List WorldCall :=
  if ckptRestore = .yes then [] else [.splitMigration]

/-- `is_file_update_set`, from what `is_file_modified` returns and the sum of the requests. -/
def isFileUpdateSet (modified : Bool) (globalRequestStatus : ℤ) (ckptRestore : CkptRestore) :
    List WorldCall :=
  if modified then
    if globalRequestStatus ≠ 0 then [.allreduce]
    else .allreduce :: updateComms ++ createMigrationComm ckptRestore ++ saveRepAndStackInfo
  else []

/-- `MPI_Init`, from what `does_ckpt_file_exists` returns. A restored process goes on where its
checkpoint was taken, and never comes to the barrier. -/
def mpiInit (ckptFileExists : Bool) : List WorldCall :=
  initNode ++ networkStatInit ++ saveRepAndStackInfo ++
    if ckptFileExists then isFileUpdateSet true 0 .yes else [.barrier]

theorem isFileUpdateSet_injective (globalRequestStatus : ℤ) (ckptRestore : CkptRestore)
    {modified modified' : Bool}
    (h : isFileUpdateSet modified globalRequestStatus ckptRestore
      = isFileUpdateSet modified' globalRequestStatus ckptRestore) : modified = modified' := by
  have hnil : ∀ m, isFileUpdateSet m globalRequestStatus ckptRestore = [] ↔ m = false := by
    intro m
    rw [isFileUpdateSet]
    split_ifs <;> simp_all
  rw [Bool.eq_iff_iff, ← not_iff_not, Bool.not_eq_true, Bool.not_eq_true, ← hnil, ← hnil, h]

theorem mpiInit_injective {found found' : Bool} (h : mpiInit found = mpiInit found') :
    found = found' := by
  revert h
  revert found found'
  decide

end WorldCall

/-! ## Processes and the writers of the map -/

/-- The processes on their way to the next operation they all take part in. `found` is what a
process that has got there has found on its way: its checkpoint file in `MPI_Init`, a newer map
later. -/
structure WorldPolls where
  mtime : ℤ
  lastFileUpdate : ℕ → ℤ
  requestPending : ℕ → ℤ
  starting : Bool
  found : ℕ → Option Bool

inductive WorldPollEvent
  | write
  | request (p : ℕ)
  | mpiInit (p : ℕ)
  | isFileUpdateSet (p : ℕ)
  | proceed

namespace WorldPolls

/-- Before `MPI_Init`. -/
def start (mtime : ℤ) : WorldPolls := ⟨mtime, fun _ ↦ 0, fun _ ↦ 0, true, fun _ ↦ none⟩

/-- The map file, of which only the time counts here. -/
def file (s : WorldPolls) : FileState Unit := ⟨(), s.mtime⟩

/-- The process `p` gets to the operation with what it has found and recorded. -/
def arrive (s : WorldPolls) (p : ℕ) (found : Bool) (lastFileUpdate : ℤ) : WorldPolls :=
  { s with
    lastFileUpdate := Function.update s.lastFileUpdate p lastFileUpdate
    found := Function.update s.found p (some found) }

section

variable (comm : Group) (jobId : ℕ → ℤ) (doesCkptFileExist : ℤ → Bool)

def globalRequestStatus (s : WorldPolls) : ℤ := (comm.map s.requestPending).sum

/-- What the process `p` has issued on its way to the operation, once it has got there. -/
def issued (s : WorldPolls) (p : ℕ) : Option (List WorldCall) :=
  (s.found p).map fun found ↦
    if s.starting then WorldCall.mpiInit found
    else WorldCall.isFileUpdateSet found (s.globalRequestStatus comm) .no

/-- All processes have got there and go on. After `MPI_Init` nobody restores any more; an update is
given up while somebody holds a request. -/
def proceed (s : WorldPolls) (found : Bool) : WorldPolls :=
  { s with
    starting := false
    found := fun _ ↦ none
    lastFileUpdate :=
      if ¬s.starting ∧ found ∧ s.globalRequestStatus comm ≠ 0 then fun p ↦ s.lastFileUpdate p - 1
      else s.lastFileUpdate }

/-- Writes, requests and the processes on their way come in any order; the operation itself happens
when all are there and have issued the same. -/
inductive Step (s : WorldPolls) : WorldPollEvent → WorldPolls → Prop
  | write {mtime : ℤ} (h : s.mtime ≤ mtime) : Step s .write { s with mtime := mtime }
  /-- The process starts a receive or waits for one, on its way. -/
  | request {p : ℕ} (hp : s.found p = none) (pending : ℤ) : Step s (.request p)
      { s with requestPending := Function.update s.requestPending p pending }
  | mpiInit {p : ℕ} (hp : p ∈ comm) (hnew : s.found p = none) (hstart : s.starting = true) :
      Step s (.mpiInit p) (s.arrive p (doesCkptFileExist (jobId p)) (setLastFileUpdate s.file))
  | isFileUpdateSet {p : ℕ} (hp : p ∈ comm) (hnew : s.found p = none)
      (hstart : s.starting = false) : Step s (.isFileUpdateSet p)
      (s.arrive p (isFileModified s.file (s.lastFileUpdate p) .no).1
        (isFileModified s.file (s.lastFileUpdate p) .no).2)
  | proceed {found : Bool} (h : ∀ p ∈ comm, s.found p = some found) :
      Step s .proceed (s.proceed comm found)

/-- No two processes have issued different operations. -/
def Aligned (s : WorldPolls) : Prop :=
  ∀ p ∈ comm, ∀ q ∈ comm, ∀ calls calls', s.issued comm p = some calls →
    s.issued comm q = some calls' → calls = calls'

/-- A process finds a checkpoint file, or a newer map, as those that have got there before it. -/
def FindsTheSame (s : WorldPolls) : WorldPollEvent → Prop
  | .mpiInit p => ∀ q ∈ comm, ∀ found, s.found q = some found →
      doesCkptFileExist (jobId p) = found
  | .isFileUpdateSet p => ∀ q ∈ comm, ∀ found, s.found q = some found →
      decide (s.lastFileUpdate p < s.mtime) = found
  | _ => True

/-- A run of steps that all meet a condition. -/
def Run (condition : WorldPolls → WorldPollEvent → Prop) : WorldPolls → WorldPolls → Prop :=
  Relation.ReflTransGen fun s s' ↦ ∃ e, s.Step comm jobId doesCkptFileExist e s' ∧ condition s e

end

/-! ## What one process adds -/

variable {comm : Group} {jobId : ℕ → ℤ} {doesCkptFileExist : ℤ → Bool} {s s' : WorldPolls}

/-- What a process has issued tells what it has found. -/
theorem aligned_iff_found : s.Aligned comm ↔ ∀ p ∈ comm, ∀ q ∈ comm, ∀ found found',
    s.found p = some found → s.found q = some found' → found = found' := by
  constructor
  · intro h p hp q hq found found' hfound hfound'
    have hcalls := h p hp q hq _ _ (by rw [issued, hfound]; rfl) (by rw [issued, hfound']; rfl)
    split at hcalls
    · exact WorldCall.mpiInit_injective hcalls
    · exact WorldCall.isFileUpdateSet_injective _ _ hcalls
  · intro h p hp q hq calls calls' hcalls hcalls'
    obtain ⟨found, hfound, rfl⟩ := Option.map_eq_some_iff.mp hcalls
    obtain ⟨found', hfound', rfl⟩ := Option.map_eq_some_iff.mp hcalls'
    rw [h p hp q hq found found' hfound hfound']

theorem Aligned.arrive_iff (h : s.Aligned comm) {p : ℕ} (hp : p ∈ comm) (hnew : s.found p = none)
    (found : Bool) (lastFileUpdate : ℤ) :
    (s.arrive p found lastFileUpdate).Aligned comm ↔
      ∀ q ∈ comm, ∀ found', s.found q = some found' → found = found' := by
  rw [aligned_iff_found] at h ⊢
  have hself : (s.arrive p found lastFileUpdate).found p = some found := Function.update_self ..
  have hother : ∀ q ≠ p, (s.arrive p found lastFileUpdate).found q = s.found q := fun q hq ↦
    Function.update_of_ne hq ..
  have hne : ∀ q found', s.found q = some found' → q ≠ p := by
    rintro q found' hq rfl
    rw [hnew] at hq
    exact absurd hq (by simp)
  constructor
  · intro h' q hq found' hfound'
    exact h' p hp q hq found found' hself ((hother q (hne q found' hfound')).trans hfound')
  · -- a pair with `p` in it agrees by the condition, any other as before
    intro hsame a ha b hb found₁ found₂ h₁ h₂
    by_cases hap : a = p
    · subst hap
      obtain rfl := Option.some_inj.mp (hself.symm.trans h₁)
      by_cases hba : b = a
      · subst hba
        exact Option.some_inj.mp (hself.symm.trans h₂)
      · exact hsame b hb found₂ ((hother b hba).symm.trans h₂)
    · rw [hother a hap] at h₁
      by_cases hbp : b = p
      · subst hbp
        obtain rfl := Option.some_inj.mp (hself.symm.trans h₂)
        exact (hsame a ha found₁ h₁).symm
      · exact h a ha b hb found₁ found₂ h₁ ((hother b hbp).symm.trans h₂)

/-- A step keeps the sequences the same exactly when a process that gets there finds what the others
have found. -/
theorem Aligned.step_iff (h : s.Aligned comm) {e : WorldPollEvent}
    (hstep : s.Step comm jobId doesCkptFileExist e s') :
    s'.Aligned comm ↔ s.FindsTheSame comm jobId doesCkptFileExist e := by
  have hfound := aligned_iff_found.mp h
  cases hstep with
  | write => exact iff_of_true (aligned_iff_found.mpr hfound) trivial
  | request => exact iff_of_true (aligned_iff_found.mpr hfound) trivial
  | mpiInit hp hnew => exact h.arrive_iff hp hnew _ _
  | @isFileUpdateSet p hp hnew =>
    have hmodified : (isFileModified s.file (s.lastFileUpdate p) .no).1
        = decide (s.lastFileUpdate p < s.mtime) := by
      rw [Bool.eq_iff_iff, ← not_iff_not, Bool.not_eq_true, isFileModified_eq_false_iff,
        decide_eq_true_iff, not_lt]
      rfl
    rw [h.arrive_iff hp hnew, hmodified]
    rfl
  | proceed =>
    exact iff_of_true (aligned_iff_found.mpr fun _ _ _ _ _ _ hfound ↦ nomatch hfound) trivial

/-- **When all processes issue the same operations.** In every run in which every process finds what
those before it have found they do so in every state; and one more step keeps it so exactly when it
meets the same condition. -/
theorem aligned_iff {mtime : ℤ}
    (hrun : Run comm jobId doesCkptFileExist (FindsTheSame comm jobId doesCkptFileExist)
      (start mtime) s) :
    s.Aligned comm ∧ ∀ e s', s.Step comm jobId doesCkptFileExist e s' →
      (s'.Aligned comm ↔ s.FindsTheSame comm jobId doesCkptFileExist e) := by
  have haligned : s.Aligned comm := by
    induction hrun with
    | refl => exact aligned_iff_found.mpr fun _ _ _ _ _ _ hfound ↦ nomatch hfound
    | tail _ hstep ih =>
      obtain ⟨e, hstep, hcond⟩ := hstep
      exact (ih.step_iff hstep).mpr hcond
  exact ⟨haligned, fun e s' hstep ↦ haligned.step_iff hstep⟩

/-- Two processes come out of `MPI_Init` without checkpoints. -/
def pairStarted : WorldPolls :=
  (((start 7).arrive 0 false 7).arrive 1 false 7).proceed [0, 1] false

theorem run_pairStarted {condition : WorldPolls → WorldPollEvent → Prop}
    (hinit : condition (start 7) (.mpiInit 0))
    (hinit' : condition ((start 7).arrive 0 false 7) (.mpiInit 1))
    (hproceed : ∀ s, condition s .proceed) :
    Run [0, 1] (fun _ ↦ 0) (fun _ ↦ false) condition (start 7) pairStarted :=
  ((Relation.ReflTransGen.single ⟨.mpiInit 0, .mpiInit (by decide) rfl rfl, hinit⟩).tail
    ⟨.mpiInit 1, .mpiInit (by decide) rfl rfl, hinit'⟩).tail
    ⟨.proceed, .proceed (by decide), hproceed _⟩

theorem aligned_pairStarted : pairStarted.Aligned [0, 1] := by
  refine (aligned_iff (run_pairStarted ?_ ?_ fun _ ↦ trivial)).1
  · change ∀ q ∈ [0, 1], ∀ found : Bool, _
    decide
  · change ∀ q ∈ [0, 1], ∀ found : Bool, _
    decide

/-- The map is rewritten after process `0` has polled and before process `1` does. -/
theorem not_aligned_write_between : ∃ s, Run [0, 1] (fun _ ↦ 0) (fun _ ↦ false) (fun _ _ ↦ True)
    (start 7) s ∧ ¬s.Aligned [0, 1] := by
  have hstarted : Run [0, 1] (fun _ ↦ 0) (fun _ ↦ false) (fun _ _ ↦ True) (start 7) pairStarted :=
    run_pairStarted trivial trivial fun _ ↦ trivial
  refine ⟨_, ((hstarted.tail ⟨.isFileUpdateSet 0, .isFileUpdateSet ?_ rfl rfl, trivial⟩).tail
    ⟨.write, @Step.write _ _ _ (pairStarted.arrive 0 false 7) 8 ?_, trivial⟩).tail
    ⟨.isFileUpdateSet 1, .isFileUpdateSet ?_ rfl rfl, trivial⟩, ?_⟩
  · decide
  · decide
  · decide
  · intro haligned
    exact absurd (haligned 0 (by decide) 1 (by decide) _ _ rfl rfl) (by decide)

end WorldPolls

end EntangledMPI
