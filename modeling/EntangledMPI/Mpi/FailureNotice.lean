import EntangledMPI.Shared
import Mathlib.Logic.Relation

/-!
# How the survivors notice a failure

A survivor may learn of a failure in a point-to-point call, which only notes it, in the `PMPI_Bcast`
of `MPI_Bcast`, or in the agreement of a collective call. `PMPIX_Comm_shrink` is collective, so all
of these must lead every survivor into the shrinking branch of `rep_errhandler` equally often.

The failure has happened when the run starts, and none follows. An agreement on a world with a dead
process fails at every process that calls it.

## Main result

`FailureNotice.shrinksOnce`: every survivor shrinks once, unless `PMPI_Bcast` fails at one that had
noted the failure before: that one does not leave the call before it has shrunk twice.
-/

namespace EntangledMPI

/-- What `rep_errhandler` does about a dead process. -/
inductive HandlerBranch
  | shrink
  | note
  | nothing
  deriving DecidableEq

def repErrhandlerBranch (isWorld ignoreProcessFailure : Bool) : HandlerBranch :=
  if isWorld && !ignoreProcessFailure then .shrink
  else if isWorld then .note
  else .nothing

/-- Where a survivor stands: before the collective call, before its operation, before its agreement,
in the shrinking branch, or behind the call. In the branch, `clearsPending` tells whether its caller
sets `__process_shrinking_pending` back. -/
inductive NoticePc
  | outside
  | calling
  | agreeing
  | shrinking (clearsPending : Bool)
  | left
  deriving DecidableEq

/-- A survivor; `shrinks` counts how often it has entered the shrinking branch. -/
structure Survivor where
  pc : NoticePc
  processShrinkingPending : Bool
  shrinks : ℕ
  deriving DecidableEq

namespace Survivor

def repErrhandler (v : Survivor) (isWorld ignoreProcessFailure clearsPending : Bool) : Survivor :=
  match repErrhandlerBranch isWorld ignoreProcessFailure with
  | .shrink => { v with pc := .shrinking clearsPending, shrinks := v.shrinks + 1 }
  | .note => { v with processShrinkingPending := true }
  | .nothing => v

/-- The branch returns to the agreement, from `PMPI_Bcast` as from an agreement that has failed. -/
def afterShrink (v : Survivor) : Survivor :=
  match v.pc with
  | .shrinking clearsPending =>
    { v with
      pc := .agreeing
      processShrinkingPending := !clearsPending && v.processShrinkingPending }
  | _ => v

end Survivor

/-- All survivors; the world is `repaired` once it holds no dead process. -/
structure FailureNotice where
  repaired : Bool
  survivor : ℕ → Survivor

inductive NoticeEvent
  | pointToPoint (p : ℕ)
  | enter (p : ℕ)
  | operation (p : ℕ)
  | bcastError (p : ℕ)
  | agreePending (p : ℕ)
  | agreeError (p : ℕ)
  | shrink
  | agree

namespace FailureNotice

def start : FailureNotice := ⟨false, fun _ ↦ ⟨.outside, false, 0⟩⟩

/-- One survivor goes on. -/
def setSurvivor (s : FailureNotice) (p : ℕ) (v : Survivor) : FailureNotice :=
  { s with survivor := Function.update s.survivor p v }

/-- One step of one survivor, or of all together. -/
inductive Step (survivors : Group) (s : FailureNotice) : NoticeEvent → FailureNotice → Prop
  /-- A call made with `__ignore_process_failure` meets the dead process. -/
  | pointToPoint {p : ℕ} (hp : p ∈ survivors) (hpc : (s.survivor p).pc = .outside)
      (hdead : s.repaired = false) : Step survivors s (.pointToPoint p)
      (s.setSurvivor p ((s.survivor p).repErrhandler true true false))
  | enter {p : ℕ} (hp : p ∈ survivors) (hpc : (s.survivor p).pc = .outside) :
      Step survivors s (.enter p) (s.setSurvivor p { s.survivor p with pc := .calling })
  /-- The operation returns without a call of the handler on the world. -/
  | operation {p : ℕ} (hp : p ∈ survivors) (hpc : (s.survivor p).pc = .calling) :
      Step survivors s (.operation p) (s.setSurvivor p { s.survivor p with pc := .agreeing })
  | bcastError {p : ℕ} (hp : p ∈ survivors) (hpc : (s.survivor p).pc = .calling)
      (hdead : s.repaired = false) : Step survivors s (.bcastError p)
      (s.setSurvivor p ((s.survivor p).repErrhandler true false false))
  /-- `MPI_Comm_agree` does not get to PMPI. -/
  | agreePending {p : ℕ} (hp : p ∈ survivors) (hpc : (s.survivor p).pc = .agreeing)
      (hpending : (s.survivor p).processShrinkingPending = true) :
      Step survivors s (.agreePending p)
      (s.setSurvivor p ((s.survivor p).repErrhandler true false true))
  | agreeError {p : ℕ} (hp : p ∈ survivors) (hpc : (s.survivor p).pc = .agreeing)
      (hpending : (s.survivor p).processShrinkingPending = false) (hdead : s.repaired = false) :
      Step survivors s (.agreeError p)
      (s.setSurvivor p ((s.survivor p).repErrhandler true false false))
  | shrink (h : ∀ p ∈ survivors, ∃ clearsPending, (s.survivor p).pc = .shrinking clearsPending) :
      Step survivors s .shrink ⟨true, fun p ↦ (s.survivor p).afterShrink⟩
  /-- The agreement succeeds, and all leave the call or all repeat the operation. -/
  | agree (h : ∀ p ∈ survivors, (s.survivor p).pc = .agreeing ∧
      (s.survivor p).processShrinkingPending = false) (hrepaired : s.repaired = true)
      (again : Bool) : Step survivors s .agree
      { s with survivor := fun p ↦
        { s.survivor p with pc := if again then .calling else .left } }

/-- A run of steps that all meet a condition. -/
def Run (survivors : Group) (condition : FailureNotice → NoticeEvent → Prop) :
    FailureNotice → FailureNotice → Prop :=
  Relation.ReflTransGen fun s s' ↦ ∃ e, s.Step survivors e s' ∧ condition s e

/-- No survivor shrinks twice, and one that has left the call has shrunk and has nothing pending. -/
def ShrinksOnce (survivors : Group) (s : FailureNotice) : Prop :=
  ∀ p ∈ survivors, (s.survivor p).shrinks ≤ 1 ∧ ((s.survivor p).pc = .left →
    (s.survivor p).shrinks = 1 ∧ (s.survivor p).processShrinkingPending = false)

/-- `PMPI_Bcast` fails only where the failure has not been noted. -/
def NotNotedBefore (s : FailureNotice) : NoticeEvent → Prop
  | .bcastError p => (s.survivor p).processShrinkingPending = false
  | _ => True

end FailureNotice

/-! ## One survivor -/

namespace Survivor

variable {repaired : Bool} {v : Survivor}

/-- What holds of a survivor before and after the repair of the world. -/
structure InStep (repaired : Bool) (v : Survivor) : Prop where
  before : repaired = false → (∀ clearsPending, v.pc ≠ .shrinking clearsPending) →
    v.shrinks = 0 ∧ v.pc ≠ .left
  shrinking : ∀ clearsPending, v.pc = .shrinking clearsPending →
    repaired = false ∧ v.shrinks = 1 ∧ (v.processShrinkingPending = true → clearsPending = true)
  after : repaired = true → v.shrinks = 1 ∧ v.processShrinkingPending = false

theorem InStep.shrinks_le (h : v.InStep repaired) : v.shrinks ≤ 1 := by
  cases repaired with
  | true => exact Nat.le_of_eq (h.after rfl).1
  | false =>
    by_cases hpc : ∃ clearsPending, v.pc = .shrinking clearsPending
    · obtain ⟨clearsPending, hpc⟩ := hpc
      exact Nat.le_of_eq (h.shrinking clearsPending hpc).2.1
    · rw [(h.before rfl fun clearsPending heq ↦ hpc ⟨clearsPending, heq⟩).1]
      exact Nat.zero_le 1

theorem InStep.repaired_of_left (h : v.InStep repaired) (hleft : v.pc = .left) :
    repaired = true := by
  by_contra hdead
  exact (h.before (Bool.eq_false_iff.mpr hdead) fun _ heq ↦
    nomatch hleft.symm.trans heq).2 hleft

theorem InStep.move (h : v.InStep repaired) {v' : Survivor}
    (hpc : ∀ clearsPending, v.pc ≠ .shrinking clearsPending)
    (hpc' : ∀ clearsPending, v'.pc ≠ .shrinking clearsPending) (hleft : v'.pc ≠ .left)
    (hshrinks : v'.shrinks = v.shrinks)
    (hpending : v'.processShrinkingPending = v.processShrinkingPending ∨ repaired = false) :
    v'.InStep repaired := by
  refine ⟨fun hdead _ ↦ ⟨hshrinks.trans (h.before hdead hpc).1, hleft⟩,
    fun clearsPending heq ↦ absurd heq (hpc' clearsPending), ?_⟩
  intro hrepaired
  obtain ⟨hone, hnone⟩ := h.after hrepaired
  refine ⟨hshrinks.trans hone, ?_⟩
  rcases hpending with heq | hdead
  · exact heq.trans hnone
  · exact absurd (hrepaired.symm.trans hdead) (by simp)

theorem InStep.enterShrink (h : v.InStep false) {clearsPending : Bool}
    (hpc : ∀ clearsPending, v.pc ≠ .shrinking clearsPending)
    (hpending : v.processShrinkingPending = true → clearsPending = true) :
    (v.repErrhandler true false clearsPending).InStep false := by
  refine ⟨fun _ hnot ↦ absurd rfl (hnot clearsPending), ?_, fun hrepaired ↦ nomatch hrepaired⟩
  intro c hc
  obtain rfl : clearsPending = c := NoticePc.shrinking.inj hc
  exact ⟨rfl, congrArg Nat.succ (h.before rfl hpc).1, hpending⟩

theorem afterShrink_eq {clearsPending : Bool} (hpc : v.pc = .shrinking clearsPending) :
    v.afterShrink = { v with
      pc := .agreeing
      processShrinkingPending := !clearsPending && v.processShrinkingPending } := by
  rw [afterShrink, hpc]

theorem InStep.afterShrink (h : v.InStep repaired) {clearsPending : Bool}
    (hpc : v.pc = .shrinking clearsPending) : v.afterShrink.InStep true := by
  obtain ⟨-, hone, hclears⟩ := h.shrinking clearsPending hpc
  rw [afterShrink_eq hpc]
  refine ⟨fun hdead ↦ absurd hdead (by simp), fun _ heq ↦ absurd heq (by simp),
    fun _ ↦ ⟨hone, ?_⟩⟩
  dsimp only
  cases hpending : v.processShrinkingPending with
  | false => exact Bool.and_false _
  | true => rw [hclears hpending, Bool.not_true, Bool.false_and]

end Survivor

/-! ## All survivors -/

namespace FailureNotice

variable {survivors : Group} {s s' : FailureNotice} {e : NoticeEvent}

theorem setSurvivor_self (s : FailureNotice) (p : ℕ) (v : Survivor) :
    (s.setSurvivor p v).survivor p = v := Function.update_self ..

theorem setSurvivor_of_ne (s : FailureNotice) {p q : ℕ} (h : q ≠ p) (v : Survivor) :
    (s.setSurvivor p v).survivor q = s.survivor q := Function.update_of_ne h ..

/-- What runs keep while `PMPI_Bcast` fails only where the failure has not been noted. -/
def Invariant (survivors : Group) (s : FailureNotice) : Prop :=
  ∀ p ∈ survivors, (s.survivor p).InStep s.repaired

theorem Invariant.setSurvivor (h : s.Invariant survivors) {p : ℕ} {v : Survivor}
    (hv : v.InStep s.repaired) : (s.setSurvivor p v).Invariant survivors := by
  intro q hq
  by_cases hqp : q = p
  · subst hqp
    rw [setSurvivor_self]
    exact hv
  · rw [setSurvivor_of_ne s hqp]
    exact h q hq

theorem Invariant.step (h : s.Invariant survivors) (hstep : s.Step survivors e s')
    (hcond : s.NotNotedBefore e) : s'.Invariant survivors := by
  cases hstep with
  | pointToPoint hp hpc hdead =>
    refine h.setSurvivor ((h _ hp).move ?_ ?_ ?_ rfl (Or.inr hdead))
    · simp [hpc]
    · simp [Survivor.repErrhandler, repErrhandlerBranch, hpc]
    · simp [Survivor.repErrhandler, repErrhandlerBranch, hpc]
  | enter hp hpc =>
    exact h.setSurvivor ((h _ hp).move (by simp [hpc]) (by simp) (by simp) rfl (Or.inl rfl))
  | operation hp hpc =>
    exact h.setSurvivor ((h _ hp).move (by simp [hpc]) (by simp) (by simp) rfl (Or.inl rfl))
  | bcastError hp hpc hdead =>
    -- the caller leaves the flag alone, so it must not be set
    refine h.setSurvivor (hdead.symm ▸ (hdead ▸ h _ hp).enterShrink (by simp [hpc]) ?_)
    intro htrue
    exact absurd (hcond.symm.trans htrue) (by simp)
  | @agreePending p hp hpc hpending =>
    -- after the repair nothing is pending any more
    have hdead : s.repaired = false := by
      by_contra hrepaired
      have hnone := ((h p hp).after (Bool.not_eq_false _ ▸ hrepaired)).2
      exact absurd (hnone.symm.trans hpending) (by simp)
    exact h.setSurvivor (hdead.symm ▸ (hdead ▸ h p hp).enterShrink (by simp [hpc]) fun _ ↦ rfl)
  | agreeError hp hpc hpending hdead =>
    refine h.setSurvivor (hdead.symm ▸ (hdead ▸ h _ hp).enterShrink (by simp [hpc]) ?_)
    intro htrue
    exact absurd (hpending.symm.trans htrue) (by simp)
  | shrink hall =>
    intro p hp
    obtain ⟨clearsPending, hpc⟩ := hall p hp
    exact (h p hp).afterShrink hpc
  | agree hall hrepaired again =>
    intro p hp
    refine ⟨fun hdead ↦ absurd (hrepaired.symm.trans hdead) (by simp), ?_, (h p hp).after⟩
    intro clearsPending heq
    cases again <;> exact nomatch heq

theorem Invariant.shrinks (h : s.Invariant survivors) : s.ShrinksOnce survivors := by
  intro p hp
  refine ⟨(h p hp).shrinks_le, ?_⟩
  intro hleft
  exact (h p hp).after ((h p hp).repaired_of_left hleft)

/-! ## A failure that was noted before -/

/-- The survivor will shrink a second time, or has done so. -/
def Twice (v : Survivor) : Prop :=
  2 ≤ v.shrinks ∨ v.shrinks = 1 ∧ v.processShrinkingPending = true ∧
    (v.pc = .shrinking false ∨ v.pc = .agreeing)

theorem Twice.setSurvivor {p q : ℕ} {v : Survivor} (h : Twice (s.survivor p))
    (hv : Twice (s.survivor q) → Twice v) : Twice ((s.setSurvivor q v).survivor p) := by
  by_cases hpq : p = q
  · subst hpq
    rw [setSurvivor_self]
    exact hv h
  · rwa [setSurvivor_of_ne s hpq]

/-- Away from the branch and the agreement the count is two already. -/
theorem Twice.two_le {v : Survivor} (h : Twice v) (hshrinking : v.pc ≠ .shrinking false)
    (hagreeing : v.pc ≠ .agreeing) : 2 ≤ v.shrinks := by
  rcases h with h | ⟨-, -, hpc | hpc⟩
  · exact h
  · exact absurd hpc hshrinking
  · exact absurd hpc hagreeing

theorem Twice.one_le {v : Survivor} (h : Twice v) : 1 ≤ v.shrinks := by
  rcases h with h | ⟨h, -⟩
  · omega
  · omega

theorem Twice.afterShrink {v : Survivor} (h : Twice v) {clearsPending : Bool}
    (hpc : v.pc = .shrinking clearsPending) : Twice v.afterShrink := by
  rw [Survivor.afterShrink_eq hpc]
  rcases h with h | ⟨hone, hpending, hpc' | hpc'⟩
  · exact Or.inl h
  · obtain rfl := NoticePc.shrinking.inj (hpc.symm.trans hpc')
    exact Or.inr ⟨hone, by simpa using hpending, Or.inr rfl⟩
  · exact nomatch hpc.symm.trans hpc'

theorem Twice.step {p : ℕ} (hp : p ∈ survivors) (h : Twice (s.survivor p))
    (hstep : s.Step survivors e s') : Twice (s'.survivor p) := by
  cases hstep with
  | pointToPoint hq hpc =>
    exact h.setSurvivor fun hq' ↦ Or.inl (hq'.two_le (by simp [hpc]) (by simp [hpc]))
  | enter hq hpc =>
    exact h.setSurvivor fun hq' ↦ Or.inl (hq'.two_le (by simp [hpc]) (by simp [hpc]))
  | operation hq hpc =>
    exact h.setSurvivor fun hq' ↦ Or.inl (hq'.two_le (by simp [hpc]) (by simp [hpc]))
  -- the three ways into the branch add one to the count
  | bcastError => exact h.setSurvivor fun hq' ↦ Or.inl (Nat.succ_le_succ hq'.one_le)
  | agreePending => exact h.setSurvivor fun hq' ↦ Or.inl (Nat.succ_le_succ hq'.one_le)
  | agreeError => exact h.setSurvivor fun hq' ↦ Or.inl (Nat.succ_le_succ hq'.one_le)
  | shrink hall =>
    obtain ⟨clearsPending, hpc⟩ := hall p hp
    exact h.afterShrink hpc
  | agree hall =>
    -- nobody agrees with something pending
    obtain ⟨-, hnone⟩ := hall p hp
    rcases h with h | ⟨-, hpending, -⟩
    · exact Or.inl h
    · exact absurd (hnone.symm.trans hpending) (by simp)

theorem Twice.run {p : ℕ} (hp : p ∈ survivors) {condition : FailureNotice → NoticeEvent → Prop}
    (h : Twice (s.survivor p)) (hrun : Run survivors condition s s') : Twice (s'.survivor p) := by
  induction hrun with
  | refl => exact h
  | tail _ hstep ih =>
    obtain ⟨e, hstep, -⟩ := hstep
    exact ih.step hp hstep

/-- **Every survivor shrinks once.** In every run in which `PMPI_Bcast` fails only at survivors that
have not noted the failure before, no survivor shrinks twice, and none leaves the call before it has
shrunk or with something pending. A survivor where it fails after that does not leave the call
before it has shrunk twice. -/
theorem shrinksOnce (hrun : Run survivors NotNotedBefore start s) :
    s.ShrinksOnce survivors ∧ ∀ p s₁ s₂, s.Step survivors (.bcastError p) s₁ →
      ¬s.NotNotedBefore (.bcastError p) → Run survivors (fun _ _ ↦ True) s₁ s₂ →
        (s₂.survivor p).pc = .left → 2 ≤ (s₂.survivor p).shrinks := by
  have hinv : s.Invariant survivors := by
    induction hrun with
    | refl => exact fun p _ ↦ ⟨fun _ _ ↦ ⟨rfl, by simp [start]⟩, by simp [start], by simp [start]⟩
    | tail _ hstep ih =>
      obtain ⟨e, hstep, hcond⟩ := hstep
      exact ih.step hstep hcond
  refine ⟨hinv.shrinks, ?_⟩
  intro p s₁ s₂ hstep hnoted hrun' hleft
  cases hstep with
  | bcastError hp hpc hdead =>
    have hzero := ((hinv p hp).before hdead (by simp [hpc])).1
    have hpending : (s.survivor p).processShrinkingPending = true := by
      simpa [NotNotedBefore] using hnoted
    have hfirst : Twice ((s.survivor p).repErrhandler true false false) :=
      Or.inr ⟨congrArg Nat.succ hzero, hpending, Or.inl rfl⟩
    have htwice : Twice (s₂.survivor p) :=
      Twice.run hp ((setSurvivor_self s p _).symm ▸ hfirst) hrun'
    exact htwice.two_le (by simp [hleft]) (by simp [hleft])

theorem forall_mem_pair {P : ℕ → Prop} (hzero : P 0) (hone : P 1) : ∀ p ∈ [0, 1], P p :=
  List.forall_mem_cons.mpr ⟨hzero, List.forall_mem_singleton.mpr hone⟩

/-- Process `0` notes the failure, and `PMPI_Bcast` fails at process `1` only. -/
theorem shrinksOnce_noted_elsewhere : ∃ s, ShrinksOnce [0, 1] s ∧ (s.survivor 0).pc = .left := by
  have hstart : Run [0, 1] NotNotedBefore start start := .refl
  have hzero := (((hstart.tail
    ⟨_, .pointToPoint (p := 0) (by decide) rfl rfl, trivial⟩).tail
    ⟨_, .enter (p := 0) (by decide) rfl, trivial⟩).tail
    ⟨_, .operation (p := 0) (by decide) rfl, trivial⟩).tail
    ⟨_, .agreePending (p := 0) (by decide) rfl rfl, trivial⟩
  have hone := (hzero.tail
    ⟨_, .enter (p := 1) (by decide) rfl, trivial⟩).tail
    ⟨_, .bcastError (p := 1) (by decide) rfl rfl, rfl⟩
  have hleft := (hone.tail
    ⟨_, .shrink (forall_mem_pair ⟨true, rfl⟩ ⟨false, rfl⟩), trivial⟩).tail
    ⟨_, .agree (forall_mem_pair ⟨rfl, rfl⟩ ⟨rfl, rfl⟩) rfl false, trivial⟩
  exact ⟨_, (shrinksOnce hleft).1, rfl⟩

/-- `PMPI_Bcast` fails at the process that has noted the failure, which shrinks again when it comes
to the agreement. -/
theorem not_shrinksOnce_noted :
    ∃ s, Run [0, 1] (fun _ _ ↦ True) start s ∧ ¬ShrinksOnce [0, 1] s := by
  have hstart : Run [0, 1] (fun _ _ ↦ True) start start := .refl
  have hzero := ((hstart.tail
    ⟨_, .pointToPoint (p := 0) (by decide) rfl rfl, trivial⟩).tail
    ⟨_, .enter (p := 0) (by decide) rfl, trivial⟩).tail
    ⟨_, .bcastError (p := 0) (by decide) rfl rfl, trivial⟩
  have hone := ((hzero.tail
    ⟨_, .enter (p := 1) (by decide) rfl, trivial⟩).tail
    ⟨_, .operation (p := 1) (by decide) rfl, trivial⟩).tail
    ⟨_, .agreeError (p := 1) (by decide) rfl rfl rfl, trivial⟩
  have hagain := (hone.tail
    ⟨_, .shrink (forall_mem_pair ⟨false, rfl⟩ ⟨false, rfl⟩), trivial⟩).tail
    ⟨_, .agreePending (p := 0) (by decide) rfl rfl, trivial⟩
  refine ⟨_, hagain, ?_⟩
  intro honce
  exact absurd (honce 0 (by decide)).1 (by decide)

end FailureNotice

end EntangledMPI
