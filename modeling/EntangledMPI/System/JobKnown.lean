import EntangledMPI.System.Reloads

/-!
# What a process knows about its job while nobody fails

## Main result

`jobKnown_iff`: along failure-free runs whose reads are fresh, `job_id` and `jobs_count` are those
of the file read last; and such a run is left at the first read that is not fresh. Writes and reads
come in any order, so a process may find a map whose predecessors it has never seen.
-/

namespace EntangledMPI

namespace System

variable {j : ℕ}

/-- Every process that has read a file knows the job that lists it there, and how many jobs there
are. -/
def JobKnown (s : System j) : Prop :=
  ∀ p ∈ s.world.comm, ∀ f, s.lastRead p = some f →
    (∃ (i : ℕ) (line : MapLine), (s.world.node p).jobId = i ∧ f.lines[i]? = some line ∧
      (s.world.node p).rank ∈ line.workers) ∧ (s.world.node p).jobsCount = f.lines.length

/-- Nobody fails, and a read is fresh. -/
def ReadsFresh (s : System j) (e : Event) : Prop := e ≠ .shrink ∧ ∀ p, e = .read p → s.FreshRead p

theorem comm_step {n : ℤ} {s s' : System j} {e : Event} (h : s.Step n e s') (he : e ≠ .shrink) :
    s'.world.comm = s.world.comm := by
  cases h with
  | manage => rfl
  | read => rfl
  | updateComms => rfl
  | shrink => exact absurd rfl he

namespace Invariant

variable [NeZero j] {r : ℕ} {n : ℤ} {s : System j}

theorem jobKnown (h : s.Invariant r n) (hall : s.NobodyRemoved r) : s.JobKnown := by
  intro p hp f hf
  have hsynced := h.synced p hp f hf
  obtain ⟨L₀, hlists, hj, -, -, -⟩ := hsynced.map
  rw [(nobodyRemoved_iff h.world).mp hall] at hsynced hp
  refine ⟨?_, ?_⟩
  · obtain ⟨i, line, hrow, -, k, hk⟩ := hlists.exists_entry (List.mem_range.mp hp)
    have hmem := List.mem_of_getElem? hk
    exact ⟨i, line, hsynced.jobId_eq_iff.mpr ⟨line, hrow, hmem⟩, hrow,
      hsynced.rank_eq.symm ▸ hmem⟩
  · rw [World.node, hsynced.jobsCount, hlists.length_lines, hj]

/-- A read after which the process knows its job was fresh. -/
theorem freshRead_of_jobKnown (hjr : j ≤ r) (h : s.Invariant r n) (hall : s.NobodyRemoved r) {p : ℕ}
    {f : MapFile} {t : Process} (hp : p ∈ s.world.comm) (hfile : s.manager.file = some f.fields)
    (hread : s.readMap p f.fields = .ok t) (hknown : (s.afterRead p f t).JobKnown) :
    s.FreshRead p := by
  obtain ⟨L₀, i, line, k, hf, -, hhas⟩ := h.hasRead hjr hp hfile hread
  obtain ⟨⟨i', line', hjob, hrow, hmem⟩, -⟩ := hknown p hp f (Function.update_self ..)
  simp only [afterRead, World.node, Function.update_self] at hjob hmem
  rw [hhas.rank_eq] at hmem
  obtain rfl : i' = i :=
    Layout.eq_of_mem_workers (hf.mem_workers.mpr ⟨line', hrow, hmem⟩) hhas.rank_mem
  apply (h.freshRead_iff hall hp hfile hf hhas).mpr
  by_cases hbit : line.updateBit = 1
  · exact Or.inl hbit
  · rw [hhas.jobId, if_neg hbit] at hjob
    exact Or.inr hjob

theorem run_readsFresh (hjr : j ≤ r) (hrun : Run n ReadsFresh (initial j r) s) :
    s.Invariant r n ∧ s.NobodyRemoved r := by
  suffices hall : s.Invariant r n ∧ s.world.comm = List.range r from
    ⟨hall.1, (nobodyRemoved_iff hall.1.world).mpr hall.2⟩
  induction hrun with
  | refl => exact ⟨invariant_initial j r n, rfl⟩
  | @tail s s' _ hstep ih =>
    obtain ⟨e, hstep, hfail, hfresh⟩ := hstep
    obtain ⟨hinv, hcomm⟩ := ih
    have hremoved : s.NobodyRemoved r := (nobodyRemoved_iff hinv.world).mpr hcomm
    exact ⟨hinv.step hjr hstep fun p he ↦ ⟨hremoved, hfresh p he⟩,
      (comm_step hstep hfail).trans hcomm⟩

end Invariant

/-- **When a process knows its job.** In every failure-free run of fresh reads every process does in
every state; and one more step without a failure keeps it so exactly when it is not a read of a row
that carries no bit and did not list the reader before. -/
theorem jobKnown_iff [NeZero j] {r : ℕ} (hjr : j ≤ r) {n : ℤ} {s : System j}
    (hrun : Run n ReadsFresh (initial j r) s) :
    s.JobKnown ∧ ∀ e s', s.Step n e s' → e ≠ .shrink → (s'.JobKnown ↔ ReadsFresh s e) := by
  obtain ⟨hinv, hall⟩ := Invariant.run_readsFresh hjr hrun
  refine ⟨hinv.jobKnown hall, fun e s' hstep hfail ↦ ⟨fun hknown ↦ ⟨hfail, ?_⟩, ?_⟩⟩
  · intro p he
    subst he
    cases hstep with
    | @read _ f t hp hfile hread =>
      exact hinv.freshRead_of_jobKnown hjr hall hp hfile hread hknown
  · intro hfresh
    obtain ⟨hinv', hall'⟩ := Invariant.run_readsFresh hjr (hrun.tail ⟨e, hstep, hfresh⟩)
    exact hinv'.jobKnown hall'

/-- Both processes enter on the first write. -/
theorem jobKnown_pairEntered : pairEntered.JobKnown := by
  have hrun : Run 0 ReadsFresh (initial 1 2) pairEntered :=
    run_pairEntered (fun _ ↦ ⟨by simp, fun _ h ↦ nomatch h⟩)
      ⟨by simp, fun _ h ↦ Event.read.inj h ▸ freshRead_pairFile rfl (by decide)⟩
      ⟨by simp, fun _ h ↦ Event.read.inj h ▸ freshRead_pairFile rfl (by decide)⟩
  exact (jobKnown_iff (by decide) hrun).1

/-- The manager writes twice before anybody enters. -/
def pairWaiting : System 1 := { pairStart with manager := pairSecond }

/-- Process `0` then finds no bit in its row, and keeps the job `-1` it has set itself. -/
theorem not_jobKnown_second_write :
    ∃ s, Run 0 (fun _ e ↦ e ≠ .shrink) (initial 1 2) s ∧ ¬s.JobKnown := by
  have hwaiting : Run 0 (fun _ e ↦ e ≠ .shrink) (initial 1 2) pairWaiting :=
    Run.manage (by simp) (pairFirst_reachable.trans pairSecond_reachable)
  have hread : pairWaiting.Step 0 (.read 0) (pairWaiting.reload 0 (pairFile 0)) :=
    .read (by decide) rfl rfl
  refine ⟨_, hwaiting.tail ⟨_, hread, by simp⟩, ?_⟩
  intro hknown
  obtain ⟨⟨i, line, hjob, -, -⟩, -⟩ := hknown 0 (by decide) (pairFile 0) rfl
  have hunset : ((pairWaiting.reload 0 (pairFile 0)).world.node 0).jobId = -1 := by decide
  omega

end System

end EntangledMPI
