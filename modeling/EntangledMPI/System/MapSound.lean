import EntangledMPI.System.Reloads

/-!
# What `job_list` denotes while processes fail and the map is reloaded

## Main result

`mapSound_iff`: along runs whose reads are fresh and happen before anybody has been removed, the
entries of `job_list` denote the processes the file lists, whatever shrinks come in between; and
such a run is left at the first read of another kind.
-/

namespace EntangledMPI

open Renumbering

namespace System

variable {j : ℕ}

/-- The lists of process `p`, read in the present world, denote the living processes of the file
`f`, and the process stands in the list of its own job. -/
structure Denotes (s : System j) (p : ℕ) (f : MapFile) : Prop where
  bound : ∀ job ∈ (s.world.proc p).jobList, ∀ q ∈ job.workers, q < s.world.comm.length
  denotes : (s.world.proc p).jobList.map (fun job ↦ job.workers.map fun q ↦ s.world.comm[q]?)
    = f.lines.map fun line ↦ (line.workers.filter (· ∈ s.world.comm)).map some
  listed : ∃ (i : ℕ) (job : Job), (s.world.node p).jobId = i ∧
    (s.world.proc p).jobList[i]? = some job ∧ (s.world.node p).rank ∈ job.workers

/-- The lists of every live process that has read a file denote what that file says. -/
def MapSound (s : System j) : Prop :=
  ∀ p ∈ s.world.comm, ∀ f, s.lastRead p = some f → s.Denotes p f

/-- If the step is a read, it is fresh and nobody has been removed. -/
def ReadsInTime (r : ℕ) (s : System j) (e : Event) : Prop :=
  ∀ p, e = .read p → s.NobodyRemoved r ∧ s.FreshRead p

namespace Invariant

variable [NeZero j] {r : ℕ} {n : ℤ} {s : System j}

theorem mapSound (h : s.Invariant r n) : s.MapSound := by
  intro p hp f hf
  obtain ⟨L₀, hlists, -, L, hL, hshares⟩ := (h.synced p hp f hf).map
  refine ⟨?_, ?_, ?_⟩
  · intro job hjob q hq
    have hmem : job.workers ∈ L.jobs := hshares.jobList ▸ List.mem_map_of_mem hjob
    obtain ⟨i, hi, hget⟩ := List.mem_iff_getElem.mp hmem
    rw [← hget, ← Layout.workers_eq_getElem hi] at hq
    exact Layout.lt_of_mem_workers hq
  · have hnew : (s.world.proc p).jobList.map (fun job ↦ job.workers.map fun q ↦ s.world.comm[q]?)
        = L.jobs.map fun ws ↦ ws.map fun q ↦ s.world.comm[q]? := by
      rw [← hshares.jobList, List.map_map]
      rfl
    have hold : f.lines.map (fun line ↦ (line.workers.filter (· ∈ s.world.comm)).map some)
        = L₀.jobs.map fun ws ↦ (ws.filter (· ∈ s.world.comm)).map some := by
      rw [← hlists.1, List.map_map]
      rfl
    rw [hnew, hold, hL, List.map_map]
    refine List.map_congr_left (Layout.forall_jobs.mpr ?_)
    intro i _
    rw [Function.comp_apply, map_getElem?_filterMap_translate]
    have hranks : (L₀.workers i).filterMap (fun q ↦ (List.range r)[q]?) = L₀.workers i := by
      have hsome : ∀ q ∈ L₀.workers i, (List.range r)[q]? = some q := fun q hq ↦
        List.getElem?_range (Layout.lt_of_mem_workers hq)
      rw [List.filterMap_congr hsome, List.filterMap_some]
    rw [hranks]
  · obtain ⟨i, hi, hmem⟩ := hshares.job
    have hlt : i < (s.world.proc p).jobList.length :=
      hshares.length_jobList ▸ Layout.lt_length_of_mem_workers hmem
    exact ⟨i, _, hi, List.getElem?_eq_getElem hlt, by rwa [hshares.workers_getElem hlt]⟩

/-- A read that leaves the lists right was in time. -/
theorem readsInTime_of_denotes (hjr : j ≤ r) (h : s.Invariant r n) {p : ℕ} {f : MapFile}
    {t : Process} (hp : p ∈ s.world.comm) (hfile : s.manager.file = some f.fields)
    (hread : s.readMap p f.fields = .ok t) (hden : (s.afterRead p f t).Denotes p f) :
    s.NobodyRemoved r ∧ s.FreshRead p := by
  obtain ⟨L₀, i, line, k, hf, hj, hhas⟩ := h.hasRead hjr hp hfile hread
  obtain ⟨hbound, -, hlisted⟩ := hden
  simp only [afterRead, World.node, Function.update_self] at hbound hlisted
  have hall : s.NobodyRemoved r := by
    rw [nobodyRemoved_iff h.world]
    by_contra hne
    have hlt : s.world.comm.length < r := by
      refine lt_of_le_of_ne h.length_le fun hlen ↦ hne (h.world.eq_of_length ?_)
      rw [hlen, List.length_range]
    -- The rank one past the end of the world is still in some list of the file.
    obtain ⟨m, hm⟩ := L₀.exists_mem_workers hlt
    have hmlen : m < t.jobList.length := by
      rw [← List.length_map (f := Job.workers), hhas.workers_jobList hf]
      exact Layout.lt_length_of_mem_workers hm
    have hworkers : t.jobList[m].workers = L₀.workers m := by
      rw [Layout.workers_eq_getElem (Layout.lt_length_of_mem_workers hm)]
      simp only [← hhas.workers_jobList hf, List.getElem_map]
    exact absurd (hbound _ (List.getElem_mem hmlen) _ (hworkers ▸ hm)) (lt_irrefl _)
  refine ⟨hall, (h.freshRead_iff hall hp hfile hf hhas).mpr ?_⟩
  by_cases hbit : line.updateBit = 1
  · exact Or.inl hbit
  · apply Or.inr
    obtain ⟨i', job, hjobId, hjob, hmem⟩ := hlisted
    rw [hhas.jobId, if_neg hbit] at hjobId
    obtain ⟨hlen, rfl⟩ := List.getElem?_eq_some_iff.mp hjob
    have hi' : i' < L₀.jobs.length := by
      rwa [← hhas.workers_jobList hf, List.length_map]
    have hworkers : t.jobList[i'].workers = L₀.workers i' := by
      rw [Layout.workers_eq_getElem hi']
      simp only [← hhas.workers_jobList hf, List.getElem_map]
    rw [hworkers, hhas.rank_eq] at hmem
    rw [hjobId, Layout.eq_of_mem_workers hmem hhas.rank_mem]

end Invariant

/-- **When `job_list` denotes what the map says.** In every run of reads in time and any shrinks it
does so in every state; and one more step keeps it so exactly when it is not a read that comes after
a removal or misses an update. -/
theorem mapSound_iff [NeZero j] {r : ℕ} (hjr : j ≤ r) {n : ℤ} {s : System j}
    (hrun : Run n (ReadsInTime r) (initial j r) s) :
    s.MapSound ∧ ∀ e s', s.Step n e s' → (s'.MapSound ↔ ReadsInTime r s e) := by
  have hinv : s.Invariant r n := Invariant.run hjr (fun s p hcond _ ↦ hcond p rfl) hrun
  refine ⟨hinv.mapSound, fun e s' hstep ↦ ⟨?_, ?_⟩⟩
  · intro hsound p he
    subst he
    cases hstep with
    | @read _ f t hp hfile hread =>
      exact hinv.readsInTime_of_denotes hjr hp hfile hread
        (hsound p hp f (Function.update_self ..))
  · intro hread
    exact (hinv.step hjr hstep hread).mapSound

/-- Both processes enter, process `1` dies and is removed. -/
def pairShrunk : System 1 :=
  { pairEntered with world := pairEntered.world.shrink (· == 0) fun _ ↦ [1] }

theorem step_pairShrunk : pairEntered.Step 0 .shrink pairShrunk := by
  refine .shrink (by decide) ?_
  intro q hq
  obtain rfl : q = 0 := by
    have hlive : [0, 1].filter (· == 0) = [0] := rfl
    exact List.mem_singleton.mp (hlive ▸ hq)
  exact ⟨_, rfl⟩

theorem mapSound_pairShrunk : pairShrunk.MapSound := by
  have hread : ∀ (s : System 1) (p : ℕ), s.manager.file = some (pairFile 1).fields →
      s.world.comm = [0, 1] → p ∈ [0, 1] → ReadsInTime 2 s (.read p) := by
    intro s p hfile hcomm hp q hq
    obtain rfl : p = q := Event.read.inj hq
    refine ⟨?_, freshRead_pairFile hfile hp⟩
    intro q hq
    rw [hcomm]
    simp only [List.mem_cons, List.not_mem_nil]
    omega
  have hentered : Run 0 (ReadsInTime 2) (initial 1 2) pairEntered :=
    run_pairEntered (fun _ _ h ↦ nomatch h) (hread _ 0 rfl rfl (by decide))
      (hread _ 1 rfl rfl (by decide))
  exact (mapSound_iff (by decide) (hentered.tail ⟨_, step_pairShrunk, fun _ h ↦ nomatch h⟩)).1

/-- Before the survivor reloads, the manager writes its second map. -/
def pairLate : System 1 := { pairShrunk with manager := pairSecond }

/-- Once the survivor has reloaded, its list has two workers in a world of one. -/
theorem not_mapSound_reload : ∃ s, Run 0 (fun _ _ ↦ True) (initial 1 2) s ∧ ¬s.MapSound := by
  have hshrunk : Run 0 (fun _ _ ↦ True) (initial 1 2) pairShrunk :=
    (run_pairEntered (fun _ ↦ trivial) trivial trivial).tail ⟨_, step_pairShrunk, trivial⟩
  have hlate : Run 0 (fun _ _ ↦ True) (initial 1 2) pairLate :=
    hshrunk.trans (Run.manage (fun _ ↦ trivial) pairSecond_reachable)
  have hread : pairLate.Step 0 (.read 0) (pairLate.reload 0 (pairFile 0)) :=
    .read (by decide) rfl rfl
  refine ⟨_, hlate.tail ⟨_, hread, trivial⟩, ?_⟩
  intro hsound
  have hbound := (hsound 0 (by decide) (pairFile 0) rfl).bound
  exact absurd (hbound ⟨0, 2, [0, 1]⟩ (by decide) 1 (by decide)) (by decide)

end System

end EntangledMPI
