import EntangledMPI.Mpi.LoopDecisions

/-!
# Which failures the check for a failed root finds

`is_failed_node_world_job_comm_root` is to tell whether the last shrink has taken away the first
worker of some job. It compares ranks of two worlds: the first ranks of the lists are already
compacted and renumbered, and the ranks of the dead are those of the world before. So it asks
whether a first survivor now has a number that a dead process had.

## Main result

`failedRootFound_iff`: the check is right exactly when a first worker was removed and such a number
is in use again, or neither.
-/

namespace EntangledMPI

open Renumbering

namespace World

variable (w : World) (keep : ℕ → Bool)

/-- A removed process was `rank_list[0]` of its job. -/
def RootRemoved (L : Layout w.comm.length) : Prop :=
  ∃ i < L.jobs.length, keep (w.procAt (L.master i)) = false

/-- The rank a survivor of rank `r` gets: the processes kept before it are counted. -/
def newRank (r : ℕ) : ℕ := (w.comm.take r).countP keep

/-- The first survivor of some list gets the rank of a removed process. -/
def NumberReused (L : Layout w.comm.length) : Prop :=
  ∃ i < L.jobs.length, ∃ r ∈ ((L.workers i).filter fun r ↦ keep (w.procAt r)).head?,
    keep (w.procAt (w.newRank keep r)) = false

/-- Behind the shrink, the survivor `p` learns whether a first worker was removed. -/
def FailedRootFound (L : Layout w.comm.length) (acked : ℕ → Group) (p : ℕ) : Prop :=
  ∃ found, ((w.shrink keep acked).proc p).isFailedNodeWorldJobCommRoot = .ok found ∧
    (found = true ↔ w.RootRemoved keep L)

variable {w keep} {L : Layout w.comm.length}

theorem getElem_comm {r : ℕ} (hr : r < w.comm.length) : w.comm[r] = w.procAt r :=
  (List.getElem_eq_iff hr).mpr (getElem?_comm hr)

theorem translate_eq_newRank (hcomm : w.comm.Nodup) {r : ℕ} (hr : r < w.comm.length) :
    translate w.comm (w.comm.filter keep) r
      = if keep (w.procAt r) = true then some (w.newRank keep r) else none := by
  split
  next hk => exact translate_filter_of_keep hcomm hr (by rwa [getElem_comm hr])
  next hk =>
    rw [translate_filter_eq_none_iff hr, getElem_comm hr]
    exact Bool.eq_false_of_not_eq_true hk

theorem filterMap_translate_eq (hcomm : w.comm.Nodup) {ranks : List ℕ}
    (hlt : ∀ r ∈ ranks, r < w.comm.length) :
    ranks.filterMap (translate w.comm (w.comm.filter keep))
      = (ranks.filter fun r ↦ keep (w.procAt r)).map (w.newRank keep) := by
  rw [← filterMap_ite]
  exact List.filterMap_congr fun r hr ↦ translate_eq_newRank hcomm (hlt r hr)

theorem newRank_lt {r : ℕ} (hr : r < w.comm.length) : w.newRank keep r < w.comm.length := by
  have hle := List.countP_le_length (p := keep) (l := w.comm.take r)
  rw [List.length_take] at hle
  exact (hle.trans (min_le_left _ _)).trans_lt hr

/-- The map behind the shrink, whose masters are the first survivors with their new ranks. -/
theorem Shares.shrink_master (hshares : w.Shares L) (hcomm : w.comm.Nodup)
    (hlive : ∀ i < L.jobs.length, ∃ r ∈ L.workers i, keep (w.procAt r) = true)
    (acked : ℕ → Group) :
    (∀ p ∈ w.comm.filter keep, ((w.shrink keep acked).proc p).ShrunkFrom (w.proc p) w.comm
      (w.comm.filter keep) (acked p)) ∧
    ∃ L' : Layout (w.shrink keep acked).comm.length, (w.shrink keep acked).Shares L' ∧
      L'.jobs.length = L.jobs.length ∧ ∀ i < L.jobs.length,
        ∃ r ∈ ((L.workers i).filter fun r ↦ keep (w.procAt r)).head?,
          L'.master i = w.newRank keep r := by
  have hlists : ∀ i, (L.workers i).filterMap (translate w.comm (w.comm.filter keep))
      = ((L.workers i).filter fun r ↦ keep (w.procAt r)).map (w.newRank keep) := fun i ↦
    filterMap_translate_eq hcomm fun r hr ↦ Layout.lt_of_mem_workers hr
  have hworkers : ∀ i < L.jobs.length,
      (L.workers i).filterMap (translate w.comm (w.comm.filter keep)) ≠ [] := by
    intro i hi
    obtain ⟨r, hr, hk⟩ := hlive i hi
    rw [hlists]
    exact List.ne_nil_of_mem (List.mem_map_of_mem (List.mem_filter.mpr ⟨hr, hk⟩))
  obtain ⟨-, hfrom, hshares'⟩ := hshares.shrink hcomm acked hworkers
  refine ⟨hfrom, _, hshares', List.length_map _, ?_⟩
  intro i hi
  have hlt : i < (L.renumber hcomm keep (Layout.forall_jobs.mpr hworkers)).jobs.length :=
    hi.trans_eq (List.length_map _).symm
  have hhead := Layout.head?_workers hlt
  rw [Layout.workers_of_jobs_eq_map (L := L) rfl, hlists, List.head?_map] at hhead
  obtain ⟨r, hr, heq⟩ := Option.map_eq_some_iff.mp hhead
  exact ⟨r, hr, heq.symm⟩

/-- **What the check finds.** -/
theorem seesFailedRoot_shrink_iff (hshares : w.Shares L) (hcomm : w.comm.Nodup)
    (hlive : ∀ i < L.jobs.length, ∃ r ∈ L.workers i, keep (w.procAt r) = true)
    {acked : ℕ → Group} {p : ℕ} (hp : p ∈ w.comm.filter keep)
    (hacked : ∀ q, q ∈ acked p ↔ q ∈ w.comm ∧ keep q = false) :
    ((w.shrink keep acked).proc p).SeesFailedRoot ↔ w.NumberReused keep L := by
  obtain ⟨hfrom, L', hshares', hlen, hmaster⟩ := hshares.shrink_master hcomm hlive acked
  rw [Process.SeesFailedRoot, (hshares' p hp).jobsCount, hlen, (hfrom p hp).failed,
    (hfrom p hp).previous]
  constructor
  · rintro ⟨i, hi, job, first, hjob, hfirst, q, hq, hmem, rfl⟩
    obtain ⟨job', hjob', hfirst'⟩ := (hshares' p hp).getElem?_first (hlen.symm ▸ hi)
    obtain rfl := Option.some_inj.mp (hjob.symm.trans hjob')
    obtain ⟨r, hr, heq⟩ := hmaster i hi
    have hidx : w.comm.idxOf q = w.newRank keep r :=
      (Option.some_inj.mp (hfirst.symm.trans hfirst')).trans heq
    refine ⟨i, hi, r, hr, ?_⟩
    rw [← hidx, procAt, List.getD_eq_getElem _ _ (List.idxOf_lt_length_of_mem hmem),
      List.getElem_idxOf]
    exact ((hacked q).mp hq).2
  · rintro ⟨i, hi, r, hr, hreused⟩
    obtain ⟨job, hjob, hfirst⟩ := (hshares' p hp).getElem?_first (hlen.symm ▸ hi)
    obtain ⟨r', hr', heq⟩ := hmaster i hi
    obtain rfl := Option.some_inj.mp (hr.symm.trans hr')
    have hlt : w.newRank keep r < w.comm.length :=
      newRank_lt (Layout.lt_of_mem_workers (List.mem_of_mem_filter (List.mem_of_mem_head? hr)))
    refine ⟨i, hi, job, _, hjob, hfirst, _, (hacked _).mpr ⟨procAt_mem hlt, hreused⟩,
      procAt_mem hlt, ?_⟩
    rw [heq, ← getElem_comm hlt]
    exact hcomm.idxOf_getElem _ hlt

/-- **When the check is right**: a first worker was removed and the first survivor of some list has
the number of a removed process, or neither. -/
theorem failedRootFound_iff (hshares : w.Shares L) (hcomm : w.comm.Nodup)
    (hlive : ∀ i < L.jobs.length, ∃ r ∈ L.workers i, keep (w.procAt r) = true)
    {acked : ℕ → Group} {p : ℕ} (hp : p ∈ w.comm.filter keep)
    (hacked : ∀ q, q ∈ acked p ↔ q ∈ w.comm ∧ keep q = false) :
    w.FailedRootFound keep L acked p ↔ (w.RootRemoved keep L ↔ w.NumberReused keep L) := by
  have hworld := seesFailedRoot_shrink_iff hshares hcomm hlive hp hacked
  constructor
  · rintro ⟨found, hfound, hright⟩
    rw [← hright, ← hworld, Process.isFailedNodeWorldJobCommRoot_eq_ok hfound]
  · intro hright
    obtain ⟨-, L', hshares', -⟩ := hshares.shrink_master hcomm hlive acked
    obtain ⟨found, hfound⟩ := (hshares' p hp).exists_isFailedNodeWorldJobCommRoot
    refine ⟨found, hfound, ?_⟩
    rw [hright, ← hworld, Process.isFailedNodeWorldJobCommRoot_eq_ok hfound]

/-- The first of four workers of one job dies, and the second gets its rank. -/
theorem failedRootFound_fourWorkers :
    FailedRootFound ⟨[0, 1, 2, 3], Layout.fourWorkers.process [0, 1, 2, 3]⟩ (fun p ↦ p ≠ 0)
      Layout.fourWorkers (fun _ ↦ [0]) 2 := by
  refine (failedRootFound_iff (fun _ hp ↦ Layout.process_shares _ rfl hp) (by decide) ?_
    (by decide) ?_).mpr (iff_of_true ⟨0, by decide, rfl⟩ ⟨0, by decide, 1, rfl, rfl⟩)
  · intro i hi
    obtain rfl : i = 0 := Nat.lt_one_iff.mp hi
    exact ⟨1, by decide, rfl⟩
  · intro q
    change q ∈ [0] ↔ q ∈ [0, 1, 2, 3] ∧ decide (q ≠ 0) = false
    by_cases hq : q = 0
    · simp [hq]
    · simp [hq]

/-- **Both ways wrong.** The first worker of job `1` dies, which had the last rank, and nothing is
found; where the other worker of that job dies, the first ranks move, and it looks like a failed
root. -/
theorem not_failedRootFound_descending :
    ¬FailedRootFound ⟨[7, 8, 9], Layout.descending.process [7, 8, 9]⟩ (fun p ↦ p ≠ 9)
      Layout.descending (fun _ ↦ [9]) 7 ∧
    ¬FailedRootFound ⟨[7, 8, 9], Layout.descending.process [7, 8, 9]⟩ (fun p ↦ p ≠ 7)
      Layout.descending (fun _ ↦ [7]) 8 := by
  constructor
  · rintro ⟨found, hfound, hright⟩
    have hnothing : found = false := Except.ok.inj hfound.symm
    have hremoved : found = true := hright.mpr ⟨1, by decide, rfl⟩
    exact Bool.false_ne_true (hnothing.symm.trans hremoved)
  · rintro ⟨found, hfound, hright⟩
    have hsomething : found = true := Except.ok.inj hfound.symm
    obtain ⟨i, hi, hremoved⟩ := hright.mp hsomething
    have hi' : i = 0 ∨ i = 1 := by
      have hlt : i < 2 := hi
      omega
    rcases hi' with rfl | rfl
    · exact absurd hremoved (by decide)
    · exact absurd hremoved (by decide)

end World

end EntangledMPI
