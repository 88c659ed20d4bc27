import EntangledMPI.Mpi.MapReading

/-!
# Shrinks behind a reading of the map

All processes read one map, and `update_job_list` then handles any number of shrinks. It goes by
`jobs_count` and by `job_id`, which a reading sets only in a row whose update bit is `1`. A process
that finds no bit in its row keeps what it had; in `init_node` that is the job `-1`, and behind the
loops of `update_job_list` an access to `job_list[-1]`.

## Main result

`World.shrinkSound_iff`: the shrinks do what they should, in every run of them, exactly when each
process has found its row updated, or had the numbers of that row already.
-/

namespace EntangledMPI

open Renumbering

namespace Process

/-- A process that is about to read a map of the world `comm`. -/
structure ReadyIn (s : Process) (comm : Group) (p : ℕ) : Prop extends s.Ready comm.length where
  repMpiCommWorld : s.node.repMpiCommWorld = comm
  rank : comm[s.node.rank]? = some p
  rankIgnoreList : comm.length ≤ s.rankIgnoreList.size

theorem readyIn_enter_blank {comm : Group} {p : ℕ} (hp : p ∈ comm) :
    (blank.enter comm (comm.idxOf p)).ReadyIn comm p where
  ckptRestore := rfl
  jobsCount := Nat.le_refl 0
  rank2Job := Or.inl rfl
  repMpiCommWorld := rfl
  rank := List.getElem?_idxOf hp
  rankIgnoreList := le_refl _

/-- The row of the file that lists the process has its bit set, or the process had the numbers of
that row before. -/
def RowApplies (s : Process) (f : MapFile) : Prop :=
  ∀ i line, f.lines[i]? = some line → s.node.rank ∈ line.workers →
    line.updateBit = 1 ∨ s.node.jobId = (i : ℕ) ∧ s.node.jobsCount = f.lines.length

/-- In `init_node` there are no numbers from before. -/
theorem rowApplies_enter_iff {s : Process} {comm : Group} {r : ℕ} {f : MapFile} :
    (s.enter comm r).RowApplies f ↔
      ∀ line ∈ f.lines, r ∈ line.workers → line.updateBit = 1 := by
  have hunset : ∀ i : ℕ, (s.enter comm r).node.jobId ≠ i := fun i hi ↦ by
    have hneg : (-1 : ℤ) = i := hi
    omega
  constructor
  · intro h line hline hr
    obtain ⟨i, hi⟩ := List.getElem?_of_mem hline
    exact (h i line hi hr).resolve_right fun hold ↦ hunset i hold.1
  · exact fun h i line hi hr ↦ Or.inl (h line (List.mem_of_getElem? hi) hr)

theorem jobsCount_of_shrink {s s' : Process} {worldShrinked acked : Group}
    (h : s.shrink worldShrinked acked = .ok s') : s'.node.jobsCount = s.node.jobsCount := by
  obtain ⟨t, hupdate, h⟩ := except_bind_eq_ok.mp h
  obtain rfl := Except.ok.inj h
  obtain ⟨tables, -, hupdate⟩ := except_bind_eq_ok.mp hupdate
  obtain ⟨rank, -, hupdate⟩ := except_bind_eq_ok.mp hupdate
  cases rank with
  | none => exact absurd hupdate (by simp)
  | some rank =>
    obtain ⟨job, -, hupdate⟩ := except_bind_eq_ok.mp hupdate
    obtain ⟨first, -, hupdate⟩ := except_bind_eq_ok.mp hupdate
    obtain rfl := Except.ok.inj hupdate
    rfl

end Process

namespace World

/-- Every process has read the file `f` in the state `before`, in `init_node` or in a later call,
and the communicators are made. -/
def HasReadMap (w : World) (before : ℕ → Process) (f : MapFile) : Prop :=
  ∀ p ∈ w.comm, ∃ (t : Process) (transit : NodeTransitState)
      (activeComm worldJobComm : Option Group),
    (before p).parseMapFile f.fields = .ok t ∧
    w.proc p = { t with
      node := { t.node with
        nodeTransitState := transit, activeComm := activeComm, worldJobComm := worldJobComm } }

variable {w : World} {L : Layout w.comm.length} {before : ℕ → Process} {f : MapFile} {p : ℕ}

theorem HasReadMap.exists_hasRead (h : w.HasReadMap before f)
    (hready : ∀ p ∈ w.comm, (before p).ReadyIn w.comm p) (hf : f.Lists L) (hp : p ∈ w.comm) :
    ∃ (t : Process) (i : ℕ) (line : MapLine) (j : ℕ), t.HasRead (before p) f L i line j ∧
      (w.node p).jobsCount = t.node.jobsCount ∧ (w.node p).jobId = t.node.jobId ∧
      (t.Shares L w.comm p → (w.proc p).Shares L w.comm p) := by
  obtain ⟨t, transit, activeComm, worldJobComm, hparse, hproc⟩ := h p hp
  have hrank := (hready p hp).rank
  obtain ⟨t', i, line, j, hparse', hread, -⟩ :=
    (hready p hp).toReady.read hf (List.getElem?_eq_some_iff.mp hrank).1
  obtain rfl := Except.ok.inj (hparse.symm.trans hparse')
  rw [World.node, hproc]
  exact ⟨t, i, line, j, hread, rfl, rfl, fun hshares ↦ { hshares with }⟩

/-- **Where the rows apply** the processes share the map they have read. -/
theorem HasReadMap.shares (h : w.HasReadMap before f)
    (hready : ∀ p ∈ w.comm, (before p).ReadyIn w.comm p) (hf : f.Lists L)
    (happlies : ∀ p ∈ w.comm, (before p).RowApplies f) : w.Shares L := by
  intro p hp
  obtain ⟨t, i, line, j, hread, -, -, hshares⟩ := h.exists_hasRead hready hf hp
  refine hshares (hread.shares hf rfl (hready p hp).repMpiCommWorld (hready p hp).rank rfl
    (hready p hp).rankIgnoreList ?_)
  exact happlies p hp i line hread.row (List.mem_of_getElem? hread.place)

theorem ShrinkSound.exists_keepsAll {w₀ : World} {L₀ : Layout w₀.comm.length}
    (h : ShrinkSound w₀ L₀ w₀) :
    ∃ keep acked, w₀.comm.filter keep = w₀.comm ∧ w₀.ShrinkReturns keep acked := by
  refine ⟨fun _ ↦ true, fun _ ↦ [], List.filter_true w₀.comm, fun p hp ↦ ?_⟩
  cases hs : (w₀.proc p).shrink (w₀.comm.filter fun _ ↦ true) [] with
  | ok s => exact ⟨s, rfl⟩
  | error e =>
    obtain rfl := h.fault _ _ p hp e hs
    obtain ⟨i, hi, hnone⟩ := (h.abort _ _ p hp).mp hs
    have hmaster := Layout.master_mem_workers hi
    refine absurd (List.mem_filter.mpr ⟨?_, rfl⟩) (hnone _ hmaster)
    exact procAt_mem (Layout.lt_of_mem_workers hmaster)

/-- A process whose shrinks are right knows the number of jobs, and its own. -/
theorem ShrinkSound.numbers {w₀ : World} {L₀ : Layout w₀.comm.length} (hcomm : w₀.comm.Nodup)
    (h : ShrinkSound w₀ L₀ w₀) (hp : p ∈ w₀.comm) : (w₀.node p).jobsCount = L₀.jobs.length ∧
      ∃ k : ℕ, (w₀.node p).jobId = k ∧ ∀ r, w₀.comm[r]? = some p → r ∈ L₀.workers k := by
  obtain ⟨keep, acked, hall, hret⟩ := h.exists_keepsAll
  have hp' : p ∈ w₀.comm.filter keep := by rwa [hall]
  obtain ⟨L, hL, hshares, hjobId⟩ := h.lists _ ⟨_, _, hret, rfl⟩ p hp'
  obtain ⟨s, hs⟩ := hret p hp'
  obtain ⟨activeComm, worldJobComm, hproc⟩ := proc_shrink hs
  -- nobody has been renumbered
  have hcomm' : (w₀.shrink keep acked).comm = w₀.comm := hall
  have hjobs : L.jobs = L₀.jobs := by rw [hL, hcomm', L₀.map_translate_self hcomm le_rfl]
  constructor
  · rw [← hjobs, ← hshares.jobsCount, hproc]
    exact (Process.jobsCount_of_shrink hs).symm
  · obtain ⟨k, hk, hmem⟩ := hshares.job
    refine ⟨k, hjobId.symm.trans hk, fun r hr ↦ ?_⟩
    have hget := hshares.rank
    rw [hcomm'] at hget
    obtain rfl := (List.getElem?_inj (List.getElem?_eq_some_iff.mp hr).1 hcomm).mp
      (hr.trans hget.symm)
    rwa [Layout.workers, hjobs] at hmem

theorem HasReadMap.rowApplies (h : w.HasReadMap before f) (hcomm : w.comm.Nodup)
    (hready : ∀ p ∈ w.comm, (before p).ReadyIn w.comm p) (hf : f.Lists L)
    (hsound : ShrinkSound w L w) (hp : p ∈ w.comm) : (before p).RowApplies f := by
  obtain ⟨hcount, k, hk, hmem⟩ := hsound.numbers hcomm hp
  obtain ⟨t, i, line, j, hread, hcount', hjobId, -⟩ := h.exists_hasRead hready hf hp
  have hki : k = i := Layout.eq_of_mem_workers (hmem _ (hready p hp).rank) hread.rank_mem
  intro i' line' hrow hr
  obtain rfl : i' = i :=
    Layout.eq_of_mem_workers (hf.mem_workers.mpr ⟨line', hrow, hr⟩) hread.rank_mem
  obtain rfl := Option.some_inj.mp (hrow.symm.trans hread.row)
  by_cases hbit : line'.updateBit = 1
  · exact Or.inl hbit
  · rw [hread.jobsCount, if_neg hbit] at hcount'
    rw [hread.jobId, if_neg hbit] at hjobId
    refine Or.inr ⟨?_, ?_⟩
    · rw [← hjobId, hk, hki]
    · rw [← hcount', hcount, hf.length_lines]

/-- **When shrinks keep one map at all survivors**, in every run of them behind one reading: each
process has found the bit in its row, or had the numbers of that row. -/
theorem shrinkSound_iff (hcomm : w.comm.Nodup) (hf : f.Lists L)
    (hready : ∀ p ∈ w.comm, (before p).ReadyIn w.comm p) (h : w.HasReadMap before f) :
    (∀ w', Relation.ReflTransGen Shrinks w w' → ShrinkSound w L w') ↔
      ∀ p ∈ w.comm, (before p).RowApplies f := by
  constructor
  · exact fun hsound _ hp ↦ h.rowApplies hcomm hready hf (hsound w .refl) hp
  · exact fun happlies _ hrun ↦ (h.shares hready hf happlies).shrinkSound hcomm hrun

/-- The world `comm` whose processes have entered on the file `f`. -/
def entered (comm : Group) (f : MapFile) : World :=
  ⟨comm, fun p ↦ (Process.blank.initNode comm (comm.idxOf p) f.fields).toOption.getD
    Process.blank⟩

/-- The replica of job `0` dies. -/
theorem shrinkSound_pair : ShrinkSound (entered [7, 8] ⟨2, [⟨1, [0, 1]⟩]⟩)
    (⟨[[0, 1]], by decide, by decide⟩ : Layout 2)
    ((entered [7, 8] ⟨2, [⟨1, [0, 1]⟩]⟩).shrink (fun p ↦ p ≠ 8) fun _ ↦ [8]) := by
  have hready : ∀ p ∈ [7, 8], (Process.blank.enter [7, 8] ([7, 8].idxOf p)).ReadyIn [7, 8] p :=
    fun _ ↦ Process.readyIn_enter_blank
  refine (shrinkSound_iff (f := ⟨2, [⟨1, [0, 1]⟩]⟩) (by decide) ⟨rfl, rfl⟩ hready ?_).mpr ?_ _
    (.single ⟨fun p ↦ p ≠ 8, fun _ ↦ [8], ?_, rfl⟩)
  · intro p hp
    rcases List.mem_pair.mp hp with rfl | rfl
    · exact ⟨_, .none, none, none, rfl, rfl⟩
    · exact ⟨_, .none, none, none, rfl, rfl⟩
  · intro p hp
    refine Process.rowApplies_enter_iff.mpr fun line hline _ ↦ ?_
    rw [List.mem_singleton.mp hline]
  · intro p hp
    obtain rfl : p = 7 := by simpa [entered] using hp
    exact ⟨_, rfl⟩

/-- **The job of a process that found no bit.** Both processes enter on a file whose row has the bit
`0`, and the replica dies: the other one keeps the whole list and reads `job_list[-1]`. -/
theorem not_shrinkSound_pair : ¬ShrinkSound (entered [7, 8] ⟨2, [⟨0, [0, 1]⟩]⟩)
    (⟨[[0, 1]], by decide, by decide⟩ : Layout 2) (entered [7, 8] ⟨2, [⟨0, [0, 1]⟩]⟩) := by
  intro h
  exact absurd (h.fault (fun p ↦ p ≠ 8) [8] 7 (by decide) .outOfBounds rfl) (by simp)

end World

end EntangledMPI
