import EntangledMPI.Manager.WrittenMaps
import EntangledMPI.Mpi.MapText

/-!
# What `WriteToFile` writes

The characters of the file: the numbers of `JobMap.writeToFile` with tabs and line ends between
them, and four lines of prose that describe the layout.

## Main result

`Reachable.parseMapText_writeToFileText`: `parse_map_file` gets from the text of a job map the job
map itself.
-/

namespace EntangledMPI.Manager

open TextInput

variable {j : ℕ}

namespace JobMap

/-! ## The text -/

/-- The line of one job. -/
def rowText (jm : JobMap j) (k : Fin j) : Text :=
  itoa (jm.jMap k).modified ++ ['\t'] ++ itoa k ++ ['\t'] ++ itoa (jm.jMap k).rankList.length ++
    ((jm.jMap k).ranks.flatMap fun rank ↦ '\t' :: itoa rank) ++ ['\n']

/-- The prose behind the rows. -/
def prose : Text :=
  "[first line: <TOTAL_CORES><TAB><NO_OF_JOBS>]\n".toList ++
    ("[followed by (in each line): <UPDATE_BIT><TAB><JOB_ID><TAB><NO_OF_WORKERS><TAB>" ++
      "<ORIGINAL_RANK_1><TAB><ORIGINAL_RANK_2><TAB>...]\n").toList ++
    "<JOB_ID> starts with 0\n".toList ++ "<ORIGINAL_RANK_*> starts with 0".toList

def writeToFileText (jm : JobMap j) : Text :=
  itoa jm.countTotalRanks ++ ['\t'] ++ itoa j ++ ['\n'] ++ (List.finRange j).flatMap jm.rowText ++
    prose

/-- The text is in the layout it describes. -/
def mapText (jm : JobMap j) : MapText where
  cores := .ofNat jm.countTotalRanks
  jobs := .ofNat j
  rows := (List.finRange j).map fun k ↦
    { updateBit := .ofNat (jm.jMap k).modified
      jobId := .ofNat k
      workerCount := .ofNat (jm.jMap k).rankList.length
      workers := (jm.jMap k).ranks.map .ofNat
      value_workerCount := by simp [Job.ranks] }
  trailer := '\n' :: prose
  value_jobs := by simp
  head_trailer c hc := (Option.some_inj.mp hc).symm

theorem flatMap_cons_append {ι : Type} (l : List ι) (f : ι → Text) (c : Char) (t : Text) :
    l.flatMap (fun i ↦ c :: f i) ++ c :: t = c :: l.flatMap (fun i ↦ f i ++ [c]) ++ t := by
  induction l with
  | nil => rfl
  | cons i l ih =>
    rw [List.flatMap_cons, List.append_assoc, ih]
    simp

theorem text_mapText (jm : JobMap j) : jm.mapText.text = jm.writeToFileText := by
  rw [MapText.text, mapText]
  dsimp only
  rw [List.append_assoc, List.flatMap_map, flatMap_cons_append, writeToFileText, MapText.header]
  have hrow : (fun k ↦ MapRow.text
      { updateBit := .ofNat (jm.jMap k).modified
        jobId := .ofNat k
        workerCount := .ofNat (jm.jMap k).rankList.length
        workers := (jm.jMap k).ranks.map .ofNat
        value_workerCount := by simp [Job.ranks] } ++ ['\n']) = jm.rowText := by
    funext k
    simp [MapRow.text, separated, rowText, List.flatMap_map]
  rw [hrow]
  simp [separated]

theorem numbers_mapText (jm : JobMap j) : jm.mapText.numbers = jm.mapFile.fields := by
  rw [← writeToFile_eq_fields, MapText.numbers, mapText, writeToFile]
  dsimp only
  rw [List.flatMap_map]
  simp [MapRow.numbers, Function.comp_def]

/-- The text of a whole job map is one that `parse_map_file` accepts. -/
theorem Whole.accepted_mapText {r : ℕ} {jm : JobMap j} (h : jm.Whole r) : jm.mapText.Accepted where
  cores := by simp [mapText]
  ids := by
    have hids : (jm.mapText.rows.map fun row ↦ row.jobId.value)
        = (List.range jm.mapText.rows.length).map Nat.cast := by
      apply List.ext_getElem (by simp)
      intro i h₁ h₂
      simp [mapText]
    rw [hids]
  workers row hrow := by
    obtain ⟨k, -, rfl⟩ := List.mem_map.mp hrow
    simpa [Job.ranks] using h.nonempty k
  nodup := by
    have hranks : (jm.mapText.rows.flatMap fun row ↦ row.workers.map Numeral.value)
        = (layout h).jobs.flatten.map Nat.cast := by
      rw [mapText, layout, List.flatMap_map, List.map_flatten, List.map_map, List.flatMap_def]
      simp [Function.comp_def]
    rw [hranks]
    exact (layout h).nodup_flatten.map Nat.cast_injective
  lt_cores row hrow w hw := by
    obtain ⟨k, -, rfl⟩ := List.mem_map.mp hrow
    obtain ⟨q, hq, rfl⟩ := List.mem_map.mp hw
    have hlt := h.lt_of_mem hq
    simp only [mapText, Numeral.value_ofNat, countTotalRanks_eq h]
    omega

/-! ## Reading it back -/

/-- The state `s` of a process that holds the job map `jm` of the ranks below `r`. -/
structure ReadBack (jm : JobMap j) (r : ℕ) (s : Process) : Prop where
  jobs : s.jobList.length = j
  jobList : ∀ k : Fin j, ∃ job, s.jobList[(k : ℕ)]? = some job ∧
    job.workerCount = (jm.jMap k).rankList.length ∧ job.rankList = (jm.jMap k).ranks
  rank2Job : ∃ table, s.rank2Job = some table ∧
    ∀ q < r, ∃ k : Fin j, q ∈ (jm.jMap k).ranks ∧ table.read q = .ok k
  master : s.node.nodeCheckpointMaster = .yes ↔
    ∃ k : Fin j, (jm.jMap k).ranks.head? = some s.node.rank

theorem Whole.master_iff {r : ℕ} {jm : JobMap j} (h : jm.Whole r) {k : Fin j} {q : ℕ}
    (hq : q ∈ (jm.jMap k).ranks) :
    q = (layout h).master k ↔ ∃ i : Fin j, (jm.jMap i).ranks.head? = some q := by
  have hhead : ∀ i : Fin j, (jm.jMap i).ranks.head? = some ((layout h).master i) := by
    intro i
    rw [← workers_layout h i]
    exact Layout.head?_workers (by rw [length_jobs_layout h]; exact i.isLt)
  constructor
  · rintro rfl
    exact ⟨k, hhead k⟩
  · rintro ⟨i, hi⟩
    obtain rfl := h.eq_of_mem hq (List.mem_of_mem_head? hi)
    exact Option.some_inj.mp (hi.symm.trans (hhead k))

theorem Whole.readBack {r : ℕ} {jm : JobMap j} (h : jm.Whole r) {s : Process} (hs : s.Ready r)
    (hrank : s.node.rank < r) :
    ∃ s', s.parseMapText jm.writeToFileText = .ok s' ∧ jm.ReadBack r s' ∧
      s'.node.rank = s.node.rank := by
  obtain ⟨s', i, line, place, hparse, hread, -⟩ := hs.read (mapFile_lists h) hrank
  have hi : i < j := by
    have hlt := Layout.lt_length_of_mem_workers hread.rank_mem
    rwa [length_jobs_layout h] at hlt
  refine ⟨s', ?_, ⟨?_, ?_, ?_, ?_⟩, hread.rank_eq⟩
  · rw [← text_mapText, MapText.parseMapText_eq, numbers_mapText, hparse]
  · rw [hread.jobList, List.length_mapIdx, (mapFile_lists h).length_lines, length_jobs_layout h]
  · intro k
    refine ⟨MapLine.job ⟨(jm.jMap k).modified, (jm.jMap k).ranks⟩ k, ?_, ?_, rfl⟩
    · rw [hread.jobList, List.getElem?_mapIdx, getElem?_lines]
      rfl
    · exact List.length_map _
  · obtain ⟨table, htable, hsize, hentries⟩ := hread.rank2Job
    refine ⟨table, htable, ?_⟩
    intro q hq
    obtain ⟨k, hk⟩ := h.exists_mem hq
    refine ⟨k, hk, ?_⟩
    rw [Table.read_of_lt (hq.trans_le hsize), hentries k q (workers_layout h k ▸ hk)]
  · rw [hread.nodeCheckpointMaster, hread.rank_eq]
    exact h.master_iff (k := ⟨i, hi⟩) (workers_layout h ⟨i, hi⟩ ▸ hread.rank_mem)

end JobMap

/-- **A round trip**: a process of any rank reads back every job map the manager writes. -/
theorem Reachable.parseMapText_writeToFileText [NeZero j] {r : ℕ} (hjr : j ≤ r) {n : ℤ}
    {st : State j} (h : Reachable j r n st) (hpc : st.pc = .writing) {s : Process}
    (hs : s.Ready r) (hrank : s.node.rank < r) :
    ∃ s', s.parseMapText st.jm.writeToFileText = .ok s' ∧ st.jm.ReadBack r s' ∧
      s'.node.rank = s.node.rank := by
  have hinv := Reachable.invariant hjr h
  refine JobMap.Whole.readBack ⟨?_, hinv.nonempty⟩ hs hrank
  intro q
  have hq := hinv.conserved q
  rwa [hpc] at hq

/-- The first map of `manager -j 2 -r 3`, at rank `1`. -/
theorem parseMapText_writeToFileText_first :
    ∃ s', (Layout.descending.process [0, 1, 2] 1).parseMapText
        (JobMap.initJobMap 2 3).writeToFileText = .ok s' ∧
      (JobMap.initJobMap 2 3).ReadBack 3 s' ∧
        s'.node.rank = (Layout.descending.process [0, 1, 2] 1).node.rank := by
  have hrun : Reachable 2 3 0 ⟨JobMap.initJobMap 2 3, .writing, none⟩ :=
    .tail (.single (.chooseReturn (by decide))) (.assignReturn (by decide))
  exact Reachable.parseMapText_writeToFileText (by decide) hrun rfl
    ⟨rfl, by decide, Or.inr ⟨_, rfl, le_refl 3⟩⟩ (by decide)

end EntangledMPI.Manager
