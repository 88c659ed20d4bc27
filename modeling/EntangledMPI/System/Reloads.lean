import EntangledMPI.System.Steps

/-!
# Reading the map at any time

A read can go wrong in two ways. The file names processes by the ranks they were started with, so
once a shrink has renumbered the world its lists no longer mean what the reader takes them to mean.
And the update bit of a row speaks of the manager's last round only, while `parse_map_file` writes
`job_id` and `jobs_count` just in rows whose bit is set, so an update that was overwritten before
the process read it is lost.

`FreshRead` and `NobodyRemoved` exclude the two, and `Invariant` is what runs of such reads keep.
-/

namespace EntangledMPI

open Renumbering

namespace System

variable {j : ℕ}

/-! ## Conditions on a read -/

/-- The row of the file on disk that lists `p` has its bit set, or is the row of the job that listed
`p` in the file `p` has read last. -/
def FreshRead (s : System j) (p : ℕ) : Prop :=
  ∀ f : MapFile, s.manager.file = some f.fields →
    ∃ (i : ℕ) (line : MapLine), f.lines[i]? = some line ∧ p ∈ line.workers ∧
      (line.updateBit = 1 ∨ ∃ g line', s.lastRead p = some g ∧ g.lines[i]? = some line' ∧
        p ∈ line'.workers)

/-- All of the processes `0 .. r - 1` are still in the world. -/
def NobodyRemoved (r : ℕ) (s : System j) : Prop := ∀ p < r, p ∈ s.world.comm

/-- The first write of a manager sets every bit. -/
theorem freshRead_pairFile {s : System 1} {p : ℕ}
    (hfile : s.manager.file = some (pairFile 1).fields)
    (hp : p ∈ [0, 1]) : s.FreshRead p := by
  intro f hf
  obtain rfl := MapFile.fields_injective (Option.some_inj.mp (hfile.symm.trans hf))
  exact ⟨0, _, rfl, hp, Or.inl rfl⟩

/-! ## The invariant -/

/-- What good reads and any shrinks keep. -/
structure Invariant (r : ℕ) (n : ℤ) [NeZero j] (s : System j) : Prop where
  manager : Manager.Reachable j r n s.manager
  world : s.world.comm.Sublist (List.range r)
  /-- Until everybody has entered, nobody has been removed. -/
  entering : ∀ p ∈ s.world.comm, s.lastRead p = none →
    s.world.comm = List.range r ∧ s.world.proc p = Process.blank
  synced : ∀ p ∈ s.world.comm, ∀ f, s.lastRead p = some f →
    (s.world.proc p).Synced r j f s.world.comm p

theorem invariant_initial (j : ℕ) [NeZero j] (r : ℕ) (n : ℤ) :
    (initial j r).Invariant r n where
  manager := Relation.ReflTransGen.refl
  world := List.Sublist.refl _
  entering _ _ _ := ⟨rfl, rfl⟩
  synced _ _ _ h := absurd h (by simp [initial])

/-- The process as it stands right before it parses the file. -/
def reader (s : System j) (p : ℕ) : Process :=
  match s.lastRead p with
  | none => (s.world.proc p).enter s.world.comm (s.world.comm.idxOf p)
  | some _ => s.world.proc p

theorem reader_of_eq_none {s : System j} {p : ℕ} (h : s.lastRead p = none) :
    s.reader p = (s.world.proc p).enter s.world.comm (s.world.comm.idxOf p) := by
  rw [reader, h]

theorem reader_of_eq_some {s : System j} {p : ℕ} {f : MapFile} (h : s.lastRead p = some f) :
    s.reader p = s.world.proc p := by
  rw [reader, h]

theorem nobodyRemoved_iff {r : ℕ} {s : System j} (h : s.world.comm.Sublist (List.range r)) :
    s.NobodyRemoved r ↔ s.world.comm = List.range r := by
  constructor
  · intro hall
    apply h.eq_of_length_le
    have hsub : List.range r ⊆ s.world.comm := fun p hp ↦ hall p (List.mem_range.mp hp)
    exact (List.nodup_range.subperm hsub).length_le
  · rintro hcomm p hp
    rw [hcomm]
    exact List.mem_range.mpr hp

namespace Invariant

variable [NeZero j] {r : ℕ} {n : ℤ} {s : System j} {p : ℕ}

theorem nodup (h : s.Invariant r n) : s.world.comm.Nodup := h.world.nodup List.nodup_range

theorem length_le (h : s.Invariant r n) : s.world.comm.length ≤ r := by
  simpa using h.world.length_le

theorem reader (h : s.Invariant r n) (hp : p ∈ s.world.comm) :
    (s.reader p).Ready r ∧ s.world.comm[(s.reader p).node.rank]? = some p ∧
      (s.reader p).node.repMpiCommWorld = s.world.comm ∧
        s.world.comm.length ≤ (s.reader p).rankIgnoreList.size := by
  cases hl : s.lastRead p with
  | none =>
    obtain ⟨-, hblank⟩ := h.entering p hp hl
    rw [reader_of_eq_none hl, hblank]
    exact ⟨⟨rfl, Nat.le_refl 0, Or.inl rfl⟩, List.getElem?_idxOf hp, rfl, le_refl _⟩
  | some f =>
    rw [reader_of_eq_some hl]
    have hsynced := h.synced p hp f hl
    obtain ⟨L₀, -, -, L, -, hshares⟩ := hsynced.map
    exact ⟨hsynced.ready, hsynced.rank, hsynced.repMpiCommWorld, hshares.rankIgnoreList⟩

/-- **What a read does**, at whatever time it happens. -/
theorem hasRead (hjr : j ≤ r) (h : s.Invariant r n) (hp : p ∈ s.world.comm) {f : MapFile}
    (hfile : s.manager.file = some f.fields) {s' : Process}
    (hread : s.readMap p f.fields = .ok s') :
    ∃ (L₀ : Layout r) (i : ℕ) (line : MapLine) (k : ℕ), f.Lists L₀ ∧ L₀.jobs.length = j ∧
      s'.HasRead (s.reader p) f L₀ i line k := by
  obtain ⟨jm, hwhole, hcontent⟩ := h.manager.whole_of_file hjr hfile
  have hf : f.Lists (Manager.JobMap.layout hwhole) :=
    MapFile.fields_injective hcontent ▸ Manager.JobMap.mapFile_lists hwhole
  obtain ⟨hready, hrank, -, -⟩ := h.reader hp
  have hlt : (s.reader p).node.rank < r :=
    (List.getElem?_eq_some_iff.mp hrank).1.trans_le h.length_le
  have hj := Manager.JobMap.length_jobs_layout hwhole
  rw [readMap] at hread
  -- the first read is the one of `init_node`
  cases hl : s.lastRead p with
  | none =>
    rw [hl] at hread
    rw [reader_of_eq_none hl] at hready hlt ⊢
    obtain ⟨t, i, line, k, ht, hhas, -⟩ := hready.initNode hf hlt
    obtain rfl := Except.ok.inj (hread.symm.trans ht)
    exact ⟨_, i, line, k, hf, hj, hhas⟩
  | some g =>
    rw [hl] at hread
    rw [reader_of_eq_some hl] at hready hlt ⊢
    obtain ⟨t, i, line, k, ht, hhas, -⟩ := hready.read hf hlt
    obtain rfl := Except.ok.inj (hread.symm.trans ht)
    exact ⟨_, i, line, k, hf, hj, hhas⟩

theorem rank_reader (h : s.Invariant r n) (hall : s.NobodyRemoved r) (hp : p ∈ s.world.comm) :
    (s.reader p).node.rank = p := by
  obtain ⟨-, hrank, -, -⟩ := h.reader hp
  rw [(nobodyRemoved_iff h.world).mp hall] at hrank
  obtain ⟨hlt, hget⟩ := List.getElem?_eq_some_iff.mp hrank
  rwa [List.getElem_range] at hget

/-- A fresh read leaves `job_id` right: the bit is set, or `job_id` was right already. -/
theorem freshRead_iff (h : s.Invariant r n) (hall : s.NobodyRemoved r) (hp : p ∈ s.world.comm)
    {f : MapFile} (hfile : s.manager.file = some f.fields) {L₀ : Layout r} (hf : f.Lists L₀)
    {s' : Process} {i k : ℕ} {line : MapLine} (hhas : s'.HasRead (s.reader p) f L₀ i line k) :
    s.FreshRead p ↔ line.updateBit = 1 ∨ (s.reader p).node.jobId = i := by
  have hmem : p ∈ line.workers := by
    have hplace := List.mem_of_getElem? hhas.place
    rwa [h.rank_reader hall hp] at hplace
  have hold : (s.reader p).node.jobId = i ↔ ∃ g line', s.lastRead p = some g ∧
      g.lines[i]? = some line' ∧ p ∈ line'.workers := by
    cases hl : s.lastRead p with
    | none =>
      -- before the first read `job_id` is `-1`
      rw [reader_of_eq_none hl]
      refine iff_of_false ?_ (by simp)
      intro hjob
      have hunset : (-1 : ℤ) = i := hjob
      omega
    | some g =>
      have hsynced := h.synced p hp g hl
      rw [(nobodyRemoved_iff h.world).mp hall] at hsynced
      rw [reader_of_eq_some hl, hsynced.jobId_eq_iff]
      simp
  rw [hold]
  constructor
  · intro hfresh
    obtain ⟨i', line', hrow, hp', hcase⟩ := hfresh f hfile
    obtain rfl : i' = i := Layout.eq_of_mem_workers (hf.mem_workers.mpr ⟨line', hrow, hp'⟩)
      (hf.mem_workers.mpr ⟨line, hhas.row, hmem⟩)
    obtain rfl := Option.some_inj.mp (hrow.symm.trans hhas.row)
    exact hcase
  · intro hcase f' hf'
    obtain rfl := MapFile.fields_injective (Option.some_inj.mp (hf'.symm.trans hfile))
    exact ⟨i, line, hhas.row, hmem, hcase⟩

/-- **A fresh read** leaves the process with the map of the file. -/
theorem synced_read (hjr : j ≤ r) (h : s.Invariant r n) (hall : s.NobodyRemoved r)
    (hp : p ∈ s.world.comm) {f : MapFile} (hfile : s.manager.file = some f.fields)
    (hfresh : s.FreshRead p) {s' : Process} (hread : s.readMap p f.fields = .ok s') :
    s'.Synced r j f s.world.comm p := by
  have hcomm := (nobodyRemoved_iff h.world).mp hall
  obtain ⟨L₀, i, line, k, hf, hj, hhas⟩ := h.hasRead hjr hp hfile hread
  obtain ⟨hready, hrank, hworld, hignore⟩ := h.reader hp
  have hjob : line.updateBit = 1 ∨
      (s.reader p).node.jobId = i ∧ (s.reader p).node.jobsCount = f.lines.length := by
    refine ((h.freshRead_iff hall hp hfile hf hhas).mp hfresh).imp_right fun hold ↦ ⟨hold, ?_⟩
    cases hl : s.lastRead p with
    | none =>
      rw [reader_of_eq_none hl] at hold
      have hunset : (-1 : ℤ) = i := hold
      omega
    | some g =>
      rw [reader_of_eq_some hl, (h.synced p hp g hl).jobsCount, hf.length_lines, hj]
  rw [hcomm] at hrank hworld hignore ⊢
  exact .of_hasRead hhas hready hf hj hworld hrank (by simpa using hignore) hjob

/-- One step keeps the invariant, if a read is fresh and finds nobody removed. -/
theorem step (hjr : j ≤ r) (h : s.Invariant r n) {e : Event} {s' : System j}
    (hstep : s.Step n e s')
    (hread : ∀ p, e = .read p → s.NobodyRemoved r ∧ s.FreshRead p) : s'.Invariant r n := by
  -- what a process has read last changes only with a read of its own
  cases hstep with
  | manage hm => exact ⟨h.manager.tail hm, h.world, h.entering, h.synced⟩
  | @read p f t hp hfile ht =>
    obtain ⟨hall, hfresh⟩ := hread p rfl
    have hsynced := h.synced_read hjr hall hp hfile hfresh ht
    refine ⟨h.manager, h.world, ?_, ?_⟩
    · intro q hq hnone
      by_cases hqp : q = p
      · subst hqp
        simp [afterRead] at hnone
      · simp only [afterRead, Function.update_of_ne hqp] at hnone ⊢
        exact h.entering q hq hnone
    · intro q hq g hg
      by_cases hqp : q = p
      · subst hqp
        simp only [afterRead, Function.update_self] at hg ⊢
        obtain rfl := Option.some_inj.mp hg
        exact hsynced
      · simp only [afterRead, Function.update_of_ne hqp] at hg ⊢
        exact h.synced q hq g hg
  | updateComms hentered =>
    exact ⟨h.manager, h.world, fun q hq hnone ↦ absurd hnone (hentered q hq),
      fun q hq g hg ↦ (h.synced q hq g hg).setComms _ _⟩
  | @shrink keep acked hentered hret =>
    refine ⟨h.manager, List.filter_sublist.trans h.world,
      fun q hq hnone ↦ absurd hnone (hentered q (List.mem_of_mem_filter hq)), ?_⟩
    intro q hq g hg
    obtain ⟨t, ht⟩ := hret q hq
    obtain ⟨activeComm, worldJobComm, heq⟩ := World.proc_shrink ht
    have hsynced := (h.synced q (List.mem_of_mem_filter hq) g hg).shrink h.nodup hq ht
    change ((s.world.shrink keep acked).proc q).Synced r j g (s.world.comm.filter keep) q
    rw [heq]
    exact hsynced.setComms _ _

theorem run (hjr : j ≤ r) {condition : System j → Event → Prop}
    (hcondition : ∀ s p, condition s (.read p) → s.Invariant r n →
      s.NobodyRemoved r ∧ s.FreshRead p)
    (hrun : Run n condition (initial j r) s) : s.Invariant r n := by
  induction hrun with
  | refl => exact invariant_initial j r n
  | tail _ hstep ih =>
    obtain ⟨e, hstep, hcond⟩ := hstep
    exact ih.step hjr hstep fun p he ↦ hcondition _ p (he ▸ hcond) ih

end Invariant

end System

end EntangledMPI
