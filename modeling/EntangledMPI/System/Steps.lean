import EntangledMPI.Manager.WrittenMaps
import EntangledMPI.Mpi.JobListShrink
import EntangledMPI.Mpi.MapReading

/-!
# The manager and the processes together

The manager and the processes share nothing but the file. A process reads it in `init_node` and
again in every `is_file_update_set` that finds it modified, the manager writes it when it likes, and
failures are repaired by shrinks in between. `Step` lets all of this happen in any order; a read is
atomic, as is a write.

`lastRead` remembers which file a process has read last. Nothing in the code depends on it.
-/

namespace EntangledMPI

open CountingLoop Renumbering

structure System (j : ℕ) where
  manager : Manager.State j
  world : World
  lastRead : ℕ → Option MapFile

inductive Event
  | manage
  | read (p : ℕ)
  | updateComms
  | shrink

namespace System

variable {j : ℕ}

/-- The world before `MPI_Init`: the processes `0 .. r - 1`, and a manager that has written
nothing. -/
def initial (j : ℕ) [NeZero j] (r : ℕ) : System j :=
  ⟨Manager.State.initial j r, ⟨List.range r, fun _ ↦ Process.blank⟩, fun _ ↦ none⟩

/-- The first read of a process is the one in `init_node`. -/
def readMap (s : System j) (p : ℕ) (fields : List ℤ) : Except Fault Process :=
  match s.lastRead p with
  | none => (s.world.proc p).initNode s.world.comm (s.world.comm.idxOf p) fields
  | some _ => (s.world.proc p).parseMapFile fields

/-- Process `p` has read `f` and is now in the state `s'`. -/
def afterRead (s : System j) (p : ℕ) (f : MapFile) (s' : Process) : System j :=
  { s with
    world := { s.world with proc := Function.update s.world.proc p s' }
    lastRead := Function.update s.lastRead p (some f) }

/-- One step of the manager, of one process, or of all of them together. Splits and shrinks are
collective, so every process has entered by then. -/
inductive Step (n : ℤ) : System j → Event → System j → Prop
  | manage {s : System j} {m : Manager.State j} (hm : Manager.Step n s.manager m) :
      Step n s .manage { s with manager := m }
  | read {s : System j} {p : ℕ} {f : MapFile} {s' : Process} (hp : p ∈ s.world.comm)
      (hfile : s.manager.file = some f.fields) (hread : s.readMap p f.fields = .ok s') :
      Step n s (.read p) (s.afterRead p f s')
  | updateComms {s : System j} (hread : ∀ p ∈ s.world.comm, s.lastRead p ≠ none) :
      Step n s .updateComms { s with world := s.world.updateComms }
  | shrink {s : System j} {keep : ℕ → Bool} {acked : ℕ → Group}
      (hread : ∀ p ∈ s.world.comm, s.lastRead p ≠ none) (hret : s.world.ShrinkReturns keep acked) :
      Step n s .shrink { s with world := s.world.shrink keep acked }

/-- A run whose steps meet a condition on the state they start from. -/
def Run (n : ℤ) (condition : System j → Event → Prop) : System j → System j → Prop :=
  Relation.ReflTransGen fun s s' ↦ ∃ e, s.Step n e s' ∧ condition s e

theorem Run.manage {n : ℤ} {condition : System j → Event → Prop} {s : System j}
    {m : Manager.State j} (hcondition : ∀ s, condition s .manage)
    (h : Relation.ReflTransGen (Manager.Step n) s.manager m) :
    Run n condition s { s with manager := m } := by
  induction h with
  | refl => exact Relation.ReflTransGen.refl
  | tail _ hstep ih => exact ih.tail ⟨.manage, .manage hstep, hcondition _⟩

/-! ## One job with two workers -/

/-- The file of one job with the workers `0` and `1`. -/
def pairFile (bit : ℤ) : MapFile := ⟨2, [⟨bit, [0, 1]⟩]⟩

/-- Right after the first write of a manager of one job with two workers. -/
def pairFirst : Manager.State 1 :=
  ⟨Manager.JobMap.initJobMap 1 2, .resetting, some (pairFile 1).fields⟩

/-- Right after its second write. -/
def pairSecond : Manager.State 1 :=
  ⟨(Manager.JobMap.initJobMap 1 2).resetModified.initStackData [] true, .resetting,
    some (pairFile 0).fields⟩

theorem pairFirst_reachable :
    Relation.ReflTransGen (Manager.Step 0) (Manager.State.initial 1 2) pairFirst := by
  have hchosen : Manager.Step 0 (Manager.State.initial 1 2)
      ⟨Manager.JobMap.initJobMap 1 2, .assigning [] 0, none⟩ := .chooseReturn (by decide)
  have hassigned : Manager.Step 0 ⟨Manager.JobMap.initJobMap 1 2, .assigning [] 0, none⟩
      ⟨Manager.JobMap.initJobMap 1 2, .writing, none⟩ := .assignReturn (by decide)
  exact ((Relation.ReflTransGen.single hchosen).tail hassigned).tail .writeToFile

theorem pairSecond_reachable :
    Relation.ReflTransGen (Manager.Step 0) pairFirst pairSecond := by
  have hreset : Relation.ReflTransGen (Manager.Step 0) pairFirst
      ⟨pairSecond.jm, .choosing 0 [], pairFirst.file⟩ :=
    (Relation.ReflTransGen.single .resetModified).tail (.initStackData [] true)
  have hchosen : Manager.Step 0 ⟨pairSecond.jm, .choosing 0 [], pairFirst.file⟩
      ⟨pairSecond.jm, .assigning [] 0, pairFirst.file⟩ := .chooseReturn (by decide)
  have hassigned : Manager.Step 0 ⟨pairSecond.jm, .assigning [] 0, pairFirst.file⟩
      ⟨pairSecond.jm, .writing, pairFirst.file⟩ := .assignReturn (by decide)
  exact ((hreset.tail hchosen).tail hassigned).tail .writeToFile

/-- What process `p` is after it has read `f`. -/
def readResult (s : System j) (p : ℕ) (f : MapFile) : Process :=
  (s.readMap p f.fields).toOption.getD Process.blank

/-- Process `p` reads `f`, if it can. -/
def reload (s : System j) (p : ℕ) (f : MapFile) : System j := s.afterRead p f (s.readResult p f)

/-- The two processes after the first write, before they enter. -/
def pairStart : System 1 := { initial 1 2 with manager := pairFirst }

/-- Both processes have entered on the first write. -/
def pairEntered : System 1 := (pairStart.reload 0 (pairFile 1)).reload 1 (pairFile 1)

theorem run_pairEntered {condition : System 1 → Event → Prop}
    (hmanage : ∀ s, condition s .manage) (hfirst : condition pairStart (.read 0))
    (hsecond : condition (pairStart.reload 0 (pairFile 1)) (.read 1)) :
    Run 0 condition (initial 1 2) pairEntered := by
  have hwrite : Run 0 condition (initial 1 2) pairStart := Run.manage hmanage pairFirst_reachable
  have hread₀ : pairStart.Step 0 (.read 0) (pairStart.reload 0 (pairFile 1)) :=
    .read (by decide) rfl rfl
  have hread₁ : (pairStart.reload 0 (pairFile 1)).Step 0 (.read 1) pairEntered :=
    .read (by decide) rfl rfl
  exact (hwrite.tail ⟨_, hread₀, hfirst⟩).tail ⟨_, hread₁, hsecond⟩

end System

/-! ## What a process holds after a good read -/

/-- The process holds the map of the file `f`, translated to the present ranks. -/
structure Process.Synced (s : Process) (r j : ℕ) (f : MapFile) (comm : Group) (p : ℕ) : Prop where
  map : ∃ L₀ : Layout r, f.Lists L₀ ∧ L₀.jobs.length = j ∧ ∃ L : Layout comm.length,
    L.jobs = L₀.jobs.map (List.filterMap (translate (List.range r) comm)) ∧ s.Shares L comm p
  ckptRestore : s.ckptRestore = .no
  rank2Job : ∃ table, s.rank2Job = some table ∧ r ≤ table.size

namespace Process.Synced

variable {s : Process} {r j : ℕ} {f : MapFile} {comm : Group} {p : ℕ}

theorem jobsCount (h : s.Synced r j f comm p) : s.node.jobsCount = j := by
  obtain ⟨L₀, -, hj, L, hL, hshares⟩ := h.map
  rw [hshares.jobsCount, hL, List.length_map, hj]

theorem repMpiCommWorld (h : s.Synced r j f comm p) : s.node.repMpiCommWorld = comm := by
  obtain ⟨L₀, -, -, L, -, hshares⟩ := h.map
  exact hshares.comm

theorem rank (h : s.Synced r j f comm p) : comm[s.node.rank]? = some p := by
  obtain ⟨L₀, -, -, L, -, hshares⟩ := h.map
  exact hshares.rank

theorem jobId_nonneg (h : s.Synced r j f comm p) : 0 ≤ s.node.jobId := by
  obtain ⟨L₀, -, -, L, -, hshares⟩ := h.map
  obtain ⟨i, hi, -⟩ := hshares.job
  rw [hi]
  exact Int.natCast_nonneg i

theorem ready (h : s.Synced r j f comm p) : s.Ready r where
  ckptRestore := h.ckptRestore
  jobsCount := by
    obtain ⟨L₀, -, -, L, hL, hshares⟩ := h.map
    rw [hshares.jobsCount, hshares.length_jobList]
  rank2Job := Or.inr h.rank2Job

theorem rank_eq (h : s.Synced r j f (List.range r) p) : s.node.rank = p := by
  obtain ⟨hlt, hp⟩ := List.getElem?_eq_some_iff.mp h.rank
  rwa [List.getElem_range] at hp

theorem workers_jobList (h : s.Synced r j f (List.range r) p) :
    s.jobList.map Job.workers = f.lines.map MapLine.workers := by
  obtain ⟨L₀, hf, -, L, hL, hshares⟩ := h.map
  rw [hshares.jobList, hL, L₀.map_translate_self List.nodup_range (by simp), hf.1]

theorem jobId_eq_iff (h : s.Synced r j f (List.range r) p) {i : ℕ} :
    s.node.jobId = i ↔ ∃ line, f.lines[i]? = some line ∧ p ∈ line.workers := by
  obtain ⟨L₀, hf, -, L, hL, hshares⟩ := h.map
  rw [L₀.map_translate_self List.nodup_range (by simp)] at hL
  have hworkers : ∀ k, L.workers k = L₀.workers k := fun k ↦ by
    rw [Layout.workers, Layout.workers, hL]
  obtain ⟨k, hk, hmem⟩ := hshares.job
  rw [hworkers, h.rank_eq] at hmem
  rw [← hf.mem_workers, hk, Nat.cast_inj]
  exact ⟨fun hki ↦ hki ▸ hmem, fun hi ↦ Layout.eq_of_mem_workers hmem hi⟩

theorem nodeCheckpointMaster_iff (h : s.Synced r j f (List.range r) p) {i : ℕ} {line : MapLine}
    (hrow : f.lines[i]? = some line) (hp : p ∈ line.workers) :
    s.node.nodeCheckpointMaster = .yes ↔ line.workers.head? = some p := by
  have hjob := h.jobId_eq_iff.mpr ⟨line, hrow, hp⟩
  obtain ⟨L₀, hf, -, L, hL, hshares⟩ := h.map
  rw [L₀.map_translate_self List.nodup_range (by simp), ← hf.1] at hL
  have hworkers : L.workers i = line.workers := by
    rw [Layout.workers, hL, List.getD_eq_getElem?_getD, List.getElem?_map, hrow]
    rfl
  rw [hshares.master i hjob, h.rank_eq, Layout.master, hworkers]
  cases hw : line.workers with
  | nil => simp [hw] at hp
  | cons q rest => simp [eq_comm]

/-- A process that was ready for the file holds its map, if the row that lists it has its bit set or
was its row already. -/
theorem of_hasRead {s₀ : Process} {L₀ : Layout r} {i k : ℕ} {line : MapLine}
    (hhas : s.HasRead s₀ f L₀ i line k) (hready : s₀.Ready r) (hf : f.Lists L₀)
    (hj : L₀.jobs.length = j) (hworld : s₀.node.repMpiCommWorld = List.range r)
    (hrank : (List.range r)[s₀.node.rank]? = some p) (hignore : r ≤ s₀.rankIgnoreList.size)
    (hjob : line.updateBit = 1 ∨ s₀.node.jobId = i ∧ s₀.node.jobsCount = f.lines.length) :
    s.Synced r j f (List.range r) p := by
  have hlen : (List.range r).length = r := List.length_range
  obtain ⟨L, hL⟩ := L₀.exists_jobs_eq hlen.symm
  obtain ⟨table, htable, hsize, -⟩ := hhas.rank2Job
  refine ⟨⟨L₀, hf, hj, L, ?_, hhas.shares hf hL hworld hrank hlen (by rwa [hlen]) hjob⟩,
    hhas.ckptRestore.trans hready.ckptRestore, table, htable, hsize⟩
  rw [hL, L₀.map_translate_self List.nodup_range (by simp)]

/-- A shrink keeps it. -/
theorem shrink {keep : ℕ → Bool} {acked : Group} {s' : Process} (h : s.Synced r j f comm p)
    (hcomm : comm.Nodup) (hp : p ∈ comm.filter keep)
    (hs' : s.shrink (comm.filter keep) acked = .ok s') : s'.Synced r j f (comm.filter keep) p := by
  obtain ⟨⟨L₀, hf, hj, L, hL, hshares⟩, hckpt, table, htable, hsize⟩ := h
  have hshrink := hshares.shrink_eq hcomm hp acked
  split at hshrink
  next hlive =>
    obtain ⟨t, ht, hfrom, hshares'⟩ := hshrink
    obtain rfl := Except.ok.inj (hs'.symm.trans ht)
    refine ⟨⟨L₀, hf, hj, L.renumber hcomm keep (Layout.forall_jobs.mpr hlive),
      L.jobs_renumber_trans hcomm keep _ hL, hshares' _ rfl⟩, hfrom.ckptRestore.trans hckpt, ?_⟩
    obtain ⟨start, table', hstart, htable', hsame⟩ := hfrom.rank2Job
    obtain rfl := Option.some_inj.mp (hstart.symm.trans htable)
    exact ⟨table', htable', hsame ▸ hsize⟩
  next => exact absurd (hs'.symm.trans hshrink) (by simp)

theorem setComms (h : s.Synced r j f comm p) (activeComm worldJobComm : Option Group) :
    Process.Synced { s with node := { s.node with
      activeComm := activeComm, worldJobComm := worldJobComm } } r j f comm p := by
  obtain ⟨⟨L₀, hf, hj, L, hL, hshares⟩, hckpt, htable⟩ := h
  exact ⟨⟨L₀, hf, hj, L, hL, { hshares with }⟩, hckpt, htable⟩

end Process.Synced

end EntangledMPI
