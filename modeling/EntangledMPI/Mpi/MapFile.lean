import EntangledMPI.Library.CountingLoop
import EntangledMPI.Library.TextInput
import EntangledMPI.Manager.JobMap
import EntangledMPI.Shared

/-!
# Reading `replication.map`

`parse_map_file` calls `fscanf` once for the first line, once for the front of every row and once
for every worker. A call converts numbers from where the one before it has stopped and assigns them
in order; where it converts fewer than it asks for, the other variables keep what they had. An `int`
that was never assigned is `none`, and using it is the fault `indeterminate`.

The reader is the same for a file that is given by its characters and for one that is given by the
numbers it starts with; only the scanner differs.

A file that lists every job is a `MapFile`, and `MapFile.fields` is what it looks like. The manager
writes such files.
-/

namespace EntangledMPI

open CountingLoop TextInput

/-! ## `fscanf` -/

/-- What a call of `fscanf` converts, and what it leaves of a file. -/
abbrev Scanner (ι : Type) := List Directive → ι → List ℤ × ι

/-- The scanner of a file that is given by its numbers. -/
def scanNumbers : Scanner (List ℤ) := fun format fields ↦
  (fields.take (format.count .decimal), fields.drop (format.count .decimal))

theorem scanNumbers_header (cores jobs : ℤ) (rest : List ℤ) :
    scanNumbers [.decimal, .space, .decimal] (cores :: jobs :: rest) = ([cores, jobs], rest) := rfl

theorem scanNumbers_row (updateBit jId wC : ℤ) (rest : List ℤ) :
    scanNumbers [.decimal, .space, .decimal, .space, .decimal, .space]
      (updateBit :: jId :: wC :: rest) = ([updateBit, jId, wC], rest) := rfl

/-- One variable of a call of `fscanf`: it holds `old`, and gets the next of the numbers that the
call has converted. -/
def scanInt (fields : List ℤ) (old : Option ℤ) : Option ℤ × List ℤ :=
  match fields with
  | [] => (old, [])
  | x :: rest => (some x, rest)

/-- Use a variable. -/
def valueOf (x : Option ℤ) : Except Fault ℤ :=
  match x with
  | none => .error .indeterminate
  | some x => .ok x

/-- Use a number as an array index. -/
def indexOf (x : ℤ) : Except Fault ℕ :=
  if x < 0 then .error .outOfBounds else .ok x.toNat

/-- A write to `rank_2_job`, through a pointer that may be `NULL`. -/
def writeRank2Job (rank2Job : Option Table) (rank job : ℕ) : Except Fault (Option Table) :=
  match rank2Job with
  | none => .error .outOfBounds
  | some table => (table.write rank job).map some

/-- `if(rank_2_job == NULL) rank_2_job = malloc(sizeof(int) * cores)`. -/
def allocRank2Job (rank2Job : Option Table) (cores : Option ℤ) : Except Fault (Option Table) :=
  match rank2Job with
  | none => (valueOf cores).map fun cores ↦ some ⟨cores.toNat, fun _ ↦ 0⟩
  | some table => .ok (some table)

/-! ## `parse_map_file` -/

namespace Node

/-- The first entry of a row names the master. -/
def noteMaster (node : Node) (wRank : ℤ) (j : ℕ) : Node :=
  if j = 0 ∧ wRank = node.rank then { node with nodeCheckpointMaster := .yes } else node

/-- The process is at place `j` of a row of job `jId` that was updated. -/
def noteJob (node : Node) (jId wC : ℤ) (j : ℕ) : Node :=
  if node.jobId ≠ jId then
    { node with age := 1, jobId := jId, nodeTransitState := .receiver }
  else
    { node with
      age := node.age + 1
      nodeTransitState := if j = 0 ∧ 1 < wC then .sender else .none }

/-- What the entry `w_rank` at place `j` of the row of job `j_id` changes in `node`. -/
def noteWorker (node : Node) (jobs updateBit jId wC wRank : ℤ) (j : ℕ) : Node :=
  let node := node.noteMaster wRank j
  if wRank = node.rank ∧ updateBit = 1 then
    { node.noteJob jId wC j with jobsCount := jobs.toNat }
  else node

/-- The two fields every reading starts from. -/
def reset (node : Node) : Node :=
  { node with nodeCheckpointMaster := .no, nodeTransitState := .none }

end Node

/-- The state of the loop over the rows; `fields` is what is left of the file. -/
structure ParseState (ι : Type) where
  fields : ι
  node : Node
  jobList : List Job
  rank2Job : Option Table

/-- The state of the loop over the workers of a row: `w_rank` keeps its value between turns. -/
structure RowState (ι : Type) extends ParseState ι where
  wRank : Option ℤ

section

variable {ι : Type} (scan : Scanner ι)

/-- One turn of the loop over the workers of a row. -/
def RowState.turn (jobs updateBit jId wC : ℤ) (s : RowState ι) (j : ℕ) :
    Except Fault (RowState ι) := do
  let (numbers, fields) := scan [.space, .decimal] s.fields
  let (wRank, _) := scanInt numbers s.wRank
  let w ← valueOf wRank
  let job ← indexOf jId
  let rank ← indexOf w
  let rank2Job ← writeRank2Job s.rank2Job rank job
  let node := s.node.noteWorker jobs updateBit jId wC w j
  let entry ← readAt s.jobList job
  let rankList ← writeAt entry.rankList j rank
  let jobList ← writeAt s.jobList job { entry with rankList := rankList }
  return ⟨⟨fields, node, jobList, rank2Job⟩, wRank⟩

/-- One turn of the loop over the rows. The fresh `rank_list` is filled in by the inner loop. -/
def ParseState.turn (jobs : ℤ) (s : ParseState ι) (_ : ℕ) : Except Fault (ParseState ι) := do
  let (numbers, fields) := scan [.decimal, .space, .decimal, .space, .decimal, .space] s.fields
  let (updateBit, numbers) := scanInt numbers none
  let (jId, numbers) := scanInt numbers none
  let (wC, _) := scanInt numbers none
  let jId ← valueOf jId
  if ¬jId < jobs then throw .assertFailed
  else
    let wC ← valueOf wC
    if ¬0 < wC then throw .assertFailed
    else
      let job ← indexOf jId
      let jobList ← writeAt s.jobList job ⟨job, wC.toNat, List.replicate wC.toNat 0⟩
      let updateBit ← valueOf updateBit
      let row ← loop (RowState.turn scan jobs updateBit jId wC) wC.toNat
        ⟨⟨fields, s.node, jobList, s.rank2Job⟩, none⟩
      return row.toParseState

/-- `parse_map_file`. -/
def Process.parseMap (s : Process) (file : ι) : Except Fault Process :=
  if s.ckptRestore = .yes then .ok s
  else do
    let (numbers, fields) := scan [.decimal, .space, .decimal] file
    let (cores, numbers) := scanInt numbers none
    let (jobs, _) := scanInt numbers none
    -- The old lists are freed by the count in `node`, which need not be the length of the array.
    if s.jobList.length < s.node.jobsCount then throw .outOfBounds
    else
      let rank2Job ← allocRank2Job s.rank2Job cores
      let jobs ← valueOf jobs
      let t ← loop (ParseState.turn scan jobs) jobs.toNat
        ⟨fields, s.node.reset, List.replicate jobs.toNat Job.unset, rank2Job⟩
      return { s with node := t.node, jobList := t.jobList, rank2Job := t.rank2Job }

end

namespace Process

/-- `parse_map_file` on a file that starts with the numbers `fields`. -/
def parseMapFile (s : Process) (fields : List ℤ) : Except Fault Process :=
  s.parseMap scanNumbers fields

/-- `parse_map_file` on a file with the characters `text`. -/
def parseMapText (s : Process) (text : Text) : Except Fault Process := s.parseMap fscanf text

theorem ckptRestore_parseMapFile {s s' : Process} {fields : List ℤ}
    (h : s.parseMapFile fields = .ok s') : s'.ckptRestore = s.ckptRestore := by
  rw [parseMapFile, parseMap] at h
  split at h
  · rw [Except.ok.inj h]
  · dsimp only at h
    split at h
    · exact absurd h (by simp)
    · obtain ⟨rank2Job, -, h⟩ := except_bind_eq_ok.mp h
      obtain ⟨jobs, -, h⟩ := except_bind_eq_ok.mp h
      obtain ⟨t, -, h⟩ := except_bind_eq_ok.mp h
      rw [← Except.ok.inj h]

theorem rankIgnoreList_parseMapFile {s s' : Process} {fields : List ℤ}
    (h : s.parseMapFile fields = .ok s') : s'.rankIgnoreList = s.rankIgnoreList := by
  rw [parseMapFile, parseMap] at h
  split at h
  · rw [Except.ok.inj h]
  · dsimp only at h
    split at h
    · exact absurd h (by simp)
    · obtain ⟨rank2Job, -, h⟩ := except_bind_eq_ok.mp h
      obtain ⟨jobs, -, h⟩ := except_bind_eq_ok.mp h
      obtain ⟨t, -, h⟩ := except_bind_eq_ok.mp h
      rw [← Except.ok.inj h]

/-- The globals of a process before `MPI_Init`. -/
def blank : Process where
  node :=
    { jobId := 0, rank := 0, staticRank := 0, age := 0, jobsCount := 0
      nodeTransitState := .none, nodeCheckpointMaster := .no
      repMpiCommWorld := [], worldJobComm := none, activeComm := none }
  jobList := []
  rank2Job := none
  rankIgnoreList := ⟨0, fun _ ↦ 0⟩
  ckptRestore := .no
  processShrinkingPending := false
  lastGroupFailed := []
  previousWorldGroup := []

/-- What `init_node` sets up before it reads the map, at the process of rank `myRank` in the world
`comm`. -/
def enter (s : Process) (comm : Group) (myRank : ℕ) : Process :=
  { s with
    node := { s.node with
      repMpiCommWorld := comm, rank := myRank, staticRank := myRank, jobId := -1 }
    rankIgnoreList := ⟨comm.length, fun _ ↦ 0⟩ }

/-- `init_node`, but for `update_comms`, which all processes run together. -/
def initNode (s : Process) (comm : Group) (myRank : ℕ) (fields : List ℤ) :
    Except Fault Process := do
  let s ← parseMapFile (s.enter comm myRank) fields
  return { s with node := { s.node with nodeTransitState := .none } }

end Process

/-! ## Complete files -/

structure MapLine where
  updateBit : ℤ
  workers : List ℕ
  deriving DecidableEq, Repr

/-- A file with one row for every job, in the order of the job ids. -/
structure MapFile where
  cores : ℕ
  lines : List MapLine
  deriving DecidableEq, Repr

/-- The row of job `i`. -/
def MapLine.fields (line : MapLine) (i : ℕ) : List ℤ :=
  line.updateBit :: (i : ℤ) :: (line.workers.length : ℤ) :: line.workers.map Nat.cast

/-- The rows from job `i` on. -/
def MapFile.rows (i : ℕ) : List MapLine → List ℤ
  | [] => []
  | line :: lines => line.fields i ++ rows (i + 1) lines

/-- The numbers of a file. -/
def MapFile.fields (f : MapFile) : List ℤ :=
  (f.cores : ℤ) :: (f.lines.length : ℤ) :: rows 0 f.lines

/-- The file of a job map. -/
def Manager.JobMap.mapFile {j : ℕ} (jm : Manager.JobMap j) : MapFile where
  cores := jm.countTotalRanks
  lines := (List.finRange j).map fun k ↦ ⟨(jm.jMap k).modified, (jm.jMap k).ranks⟩

end EntangledMPI
