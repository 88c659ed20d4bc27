import EntangledMPI.Library.MessageNetwork
import EntangledMPI.Library.TypeMap
import EntangledMPI.Mpi.JobListShrink

/-!
# Sends and receives

A program of one job sends to jobs and receives from jobs. On plain MPI every job is one process;
here each of its workers runs the program, `MPI_Send` sends to every worker of the destination and
`MPI_Recv` receives from every worker of the source, into one buffer.

`MPI_Send` has a copy of `type_size * count` bytes for each worker and sends from there, with the
type of the user: what a strided type has behind those bytes is not the user's. The sizes and the
tags are `int`s, and PMPI refuses a tag that has overflowed to a negative one.

`plain` and `replicated` are the two networks. PMPI buffers what is sent and matches messages of one
source, destination and tag in order, so each such triple is a channel.
-/

namespace EntangledMPI

open CountingLoop MessageNetwork

/-! ## Programs -/

/-- A tag of a program: an `int` that is not negative, so below `2 ^ 31`. -/
abbrev UserTag := Fin 2147483648

/-- What a send is given: the memory from the user's buffer on, and which elements to send. -/
structure SendBuffer (β : Type*) where
  memory : ℕ → β
  datatype : TypeMap
  count : ℕ

namespace SendBuffer

variable {β : Type*} (buf : SendBuffer β)

/-- `type_size * count`. -/
def size : ℕ := buf.datatype.size * buf.count

/-- The payload: what a send sends that is given the user's buffer. -/
def data : List β := buf.datatype.pack buf.count buf.memory

/-- What one sends that is given the copy of `MPI_Send`. Behind the bytes that are copied it finds
`stale`: the slots there are filled after it, and what lies behind the last one never. -/
def staged (stale : ℕ → β) : List β :=
  buf.datatype.pack buf.count fun k ↦ if k < buf.size then buf.memory k else stale k

variable {buf} in
/-- Without gaps the copy has all that is sent. -/
theorem staged_eq (h : buf.datatype.Contiguous) (stale : ℕ → β) : buf.staged stale = buf.data :=
  h.pack_congr fun _ hk ↦ if_pos hk

end SendBuffer

/-- The next call of a program among `J` jobs. `buf` is what the buffer holds at the call. -/
inductive Call (J : ℕ) (β σ : Type*)
  | send (dest : Fin J) (tag : UserTag) (buf : SendBuffer β) (next : σ)
  | recv (source : Fin J) (tag : UserTag) (buf : List β) (next : List β → σ)
  | finalize

/-- A deterministic program; `start` may depend on the job, as `MPI_Comm_rank` returns its id. -/
structure Program (J : ℕ) (β σ : Type*) where
  start : ℕ → σ
  call : σ → Call J β σ

/-- Tags of one sender stay apart, even where `SET_TAG` overflows. -/
theorem setTag_injective (rank : ℤ) : Function.Injective fun tag : UserTag ↦ setTag rank tag := by
  intro tag tag' h
  have htag := tag.isLt
  have htag' := tag'.isLt
  simp only [setTag, Int.bmod_def] at h
  apply Fin.ext
  split at h <;> split at h <;> omega

/-- No tag overflows that leaves room for the ranks. -/
theorem setTag_nonneg {n : ℕ} {tag : UserTag} (htag : 100 * n + (tag : ℕ) < 2 ^ 31) :
    ∀ rank < n, 0 ≤ setTag (rank : ℕ) tag := by
  intro rank hrank
  rw [setTag, Int.bmod_def]
  split <;> omega

/-! ## One process for each job -/

/-- The state of a job on plain MPI, with what its receives have got so far. -/
structure JobState (α σ : Type*) where
  state : σ
  received : List α

abbrev JobConfig (J : ℕ) (α σ : Type*) :=
  Config (Fin J) (Fin J × Fin J × UserTag) α (JobState α σ)

namespace Program

variable {J : ℕ} {β σ : Type*} (program : Program J β σ)

def plainAct (job : Fin J) (s : JobState (List β) σ) :
    Action (Fin J × Fin J × UserTag) (List β) (JobState (List β) σ) :=
  match program.call s.state with
  | .send dest tag buf next => .send (job, dest, tag) buf.data ⟨next, s.received⟩
  | .recv source tag _ next => .recv (source, job, tag) fun a ↦ ⟨next a, s.received ++ [a]⟩
  | .finalize => .halt

/-- Plain MPI: one process for each job, a channel for each source, destination and tag. -/
def plain : Network (Fin J) (Fin J × Fin J × UserTag) (List β) (JobState (List β) σ) where
  act := program.plainAct
  writer c := c.1
  reader c := c.2.1
  writer_eq {i s c a t} h := by
    rw [plainAct] at h
    split at h
    · exact congrArg Prod.fst (Action.send.inj h).1.symm
    · exact absurd h (by simp)
    · exact absurd h (by simp)
  reader_eq {i s c k} h := by
    rw [plainAct] at h
    split at h
    · exact absurd h (by simp)
    · exact congrArg (fun c ↦ c.2.1) (Action.recv.inj h).1.symm
    · exact absurd h (by simp)

def plainInitial : JobConfig J (List β) σ :=
  ⟨fun job ↦ ⟨program.start job, []⟩, fun _ ↦ []⟩

end Program

/-! ## The replicated calls -/

/-- One turn of the loop over the workers of a job that `MPI_Send` and `MPI_Recv` share. -/
def Process.workerTurn (s : Process) (target : Job) (tagOf : ℕ → ℤ) (calls : List (ℕ × ℤ)) (i : ℕ) :
    Except Fault (List (ℕ × ℤ)) := do
  let rank ← readAt target.rankList i
  let ignored ← s.rankIgnoreList.read rank
  return if ignored = 1 then calls else calls ++ [(rank, tagOf rank)]

/-- The rank and the tag of every PMPI call the loop makes. -/
def Process.workerCalls (s : Process) (job : ℕ) (tagOf : ℕ → ℤ) : Except Fault (List (ℕ × ℤ)) := do
  let target ← readAt s.jobList job
  loop (s.workerTurn target tagOf) target.workerCount []

/-- The calls of `PMPI_Send` that `MPI_Send` makes for a payload of `size` bytes. Where the size of
the copies for all workers overflows an `int`, `malloc` returns less than the loop writes to. -/
def Process.mpiSend (s : Process) (dest : ℕ) (tag : ℤ) (size : ℕ) :
    Except Fault (List (ℕ × ℤ)) := do
  let target ← readAt s.jobList dest
  if 2 ^ 31 ≤ size * target.workerCount then throw .outOfBounds
  else s.workerCalls dest fun _ ↦ setTag s.node.rank tag

/-- The calls of `PMPI_Recv` that `MPI_Recv` makes. -/
def Process.mpiRecv (s : Process) (source : ℕ) (tag : ℤ) : Except Fault (List (ℕ × ℤ)) :=
  s.workerCalls source fun recvSource ↦ setTag recvSource tag

/-- **While nobody is ignored, the loop reaches every worker of the job**, in order. -/
theorem Process.Shares.workerCalls_eq {n : ℕ} {L : Layout n} {s : Process} {comm : Group} {p : ℕ}
    (h : s.Shares L comm p) (hignore : ∀ r < n, s.rankIgnoreList.entry r = 0) {d : ℕ}
    (hd : d < L.jobs.length) (tagOf : ℕ → ℤ) :
    s.workerCalls d tagOf = .ok ((L.workers d).map fun r ↦ (r, tagOf r)) := by
  obtain ⟨target, htarget, hcount, hranks⟩ := h.exists_job hd
  have hturn : ∀ i < target.workerCount, ∀ calls,
      calls = ((L.workers d).take i).map (fun r ↦ (r, tagOf r)) →
        ∃ calls', s.workerTurn target tagOf calls i = .ok calls' ∧
          calls' = ((L.workers d).take (i + 1)).map fun r ↦ (r, tagOf r) := by
    rintro i hi calls rfl
    obtain ⟨rank, hlt, hget, hread⟩ := hranks i hi
    refine ⟨_, ?_, rfl⟩
    rw [workerTurn, hread, except_ok_bind, h.read_rankIgnoreList hlt, except_ok_bind,
      hignore rank hlt, List.take_add_one, hget]
    simp
  have hloop := loop_rule_ok _ hturn (s := []) (by simp)
  obtain ⟨calls, hcalls, rfl⟩ := hloop
  rw [workerCalls, htarget, except_ok_bind, hcalls, hcount, List.take_length]

/-- Where a worker stands: between two calls, or inside one with PMPI calls left to make. -/
inductive Progress (β σ : Type*)
  | running (state : σ)
  | sending (calls : List (ℕ × ℤ)) (buf : SendBuffer β) (next : σ)
  | receiving (calls : List (ℕ × ℤ)) (buf : List β) (next : List β → σ)
  | stopped

def Progress.isRunning {β σ : Type*} : Progress β σ → Bool
  | .running _ => true
  | _ => false

structure Worker (β σ : Type*) where
  progress : Progress β σ
  received : List (List β)

abbrev RankConfig (β σ : Type*) := Config ℕ (ℕ × ℕ × ℤ) (List β) (Worker β σ)

namespace World

variable {J : ℕ} {β σ : Type*} (w : World) (stale : ℕ × ℕ × ℤ → ℕ → β) (program : Program J β σ)

/-- What the process at a rank does next. Every `PMPI_Recv` of a receive overwrites the buffer. A
PMPI call with a negative tag runs `rep_errhandler`, which aborts; so does `-1` here, which a
`PMPI_Recv` would take for `MPI_ANY_TAG`. `stale` is what lies behind the copies of a send. -/
def workerAct (rank : ℕ) (x : Worker β σ) : Action (ℕ × ℕ × ℤ) (List β) (Worker β σ) :=
  match x.progress with
  | .running state =>
    match program.call state with
    | .send dest tag buf next =>
      match (w.proc (w.procAt rank)).mpiSend dest tag buf.size with
      | .ok calls => .internal ⟨.sending calls buf next, x.received⟩
      | .error _ => .halt
    | .recv source tag buf next =>
      match (w.proc (w.procAt rank)).mpiRecv source tag with
      | .ok calls => .internal ⟨.receiving calls buf next, x.received⟩
      | .error _ => .halt
    | .finalize => .halt
  | .sending [] _ next => .internal ⟨.running next, x.received⟩
  | .sending ((dest, tag) :: calls) buf next =>
    if tag < 0 then .halt
    else .send (rank, dest, tag) (buf.staged (stale (rank, dest, tag)))
      ⟨.sending calls buf next, x.received⟩
  | .receiving [] buf next => .internal ⟨.running (next buf), x.received ++ [buf]⟩
  | .receiving ((source, tag) :: calls) _ next =>
    if tag < 0 then .halt
    else .recv (source, rank, tag) fun a ↦ ⟨.receiving calls a next, x.received⟩
  | .stopped => .halt

/-- A call begins or the program has ended: no PMPI call yet. -/
theorem workerAct_running (rank : ℕ) (state : σ) (received : List (List β)) :
    (∃ y, w.workerAct stale program rank ⟨.running state, received⟩ = .internal y ∧
      y.progress.isRunning = false ∧ y.received = received) ∨
      w.workerAct stale program rank ⟨.running state, received⟩ = .halt := by
  simp only [workerAct]
  cases program.call state with
  | send dest tag buf next =>
    dsimp only
    cases (w.proc (w.procAt rank)).mpiSend dest tag buf.size with
    | ok calls => exact Or.inl ⟨_, rfl, rfl, rfl⟩
    | error e => exact Or.inr rfl
  | recv source tag buf next =>
    dsimp only
    cases (w.proc (w.procAt rank)).mpiRecv source tag with
    | ok calls => exact Or.inl ⟨_, rfl, rfl, rfl⟩
    | error e => exact Or.inr rfl
  | finalize => exact Or.inr rfl

theorem workerAct_sending {rank dest : ℕ} {tag : ℤ} {calls : List (ℕ × ℤ)} {buf : SendBuffer β}
    {next : σ} {received : List (List β)} (htag : 0 ≤ tag) :
    w.workerAct stale program rank ⟨.sending ((dest, tag) :: calls) buf next, received⟩
      = .send (rank, dest, tag) (buf.staged (stale (rank, dest, tag)))
          ⟨.sending calls buf next, received⟩ := by
  rw [workerAct]
  dsimp only
  rw [if_neg (not_lt.mpr htag)]

theorem workerAct_receiving {rank source : ℕ} {tag : ℤ} {calls : List (ℕ × ℤ)} {buf : List β}
    {next : List β → σ} {received : List (List β)} (htag : 0 ≤ tag) :
    w.workerAct stale program rank ⟨.receiving ((source, tag) :: calls) buf next, received⟩
      = .recv (source, rank, tag) fun a ↦ ⟨.receiving calls a next, received⟩ := by
  rw [workerAct]
  dsimp only
  rw [if_neg (not_lt.mpr htag)]

/-- A negative tag ends the process, in a send as in a receive. -/
theorem workerAct_sending_neg {rank dest : ℕ} {tag : ℤ} {calls : List (ℕ × ℤ)}
    {buf : SendBuffer β} {next : σ} {received : List (List β)} (htag : tag < 0) :
    w.workerAct stale program rank ⟨.sending ((dest, tag) :: calls) buf next, received⟩ = .halt :=
  if_pos htag

theorem workerAct_receiving_neg {rank source : ℕ} {tag : ℤ} {calls : List (ℕ × ℤ)} {buf : List β}
    {next : List β → σ} {received : List (List β)} (htag : tag < 0) :
    w.workerAct stale program rank ⟨.receiving ((source, tag) :: calls) buf next, received⟩
      = .halt :=
  if_pos htag

variable {w stale program}

theorem source_of_workerAct {rank : ℕ} {x y : Worker β σ} {c : ℕ × ℕ × ℤ} {a : List β}
    (h : w.workerAct stale program rank x = .send c a y) : c.1 = rank := by
  obtain ⟨progress, received⟩ := x
  cases progress with
  | running state =>
    rcases w.workerAct_running stale program rank state received with
      ⟨y, hy, -⟩ | hhalt
    · exact absurd (h.symm.trans hy) (by simp)
    · exact absurd (h.symm.trans hhalt) (by simp)
  | sending calls buf next =>
    cases calls with
    | nil => exact absurd h (by simp [workerAct])
    | cons call calls =>
      simp only [workerAct] at h
      split at h
      next => exact absurd h (by simp)
      next => exact congrArg Prod.fst (Action.send.inj h).1.symm
  | receiving calls buf next =>
    cases calls with
    | nil => exact absurd h (by simp [workerAct])
    | cons call calls =>
      simp only [workerAct] at h
      split at h <;> exact absurd h (by simp)
  | stopped => exact absurd h (by simp [workerAct])

theorem dest_of_workerAct {rank : ℕ} {x : Worker β σ} {c : ℕ × ℕ × ℤ}
    {k : List β → Worker β σ}
    (h : w.workerAct stale program rank x = .recv c k) : c.2.1 = rank := by
  obtain ⟨progress, received⟩ := x
  cases progress with
  | running state =>
    rcases w.workerAct_running stale program rank state received with
      ⟨y, hy, -⟩ | hhalt
    · exact absurd (h.symm.trans hy) (by simp)
    · exact absurd (h.symm.trans hhalt) (by simp)
  | sending calls buf next =>
    cases calls with
    | nil => exact absurd h (by simp [workerAct])
    | cons call calls =>
      simp only [workerAct] at h
      split at h <;> exact absurd h (by simp)
  | receiving calls buf next =>
    cases calls with
    | nil => exact absurd h (by simp [workerAct])
    | cons call calls =>
      simp only [workerAct] at h
      split at h
      next => exact absurd h (by simp)
      next => exact congrArg (fun c ↦ c.2.1) (Action.recv.inj h).1.symm
  | stopped => exact absurd h (by simp [workerAct])

variable (w stale program)

/-- The processes of the world, by rank; a channel for each source, destination and PMPI tag. -/
def replicated : Network ℕ (ℕ × ℕ × ℤ) (List β) (Worker β σ) where
  act := w.workerAct stale program
  writer c := c.1
  reader c := c.2.1
  writer_eq := source_of_workerAct
  reader_eq := dest_of_workerAct

/-- Every worker starts the program of its job. -/
def replicatedInitial : RankConfig β σ where
  state rank :=
    if rank < w.comm.length then
      ⟨.running (program.start (w.node (w.procAt rank)).jobId.toNat), []⟩
    else ⟨.stopped, []⟩
  queue _ := []

end World

end EntangledMPI
