import EntangledMPI.Mpi.PendingReceives
import EntangledMPI.Mpi.PostedReceives

/-!
# Sends and receives while processes fail

`MPI_Send` and `MPI_Recv` set `__ignore_process_failure` and go through the workers of a job. A
worker that `rank_ignore_list` marks is passed over. A PMPI call with a process that has died fails,
`rep_errhandler` marks the dead it has acknowledged, and the loop goes on with the next worker. All
receives of one `MPI_Recv` write to one buffer, and one that fails may have written a part of it.

Here the workers of all jobs take such turns in any order, and any of them may die between two
turns. What a failed `PMPI_Recv` leaves in the buffer is the parameter `torn`: from the buffer, the
message that had begun to arrive, and the buffer afterwards.

`MPI_Irecv` and `MPI_Wait` are one step each. The first only posts, and all that can happen between
its turns is that somebody dies; the second is one `PMPI_Waitall`. Of the two ways to wait it is the
one with a status.

The messages between two ranks under a PMPI tag are a list that only grows. PMPI gives the receives
that are posted for them their messages in turn, so a process has to know only how many it has
posted.

A message is one element here, and goes to PMPI as it is. It stands for elements without gaps, so
few that their copies for all workers fit an `int`: then what is sent from the copies of `MPI_Send`
is the message (`SendBuffer.staged_eq`), and `MPI_Wait` copies it from its slot
(`AggregateRequest.holds_afterWait`). Tags are such that `SET_TAG` does not overflow to a negative
one, which PMPI would refuse.
-/

namespace EntangledMPI

open CountingLoop

/-! ## One turn of the loop -/

/-- The head of the loop in `MPI_Send` and `MPI_Recv`: the rank turn `i` is about, and whether it is
passed over. There is none when the loop has ended. -/
def Process.turnAt (s : Process) (job i : ℕ) : Except Fault (Option (ℕ × Bool)) := do
  let target ← readAt s.jobList job
  if i < target.workerCount then
    let rank ← readAt target.rankList i
    let ignored ← s.rankIgnoreList.read rank
    return some (rank, decide (ignored = 1))
  else return none

theorem Process.Shares.turnAt_eq {n : ℕ} {L : Layout n} {s : Process} {comm : Group} {p d : ℕ}
    (h : s.Shares L comm p) (hd : d < L.jobs.length) (i : ℕ) :
    s.turnAt d i
      = .ok ((L.workers d)[i]?.map fun r ↦ (r, decide (s.rankIgnoreList.entry r = 1))) := by
  obtain ⟨target, htarget, hcount, hranks⟩ := h.exists_job hd
  rw [turnAt, htarget, except_ok_bind]
  split
  next hi =>
    obtain ⟨rank, hlt, hget, hread⟩ := hranks i hi
    rw [hread, except_ok_bind, h.read_rankIgnoreList hlt, hget]
    rfl
  next hi =>
    rw [List.getElem?_eq_none (hcount ▸ not_lt.mp hi)]
    rfl

theorem Process.Shares.of_turnAt {n : ℕ} {L : Layout n} {s : Process} {comm : Group}
    {p d i q : ℕ} {ignored : Bool} (h : s.Shares L comm p) (hd : d < L.jobs.length)
    (hturn : s.turnAt d i = .ok (some (q, ignored))) :
    (L.workers d)[i]? = some q ∧ ignored = decide (s.rankIgnoreList.entry q = 1) := by
  obtain ⟨rank, hrank, hq⟩ :=
    Option.map_eq_some_iff.mp (Except.ok.inj ((h.turnAt_eq hd i).symm.trans hturn))
  obtain ⟨rfl, rfl⟩ := Prod.mk.inj hq
  exact ⟨hrank, rfl⟩

theorem Process.Shares.of_turnAt_none {n : ℕ} {L : Layout n} {s : Process} {comm : Group}
    {p d i : ℕ} (h : s.Shares L comm p) (hd : d < L.jobs.length)
    (hturn : s.turnAt d i = .ok none) : (L.workers d).length ≤ i :=
  List.getElem?_eq_none_iff.mp
    (Option.map_eq_none_iff.mp (Except.ok.inj ((h.turnAt_eq hd i).symm.trans hturn)))

/-- With an answer for the PMPI call this is the turn that the status of a transfer comes from. -/
theorem Transfer.turn_of_turnAt {α σ : Type} {t : Transfer α σ} {answers : ℕ → Answer α σ}
    {target : Job} {job i rank : ℕ} {ignored : Bool}
    (htarget : readAt t.process.jobList job = .ok target)
    (h : t.process.turnAt job i = .ok (some (rank, ignored))) :
    turn target answers t i =
      if ignored then .ok t
      else match (answers i).failure with
        | none => .ok ⟨t.process, true, (answers i).buffer, (answers i).status⟩
        | some acked => do
          let s ← t.process.noteFailures acked
          return ⟨s, false, (answers i).buffer, (answers i).status⟩ := by
  rw [Process.turnAt, htarget, except_ok_bind] at h
  split at h
  next =>
    obtain ⟨r, hr, h⟩ := except_bind_eq_ok.mp h
    obtain ⟨v, hv, h⟩ := except_bind_eq_ok.mp h
    obtain ⟨rfl, rfl⟩ := Prod.mk.inj (Option.some_inj.mp (Except.ok.inj h))
    rw [turn, hr, except_ok_bind, hv, except_ok_bind]
    by_cases hmark : v = 1
    · rw [if_pos hmark, decide_eq_true hmark]
      rfl
    · rw [if_neg hmark, decide_eq_false hmark]
      rfl
  next => exact absurd (Except.ok.inj h) (by simp)

/-! ## Replicas -/

/-- Where a worker stands: between two calls, or before turn `i` of one. -/
inductive Phase (J : ℕ) (α σ : Type*)
  | running (state : σ)
  | sending (dest : Fin J) (tag : UserTag) (buf : α) (i : ℕ) (next : σ)
  | receiving (source : Fin J) (tag : UserTag) (buf : α) (i : ℕ) (next : α → σ)

/-- A receive of `MPI_Irecv` that has not been waited for. A buffer has room for one message, which
is one element here, without gaps. -/
structure Pending (α : Type) where
  agg : AggregateRequest
  memory : AsyncMemory α
  tag : UserTag
  /-- How many receives had been posted before, by sender and PMPI tag. -/
  before : ℕ × ℤ → ℕ

/-- A worker: how many receives it has posted for every rank and PMPI tag, the receives behind its
requests, and what it has got so far. -/
structure Replica (J : ℕ) (α : Type) (σ : Type*) where
  process : Process
  phase : Phase J α σ
  posted : ℕ × ℤ → ℕ
  requests : ℕ → Option (Pending α)
  received : List α

/-- The replicas by rank, the processes that have died, and the messages that were sent between two
ranks under a PMPI tag. -/
structure FaultyConfig (J : ℕ) (α : Type) (σ : Type*) where
  replica : ℕ → Replica J α σ
  failed : ℕ → Bool
  channel : ℕ × ℕ × ℤ → List α

/-- The message of rank `q` that rank `p` waits for. -/
def Pending.message {α : Type} (pending : Pending α) (channel : ℕ × ℕ × ℤ → List α) (p q : ℕ) :
    Option α :=
  (channel (q, p, setTag q pending.tag))[pending.before (q, setTag q pending.tag)]?

/-- What a `PMPI_Recv` that fails leaves in the buffer. If its message has not arrived, it is as it
was. -/
def leavesBehind {α : Type*} (torn : α → α → α → Prop) (message : Option α) (buf buf' : α) : Prop :=
  match message with
  | none => buf' = buf
  | some a => torn buf a buf'

/-- The memory of a receive whose buffer holds `buf`. -/
def AsyncMemory.holding {α : Type} (buf : α) : AsyncMemory α :=
  ⟨fun _ ↦ buf, fun _ ↦ buf, fun _ ↦ 0, 0⟩

namespace World

variable {J : ℕ} {α : Type} {σ : Type*} (w : World) (call : σ → AsyncCall J α σ)
  (torn : α → α → α → Prop)

/-- The dead that `rep_errhandler` acknowledges when a call with rank `q` fails. -/
structure Acks (failed : ℕ → Bool) (q : ℕ) (acked : Group) : Prop where
  mem : w.procAt q ∈ acked
  failed : ∀ dead ∈ acked, failed dead = true

/-- `PMPI_Waitall` comes back to the process at rank `p`: every message has arrived, or its sender
has died and the handler knows it. -/
structure Completes (failed : ℕ → Bool) (channel : ℕ × ℕ × ℤ → List α) (p : ℕ) (pending : Pending α)
    (completion : ℕ → Completion α) (noted : List Group) : Prop where
  request : ∀ k q : ℕ, pending.agg.reqArray[k]? = some (some q) →
    (∃ a, completion k = .arrived [a] ∧ pending.message channel p q = some a) ∨
    ∃ source left, completion k = .failed source left ∧ ∃ acked ∈ noted, w.procAt q ∈ acked
  failed : ∀ acked ∈ noted, ∀ dead ∈ acked, failed dead = true

/-- What the process at rank `p` does next, once the processes `failed` have died. -/
inductive Does (failed : ℕ → Bool) (channel : ℕ × ℕ × ℤ → List α) (p : ℕ) (r : Replica J α σ) :
    Replica J α σ → (ℕ × ℕ × ℤ → List α) → Prop
  | beginSend {state dest tag buf next} (hphase : r.phase = .running state)
      (hcall : call state = .send dest tag buf next) :
      Does failed channel p r { r with phase := .sending dest tag buf 0 next } channel
  | beginRecv {state source tag buf next} (hphase : r.phase = .running state)
      (hcall : call state = .recv source tag buf next) :
      Does failed channel p r { r with phase := .receiving source tag buf 0 next } channel
  | skipSend {dest tag buf i next q} (hphase : r.phase = .sending dest tag buf i next)
      (hturn : r.process.turnAt dest i = .ok (some (q, true))) :
      Does failed channel p r { r with phase := .sending dest tag buf (i + 1) next } channel
  | skipRecv {source tag buf i next q} (hphase : r.phase = .receiving source tag buf i next)
      (hturn : r.process.turnAt source i = .ok (some (q, true))) :
      Does failed channel p r { r with phase := .receiving source tag buf (i + 1) next } channel
  | send {dest tag buf i next q} (hphase : r.phase = .sending dest tag buf i next)
      (hturn : r.process.turnAt dest i = .ok (some (q, false))) :
      Does failed channel p r { r with phase := .sending dest tag buf (i + 1) next }
        (Function.update channel (p, q, setTag r.process.node.rank tag)
          (channel (p, q, setTag r.process.node.rank tag) ++ [buf]))
  | sendFails {s dest tag buf i next q acked} (hphase : r.phase = .sending dest tag buf i next)
      (hturn : r.process.turnAt dest i = .ok (some (q, false)))
      (hdead : failed (w.procAt q) = true) (hacked : w.Acks failed q acked)
      (hnote : r.process.noteFailures acked = .ok s) :
      Does failed channel p r { r with process := s, phase := .sending dest tag buf (i + 1) next }
        channel
  | recv {source} {tag : UserTag} {buf i next q a}
      (hphase : r.phase = .receiving source tag buf i next)
      (hturn : r.process.turnAt source i = .ok (some (q, false)))
      (hmessage : (channel (q, p, setTag q tag))[r.posted (q, setTag q tag)]? = some a) :
      Does failed channel p r
        { r with phase := .receiving source tag a (i + 1) next,
                 posted := post r.posted (q, setTag q tag) } channel
  | recvFails {s source} {tag : UserTag} {buf buf' i next q acked}
      (hphase : r.phase = .receiving source tag buf i next)
      (hturn : r.process.turnAt source i = .ok (some (q, false)))
      (hdead : failed (w.procAt q) = true) (hacked : w.Acks failed q acked)
      (hnote : r.process.noteFailures acked = .ok s)
      (hbuf : leavesBehind torn
        (channel (q, p, setTag q tag))[r.posted (q, setTag q tag)]? buf buf') :
      Does failed channel p r
        { r with process := s, phase := .receiving source tag buf' (i + 1) next } channel
  | sendReturns {dest tag buf i next} (hphase : r.phase = .sending dest tag buf i next)
      (hturn : r.process.turnAt dest i = .ok none) :
      Does failed channel p r { r with phase := .running next } channel
  | recvReturns {source tag buf i next} (hphase : r.phase = .receiving source tag buf i next)
      (hturn : r.process.turnAt source i = .ok none) :
      Does failed channel p r
        { r with phase := .running (next buf), received := r.received ++ [buf] } channel
  | irecv {state s source tag buf request next agg memory} {garbage : ℕ → α}
      {failures : ℕ → List Group} (hphase : r.phase = .running state)
      (hcall : call state = .irecv source tag buf request next)
      (hacked : ∀ i, ∀ acked ∈ failures i, ∃ q, w.Acks failed q acked)
      (hirecv : AggregateRequest.mpiIrecv r.process (.holding buf) source (.ofBytes 1) 1
        garbage failures = .ok (s, agg, memory)) :
      Does failed channel p r
        { r with
          process := s
          phase := .running next
          posted := fun c ↦ r.posted c + (agg.channels tag).count c
          requests := Function.update r.requests request (some ⟨agg, memory, tag, r.posted⟩) }
        channel
  | wait {state request next pending} {completion : ℕ → Completion α} {noted : List Group} {waited}
      (hphase : r.phase = .running state) (hcall : call state = .wait request next)
      (hpending : r.requests request = some pending)
      (hcompletes : w.Completes failed channel p pending completion noted)
      (hwait : mpiWait pending.agg r.process pending.memory completion noted = .ok waited) :
      Does failed channel p r
        { r with
          process := waited.process
          phase := .running (next (waited.memory.originalBuffer 0))
          requests := Function.update r.requests request none
          received := r.received ++ [waited.memory.originalBuffer 0] }
        channel

/-- A process dies, or one that lives goes on. -/
inductive FaultyStep (x : FaultyConfig J α σ) : FaultyConfig J α σ → Prop
  | dies {p : ℕ} (hp : p < w.comm.length) (hlive : x.failed (w.procAt p) = false) :
      FaultyStep x { x with failed := Function.update x.failed (w.procAt p) true }
  | goesOn {p : ℕ} {r : Replica J α σ} {channel : ℕ × ℕ × ℤ → List α} (hp : p < w.comm.length)
      (hlive : x.failed (w.procAt p) = false)
      (hdoes : w.Does call torn x.failed x.channel p (x.replica p) r channel) :
      FaultyStep x { x with replica := Function.update x.replica p r, channel := channel }

/-- A worker that has done nothing yet. -/
def freshReplica (p : ℕ) (state : σ) : Replica J α σ :=
  ⟨w.proc (w.procAt p), .running state, fun _ ↦ 0, fun _ ↦ none, []⟩

/-- Every worker starts the program of its job, and everybody lives. -/
def faultyInitial (program : AsyncProgram J α σ) : FaultyConfig J α σ where
  replica p := w.freshReplica p (program.start (w.node (w.procAt p)).jobId.toNat)
  failed _ := false
  channel _ := []

end World

end EntangledMPI
