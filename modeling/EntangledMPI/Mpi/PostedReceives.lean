import EntangledMPI.Library.Streams
import EntangledMPI.Mpi.PointToPoint

/-!
# Receives that are posted

Besides `MPI_Send` and `MPI_Recv` a program may call `MPI_Irecv`, which posts a receive and returns,
and `MPI_Wait`, which waits for it. PMPI gives the messages of one source, destination and tag to
the receives in the order in which these are posted, whenever the messages arrive and whenever
somebody waits. So a receive is as good as its number: it gets the message with that number.

`plain` is plain MPI for such programs. The messages of a source, destination and tag are a stream,
and a receive reads it at the number that was given to it when it was posted.
-/

namespace EntangledMPI

open Streams

/-- The next call of a program among `J` jobs. `request` is the variable the program passes to
`MPI_Irecv` and `MPI_Wait`, and `buf` is what the buffer holds at the call. -/
inductive AsyncCall (J : ℕ) (α σ : Type*)
  | send (dest : Fin J) (tag : UserTag) (buf : α) (next : σ)
  | recv (source : Fin J) (tag : UserTag) (buf : α) (next : α → σ)
  | irecv (source : Fin J) (tag : UserTag) (buf : α) (request : ℕ) (next : σ)
  | wait (request : ℕ) (next : α → σ)
  | finalize

/-- A deterministic program; `start` may depend on the job, as `MPI_Comm_rank` returns its id. -/
structure AsyncProgram (J : ℕ) (α σ : Type*) where
  start : ℕ → σ
  call : σ → AsyncCall J α σ

/-- The state of a job on plain MPI: how many receives it has posted for each source and tag, the
source, the tag and the number that belong to each request, and what its receives have got so
far. -/
structure AsyncJob (J : ℕ) (α σ : Type*) where
  state : σ
  posted : Fin J × UserTag → ℕ
  requests : ℕ → Option (Fin J × UserTag × ℕ)
  received : List α

/-- Who sends to whom, under which tag. -/
abbrev Channel (J : ℕ) := Fin J × Fin J × UserTag

abbrev AsyncConfig (J : ℕ) (α σ : Type*) := Config (Fin J) (Channel J) α (AsyncJob J α σ)

/-- One receive more. -/
def post {κ : Type*} [DecidableEq κ] (posted : κ → ℕ) (c : κ) : κ → ℕ :=
  Function.update posted c (posted c + 1)

theorem post_self {κ : Type*} [DecidableEq κ] (posted : κ → ℕ) (c : κ) :
    post posted c c = posted c + 1 := Function.update_self ..

theorem post_of_ne {κ : Type*} [DecidableEq κ] (posted : κ → ℕ) {c c' : κ} (h : c' ≠ c) :
    post posted c c' = posted c' := Function.update_of_ne h ..

namespace AsyncProgram

variable {J : ℕ} {α σ : Type*} (program : AsyncProgram J α σ)

def plainAct (job : Fin J) (s : AsyncJob J α σ) : Action (Channel J) α (AsyncJob J α σ) :=
  match program.call s.state with
  | .send dest tag buf next => .write (job, dest, tag) buf { s with state := next }
  | .recv source tag _ next =>
    .read (source, job, tag) (s.posted (source, tag)) fun a ↦
      ⟨next a, post s.posted (source, tag), s.requests, s.received ++ [a]⟩
  | .irecv source tag _ request next =>
    .internal ⟨next, post s.posted (source, tag),
      Function.update s.requests request (some (source, tag, s.posted (source, tag))), s.received⟩
  | .wait request next =>
    match s.requests request with
    | some (source, tag, k) =>
      .read (source, job, tag) k fun a ↦
        ⟨next a, s.posted, Function.update s.requests request none, s.received ++ [a]⟩
    | none => .halt
  | .finalize => .halt

/-- Plain MPI: one process for each job. -/
def plain : Network (Fin J) (Channel J) α (AsyncJob J α σ) where
  act := program.plainAct
  writer c := c.1
  writer_eq {i s c a t} h := by
    rw [plainAct] at h
    split at h
    · exact congrArg Prod.fst (Action.write.inj h).1.symm
    · exact absurd h (by simp)
    · exact absurd h (by simp)
    · split at h
      · exact absurd h (by simp)
      · exact absurd h (by simp)
    · exact absurd h (by simp)

def plainInitial : AsyncConfig J α σ :=
  ⟨fun job ↦ ⟨program.start job, fun _ ↦ 0, fun _ ↦ none, []⟩, fun _ ↦ []⟩

section

variable {program : AsyncProgram J α σ} {d dest source : Fin J} {tag : UserTag} {buf a : α}
  {s : AsyncJob J α σ}

theorem act_recv {next : α → σ} (hcall : program.call s.state = .recv source tag buf next) :
    program.plain.act d s = .read (source, d, tag) (s.posted (source, tag)) fun a ↦
      ⟨next a, post s.posted (source, tag), s.requests, s.received ++ [a]⟩ := by
  change program.plainAct d s = _
  rw [plainAct, hcall]

theorem act_wait {request k : ℕ} {next : α → σ}
    (hcall : program.call s.state = .wait request next)
    (hrequest : s.requests request = some (source, tag, k)) :
    program.plain.act d s = .read (source, d, tag) k fun a ↦
      ⟨next a, s.posted, Function.update s.requests request none, s.received ++ [a]⟩ := by
  change program.plainAct d s = _
  rw [plainAct, hcall]
  simp only [hrequest]

theorem allows_send {next : σ} (hcall : program.call s.state = .send dest tag buf next) :
    (program.plain.act d s).Allows (.write (d, dest, tag) buf) { s with state := next } := by
  change (program.plainAct d s).Allows _ _
  rw [plainAct, hcall]
  exact .write

theorem allows_recv {next : α → σ} (hcall : program.call s.state = .recv source tag buf next) :
    (program.plain.act d s).Allows (.read (source, d, tag) (s.posted (source, tag)) a)
      ⟨next a, post s.posted (source, tag), s.requests, s.received ++ [a]⟩ := by
  rw [act_recv hcall]
  exact .read

theorem allows_irecv {request : ℕ} {next : σ}
    (hcall : program.call s.state = .irecv source tag buf request next) :
    (program.plain.act d s).Allows .internal ⟨next, post s.posted (source, tag),
      Function.update s.requests request (some (source, tag, s.posted (source, tag))),
      s.received⟩ := by
  change (program.plainAct d s).Allows _ _
  rw [plainAct, hcall]
  exact .internal

theorem allows_wait {request k : ℕ} {next : α → σ}
    (hcall : program.call s.state = .wait request next)
    (hrequest : s.requests request = some (source, tag, k)) :
    (program.plain.act d s).Allows (.read (source, d, tag) k a)
      ⟨next a, s.posted, Function.update s.requests request none, s.received ++ [a]⟩ := by
  rw [act_wait hcall hrequest]
  exact .read

theorem act_finalize (hcall : program.call s.state = .finalize) :
    program.plain.act d s = .halt := by
  change program.plainAct d s = _
  rw [plainAct, hcall]

theorem act_wait_none {request : ℕ} {next : α → σ}
    (hcall : program.call s.state = .wait request next) (hrequest : s.requests request = none) :
    program.plain.act d s = .halt := by
  change program.plainAct d s = _
  rw [plainAct, hcall]
  simp only [hrequest]

end

end AsyncProgram

end EntangledMPI
