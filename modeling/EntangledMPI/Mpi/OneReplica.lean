import EntangledMPI.Mpi.FaultyTransfers
import EntangledMPI.Mpi.ReplicatedRuns

/-!
# One replica and the history of its job

A replica goes through what its job does on plain MPI, one call after the other. Between two calls
it is where the job is at some point. In a call it is ahead of that point, or behind it, by what the
turns so far have sent, and posted.

`World.Tracks` says so: the replica has gone through a part of the history that its job has in some
run on plain MPI. There is one lemma for each thing a process does, and each of them leaves that run
as it is, or a longer one.
-/

namespace EntangledMPI

open Streams

variable {α : Type} {σ : Type*}

/-- What a job does on plain MPI. -/
abbrev History (J : ℕ) (α : Type) := List (Event (Channel J) α)

/-! ## A call that is under way -/

namespace Phase

variable {J n : ℕ} (L : Layout n)

/-- What an `MPI_Send` that is under way has already sent to worker `p` of job `dest`. -/
def underway (dest : Fin J) (tag : UserTag) (p : ℕ) : Phase J α σ → List α
  | .sending dest' tag' buf i _ =>
    if dest' = dest ∧ tag' = tag ∧ p ∈ (L.workers dest').take i then [buf] else []
  | _ => []

/-- How many receives an `MPI_Recv` that is under way has made from worker `q` of job `source`. -/
def passed (source : Fin J) (tag : UserTag) (q : ℕ) : Phase J α σ → ℕ
  | .receiving source' tag' _ i _ =>
    if source' = source ∧ tag' = tag ∧ q ∈ (L.workers source').take i then 1 else 0
  | _ => 0

/-- The call has begun at `state`, or `state` is between two calls. -/
def InCall (program : AsyncProgram J α σ) (state : σ) : Phase J α σ → Prop
  | .running state' => state' = state
  | .sending dest tag buf _ next => program.call state = .send dest tag buf next
  | .receiving source tag _ _ next => ∃ buf, program.call state = .recv source tag buf next

/-- What the job has done on plain MPI when a worker begins to do it. -/
def started (d : Fin J) : Phase J α σ → History J α
  | .sending dest tag buf _ _ => [.write (d, dest, tag) buf]
  | _ => []

/-- The buffer of an `MPI_Recv` holds its message once that has come from somebody who is not
ignored. -/
def Holds (s : Process) (message : Fin J → UserTag → Option α) : Phase J α σ → Prop
  | .receiving source tag buf i _ =>
    ∀ q ∈ (L.workers source).take i, s.rankIgnoreList.entry q ≠ 1 →
      message source tag = some buf
  | _ => True

/-- The turns of the call that is under way. -/
def turns (n : ℕ) : Phase J α σ → ℕ
  | .running _ => 0
  | .sending _ _ _ i _ => min i n + 1
  | .receiving _ _ _ i _ => min i n + 1

end Phase

/-- A call has at most `n + 1` turns, so the next one counts `n + 2`. -/
def turnsMade {J : ℕ} (n : ℕ) (g : History J α) (phase : Phase J α σ) : ℕ :=
  (n + 2) * g.length + phase.turns n

theorem turnsMade_le {J : ℕ} (n : ℕ) (g : History J α) (phase : Phase J α σ) :
    turnsMade n g phase ≤ (n + 2) * (g.length + 1) := by
  have hturns : phase.turns n ≤ n + 2 := by
    match phase with
    | .running _ => exact Nat.zero_le _
    | .sending .. => exact Nat.succ_le_succ ((min_le_right _ _).trans n.le_succ)
    | .receiving .. => exact Nat.succ_le_succ ((min_le_right _ _).trans n.le_succ)
  rw [turnsMade, Nat.mul_succ]
  exact Nat.add_le_add_left hturns _

/-- A call that returns counts more than all its turns. -/
theorem turnsMade_concat {J n : ℕ} (g : History J α) (e : Event (Channel J) α) (phase : Phase J α σ)
    {state : σ} : turnsMade n g phase < turnsMade n (g ++ [e]) (.running state : Phase J α σ) := by
  have hturns : phase.turns n < n + 2 := by
    match phase with
    | .running _ => exact Nat.succ_pos _
    | .sending .. => exact Nat.succ_lt_succ (Nat.lt_succ_of_le (min_le_right _ _))
    | .receiving .. => exact Nat.succ_lt_succ (Nat.lt_succ_of_le (min_le_right _ _))
  rw [turnsMade, turnsMade, List.length_append, List.length_singleton, Nat.mul_succ]
  exact (Nat.add_lt_add_left hturns _).trans_le (Nat.le_add_right _ _)

theorem Layout.length_workers_le {n : ℕ} (L : Layout n) (d : ℕ) : (L.workers d).length ≤ n := by
  have hsub : L.workers d ⊆ List.range n := fun r hr ↦
    List.mem_range.mpr (Layout.lt_of_mem_workers hr)
  exact ((L.nodup_workers d).subperm hsub).length_le.trans_eq List.length_range

theorem Layout.min_lt_min_succ {n : ℕ} (L : Layout n) {d i q : ℕ}
    (hq : (L.workers d)[i]? = some q) : min i n + 1 < min (i + 1) n + 1 := by
  have hlt := (List.getElem?_eq_some_iff.mp hq).1.trans_le (L.length_workers_le d)
  omega

section

variable {J n : ℕ} (L : Layout n)

/-- What a worker of job `d` with the history `g` has sent to worker `p` of job `dest`. -/
def pushed (d dest : Fin J) (tag : UserTag) (p : ℕ) (g : History J α) (phase : Phase J α σ) :
    List α :=
  written (d, dest, tag) g ++ phase.underway L dest tag p

variable {L} {d dest source : Fin J} {tag : UserTag} {p q i : ℕ} {g : History J α} {buf a : α}

/-- A worker is ahead of its history by the call that is under way, at most. -/
theorem pushed_le_started (phase : Phase J α σ) :
    pushed L d dest tag p g phase <+: written (d, dest, tag) (g ++ phase.started d) := by
  rw [pushed, written_append, List.prefix_append_right_inj]
  match phase with
  | .running _ => exact List.nil_prefix
  | .receiving .. => exact List.nil_prefix
  | .sending dest' tag' buf i next =>
    simp only [Phase.underway, Phase.started]
    split
    next h => rw [h.1, h.2.1, written_write_self]
    next => exact List.nil_prefix

theorem mem_take_succ {l : List ℕ} (hq : l[i]? = some q) (p : ℕ) :
    p ∈ l.take (i + 1) ↔ p ∈ l.take i ∨ p = q := by
  rw [List.take_add_one, List.mem_append, hq, Option.toList_some, List.mem_singleton]

theorem notMem_take {l : List ℕ} (hl : l.Nodup) (hq : l[i]? = some q) : q ∉ l.take i := by
  intro hmem
  obtain ⟨k, hk⟩ := List.mem_iff_getElem?.mp hmem
  rw [List.getElem?_take] at hk
  split at hk
  next hlt =>
    have hi := (List.getElem?_eq_some_iff.mp hq).1
    exact absurd ((List.getElem?_inj hi hl).mp (hq.trans hk.symm)) (Nat.ne_of_gt hlt)
  next => exact absurd hk (by simp)

theorem pushed_turn (hq : (L.workers dest)[i]? = some q) {next : σ} {dest' : Fin J}
    {tag' : UserTag} (h : ¬(dest' = dest ∧ tag' = tag ∧ p = q)) :
    pushed L d dest' tag' p g (.sending dest tag buf (i + 1) next)
      = pushed L d dest' tag' p g (.sending dest tag buf i next) := by
  have hiff : (dest = dest' ∧ tag = tag' ∧ p ∈ (L.workers dest).take (i + 1)) ↔
      (dest = dest' ∧ tag = tag' ∧ p ∈ (L.workers dest).take i) := by
    rw [mem_take_succ hq]
    grind
  simp only [pushed, Phase.underway, hiff]

theorem pushed_turn_self (hq : (L.workers dest)[i]? = some q) {next : σ} :
    pushed L d dest tag q g (.sending dest tag buf (i + 1) next)
      = pushed L d dest tag q g (.sending dest tag buf i next) ++ [buf] := by
  have hnot := notMem_take (L.nodup_workers dest) hq
  have hmem := (mem_take_succ hq q).mpr (Or.inr rfl)
  simp only [pushed, Phase.underway, hnot, hmem, and_false, and_self, ↓reduceIte, List.append_nil]

@[simp] theorem pushed_running (state : σ) : pushed L d dest tag p g (.running state)
    = written (d, dest, tag) g := List.append_nil _

@[simp] theorem pushed_receiving {tag' : UserTag} {next : α → σ} :
    pushed L d dest tag p g (.receiving source tag' buf i next) = written (d, dest, tag) g :=
  List.append_nil _

@[simp] theorem pushed_zero {dest' : Fin J} {tag' : UserTag} {next : σ} :
    pushed L d dest tag p g (.sending dest' tag' buf 0 next) = written (d, dest, tag) g := by
  simp [pushed, Phase.underway]

theorem pushed_returns (hi : (L.workers dest).length ≤ i) {dest' : Fin J} (hp : p ∈ L.workers dest')
    {tag' : UserTag} {next : σ} :
    pushed L d dest' tag' p (g ++ [.write (d, dest, tag) buf]) (.running next)
      = pushed L d dest' tag' p g (.sending dest tag buf i next) := by
  rw [pushed_running, pushed, Phase.underway, written_append, List.take_of_length_le hi]
  congr 1
  split
  next h => rw [h.1, h.2.1, written_write_self]
  next h =>
    refine written_write_of_ne fun hc ↦ h ?_
    obtain ⟨hdest, htag⟩ := Prod.mk.inj (Prod.mk.inj hc).2
    exact ⟨hdest, htag, by rwa [hdest]⟩

/-! ## Receives that an `MPI_Recv` has made -/

namespace Phase

theorem passed_turn (hq : (L.workers source)[i]? = some q) {next : α → σ} {source' : Fin J}
    {tag' : UserTag} (h : ¬(source' = source ∧ tag' = tag ∧ p = q)) :
    passed L source' tag' p (.receiving source tag a (i + 1) next)
      = passed L source' tag' p (.receiving source tag buf i next) := by
  have hiff : (source = source' ∧ tag = tag' ∧ p ∈ (L.workers source).take (i + 1)) ↔
      (source = source' ∧ tag = tag' ∧ p ∈ (L.workers source).take i) := by
    rw [mem_take_succ hq]
    grind
  simp only [passed, hiff]

theorem passed_of_next (hq : (L.workers source)[i]? = some q) {next : α → σ} :
    passed L source tag q (.receiving source tag buf i next) = 0 := by
  have hnot := notMem_take (L.nodup_workers source) hq
  simp only [passed, hnot, and_false, ↓reduceIte]

theorem passed_turn_self (hq : (L.workers source)[i]? = some q) {next : α → σ} :
    passed L source tag q (.receiving source tag a (i + 1) next) = 1 := by
  have hmem := (mem_take_succ hq q).mpr (Or.inr rfl)
  simp only [passed, hmem, and_self, ↓reduceIte]

@[simp] theorem passed_zero {source' : Fin J} {tag' : UserTag} {next : α → σ} :
    passed L source tag q (.receiving source' tag' buf 0 next) = 0 := by
  simp [passed]

theorem passed_returns (hi : (L.workers source).length ≤ i) {source' : Fin J}
    (hq : q ∈ L.workers source') {tag' : UserTag} {next : α → σ} :
    passed L source' tag' q (.receiving source tag buf i next)
      = if (source', tag') = (source, tag) then 1 else 0 := by
  rw [passed, List.take_of_length_le hi]
  refine if_congr ⟨fun h ↦ by rw [h.1, h.2.1], fun h ↦ ?_⟩ rfl rfl
  obtain ⟨rfl, rfl⟩ := Prod.mk.inj h
  exact ⟨rfl, rfl, hq⟩

end Phase

theorem post_apply {κ : Type*} [DecidableEq κ] (posted : κ → ℕ) (c c' : κ) :
    post posted c c' = posted c' + if c' = c then 1 else 0 := by
  by_cases h : c' = c
  · rw [if_pos h, h, post_self]
  · rw [if_neg h, post_of_ne _ h, Nat.add_zero]

end

/-! ## A receive that is pending -/

/-- The pending receive is for the request of plain MPI with this source, tag and number. -/
structure Pending.Serves {J n : ℕ} (L : Layout n) (s : Process) (pending : Pending α)
    (request : Fin J × UserTag × ℕ) : Prop where
  tag : pending.tag = request.2.1
  posted : pending.agg.Posted (L.workers request.1).length (.ofBytes 1) 1
  allocated : pending.agg.Allocated pending.memory
  covers : pending.agg.Covers (L.workers request.1) s
  before : ∀ q ∈ L.workers request.1, s.rankIgnoreList.entry q ≠ 1 →
    pending.before (q, setTag q pending.tag) = request.2.2

theorem Pending.Serves.mono {J n : ℕ} {L : Layout n} {s s' : Process} {pending : Pending α}
    {request : Fin J × UserTag × ℕ} (h : pending.Serves L s request)
    (hmarked : ∀ q, s.rankIgnoreList.entry q = 1 → s'.rankIgnoreList.entry q = 1) :
    pending.Serves L s' request where
  tag := h.tag
  posted := h.posted
  allocated := h.allocated
  covers := h.covers.mono hmarked
  before q hq hunmarked := h.before q hq fun hmark ↦ hunmarked (hmarked q hmark)

theorem Pending.serves_mono {J n : ℕ} {L : Layout n} {s s' : Process}
    {pending : Option (Pending α)} {request : Option (Fin J × UserTag × ℕ)}
    (h : Option.Rel (Serves L s) pending request)
    (hmarked : ∀ q, s.rankIgnoreList.entry q = 1 → s'.rankIgnoreList.entry q = 1) :
    Option.Rel (Serves L s') pending request := by
  obtain hserves | _ := h
  · exact .some (hserves.mono hmarked)
  · exact .none

theorem Pending.exists_serves {J n : ℕ} {L : Layout n} {s : Process} {pending : Pending α}
    {request : Option (Fin J × UserTag × ℕ)}
    (h : Option.Rel (Serves L s) (some pending) request) :
    ∃ source k, request = some (source, pending.tag, k) ∧
      pending.Serves L s (source, pending.tag, k) := by
  obtain @⟨_, ⟨source, tag, k⟩, hserves⟩ := h
  obtain rfl : pending.tag = tag := hserves.tag
  exact ⟨source, k, rfl, hserves⟩

/-! ## One replica -/

section

variable {w : World} {L : Layout w.comm.length} {program : AsyncProgram L.jobs.length α σ}
  {failed : ℕ → Bool} {channel : ℕ × ℕ × ℤ → List α} {torn : α → α → α → Prop}
  {h h' : Fin L.jobs.length → History L.jobs.length α} {d source dest : Fin L.jobs.length}
  {p q i : ℕ} {g : History L.jobs.length α} {r r' : Replica L.jobs.length α σ}
  {s : AsyncJob L.jobs.length α σ} {tag : UserTag} {buf : α}

/-- What plain MPI has for the next receive of job `d` in the state `s`. -/
def nextMessage {J : ℕ} (h : Fin J → History J α) (d : Fin J) (s : AsyncJob J α σ) (source : Fin J)
    (tag : UserTag) : Option α :=
  (written (source, d, tag) (h source))[s.posted (source, tag)]?

/-- The replica of job `d` at rank `p` has gone through the part `g` of what its job does in `h`,
and the job is in the state `s` there. -/
structure World.Tracks (w : World) (L : Layout w.comm.length)
    (program : AsyncProgram L.jobs.length α σ) (failed : ℕ → Bool)
    (h : Fin L.jobs.length → History L.jobs.length α) (d : Fin L.jobs.length) (p : ℕ)
    (g : History L.jobs.length α) (r : Replica L.jobs.length α σ)
    (s : AsyncJob L.jobs.length α σ) : Prop where
  knows : w.Knows L failed p r.process
  follows : program.plain.Follows d (program.plainInitial.state d) g s
  received : r.received = s.received
  call : r.phase.InCall program s.state
  begun : g ++ r.phase.started d <+: h d
  /-- It has posted as many receives for everybody who is not ignored. -/
  posted : ∀ source : Fin L.jobs.length, ∀ q ∈ L.workers source,
    r.process.rankIgnoreList.entry q ≠ 1 → ∀ tag : UserTag,
      r.posted (q, setTag q tag) = s.posted (source, tag) + r.phase.passed L source tag q
  buffer : r.phase.Holds L r.process (nextMessage h d s)
  requests : ∀ request, Option.Rel (Pending.Serves L r.process) (r.requests request)
    (s.requests request)

/-- What a replica does that sends nothing to those that live: it gets further in some run on plain
MPI. -/
def World.Advances (w : World) (L : Layout w.comm.length)
    (program : AsyncProgram L.jobs.length α σ) (failed : ℕ → Bool)
    (h : Fin L.jobs.length → History L.jobs.length α) (d : Fin L.jobs.length) (p : ℕ)
    (g : History L.jobs.length α) (r r' : Replica L.jobs.length α σ) : Prop :=
  ∃ g' h' s', program.plain.Reached program.plainInitial.state h' ∧ (∀ k, h k <+: h' k) ∧
    w.Tracks L program failed h' d p g' r' s' ∧
    (∀ dest : Fin L.jobs.length, ∀ q ∈ L.workers dest, failed (w.procAt q) = false → ∀ tag,
      pushed L d dest tag q g' r'.phase = pushed L d dest tag q g r.phase) ∧
    turnsMade w.comm.length g r.phase < turnsMade w.comm.length g' r'.phase

namespace World.Tracks

theorem nextMessage_mono (hle : ∀ k, h k <+: h' k)
    (ha : nextMessage h d s source tag = some buf) : nextMessage h' d s source tag = some buf :=
  getElem?_written (hle source) ha

theorem holds_mono {phase : Phase L.jobs.length α σ} {process : Process} (hle : ∀ k, h k <+: h' k)
    (hbuffer : phase.Holds L process (nextMessage h d s)) :
    phase.Holds L process (nextMessage h' d s) := by
  match phase with
  | .running _ => trivial
  | .sending .. => trivial
  | .receiving .. => exact fun q hq hunmarked ↦ nextMessage_mono hle (hbuffer q hq hunmarked)

theorem mono (ht : w.Tracks L program failed h d p g r s) {failed' : ℕ → Bool}
    (hfailed : ∀ q, failed q = true → failed' q = true) (hle : ∀ k, h k <+: h' k) :
    w.Tracks L program failed' h' d p g r s where
  knows := ht.knows.mono hfailed
  follows := ht.follows
  received := ht.received
  call := ht.call
  begun := ht.begun.trans (hle d)
  posted := ht.posted
  buffer := holds_mono hle ht.buffer
  requests := ht.requests

theorem le_history (ht : w.Tracks L program failed h d p g r s) : g <+: h d :=
  (List.prefix_append _ _).trans ht.begun

/-- A replica has not sent more than its job has on plain MPI. -/
theorem pushed_le (ht : w.Tracks L program failed h d p g r s) (dest : Fin L.jobs.length)
    (tag : UserTag) (q : ℕ) : pushed L d dest tag q g r.phase <+: written (d, dest, tag) (h d) :=
  (pushed_le_started r.phase).trans (written_mono ht.begun)

/-- **A turn**, or the beginning of a call, leaves the job where it is. -/
theorem turn (ht : w.Tracks L program failed h d p g r s) (r' : Replica L.jobs.length α σ)
    (hlearns : w.Learns L failed p r.process r'.process) (hreceived : r'.received = r.received)
    (hrequests : r'.requests = r.requests) (hcall : r'.phase.InCall program s.state)
    (hbegun : g ++ r'.phase.started d <+: h d)
    (hposted : ∀ source : Fin L.jobs.length, ∀ q ∈ L.workers source,
      r'.process.rankIgnoreList.entry q ≠ 1 → ∀ tag : UserTag,
        r'.posted (q, setTag q tag) + r.phase.passed L source tag q
          = r.posted (q, setTag q tag) + r'.phase.passed L source tag q)
    (hbuffer : r'.phase.Holds L r'.process (nextMessage h d s)) :
    w.Tracks L program failed h d p g r' s where
  knows := hlearns.knows
  follows := ht.follows
  received := hreceived.trans ht.received
  call := hcall
  begun := hbegun
  posted source q hq hunmarked tag := by
    have hold := ht.posted source q hq (hlearns.unmarked hunmarked) tag
    have hnew := hposted source q hq hunmarked tag
    omega
  buffer := hbuffer
  requests request := by
    rw [hrequests]
    exact Pending.serves_mono (ht.requests request) hlearns.marked

theorem stays (ht : w.Tracks L program failed h d p g r' s)
    (hreached : program.plain.Reached program.plainInitial.state h)
    (hpushed : ∀ dest : Fin L.jobs.length, ∀ q ∈ L.workers dest, failed (w.procAt q) = false →
      ∀ tag, pushed L d dest tag q g r'.phase = pushed L d dest tag q g r.phase)
    (hturns : r.phase.turns w.comm.length < r'.phase.turns w.comm.length) :
    w.Advances L program failed h d p g r r' :=
  ⟨g, h, s, hreached, fun _ ↦ List.prefix_refl _, ht, hpushed, Nat.add_lt_add_left hturns _⟩

/-! ### Calls begin -/

theorem beginSend (ht : w.Tracks L program failed h d p g r s)
    (hreached : program.plain.Reached program.plainInitial.state h) {state next : σ}
    (hphase : r.phase = .running state) (hcall : program.call state = .send dest tag buf next) :
    w.Advances L program failed h d p g r { r with phase := .sending dest tag buf 0 next } := by
  obtain ⟨process, phase, posted, requests, got⟩ := r
  obtain rfl : phase = .running state := hphase
  obtain rfl : state = s.state := ht.call
  -- plain MPI may be behind: the job has to send there, too
  obtain ⟨h', hreached', hle, hext⟩ := hreached.extend ht.le_history ht.follows
    (AsyncProgram.allows_send hcall) fun _ _ _ hc ↦ nomatch hc
  refine ⟨g, h', s, hreached', hle, (ht.mono (fun _ ↦ id) hle).turn _ ht.knows.learns rfl rfl
    hcall hext (fun _ _ _ _ _ ↦ rfl) trivial, fun dest' q _ _ tag' ↦ ?_,
    Nat.add_lt_add_left (Nat.succ_pos _) _⟩
  rw [pushed_zero, pushed_running]

theorem beginRecv (ht : w.Tracks L program failed h d p g r s)
    (hreached : program.plain.Reached program.plainInitial.state h) {state : σ} {next : α → σ}
    (hphase : r.phase = .running state) (hcall : program.call state = .recv source tag buf next) :
    w.Advances L program failed h d p g r { r with phase := .receiving source tag buf 0 next } := by
  obtain ⟨process, phase, posted, requests, got⟩ := r
  obtain rfl : phase = .running state := hphase
  obtain rfl : state = s.state := ht.call
  refine (ht.turn ⟨process, .receiving source tag buf 0 next, posted, requests, got⟩
    ht.knows.learns rfl rfl ⟨buf, hcall⟩ ht.begun (fun source' q _ _ tag' ↦ ?_) ?_).stays hreached
    (fun dest' q _ _ tag' ↦ ?_) (Nat.succ_pos _)
  · rw [Phase.passed_zero]
    rfl
  · exact fun q hq ↦ absurd hq (by simp)
  · rw [pushed_receiving, pushed_running]

/-! ### Turns that make no call -/

theorem skipSend (ht : w.Tracks L program failed h d p g r s)
    (hreached : program.plain.Reached program.plainInitial.state h) {next : σ}
    (hphase : r.phase = .sending dest tag buf i next)
    (hturn : r.process.turnAt dest i = .ok (some (q, true))) :
    w.Advances L program failed h d p g r
      { r with phase := .sending dest tag buf (i + 1) next } := by
  obtain ⟨process, phase, posted, requests, got⟩ := r
  obtain rfl : phase = .sending dest tag buf i next := hphase
  obtain ⟨hq, hmark⟩ := ht.knows.shares.of_turnAt dest.isLt hturn
  refine (ht.turn ⟨process, .sending dest tag buf (i + 1) next, posted, requests, got⟩
    ht.knows.learns rfl rfl ht.call ht.begun (fun _ _ _ _ _ ↦ rfl) trivial).stays hreached
    (fun dest' q' hq' hlive tag' ↦ ?_) (L.min_lt_min_succ hq)
  -- only the dead are passed over
  refine pushed_turn hq fun hsame ↦ ?_
  exact ht.knows.unmarked (Layout.lt_of_mem_workers hq') hlive
    (hsame.2.2 ▸ of_decide_eq_true hmark.symm)

theorem skipRecv (ht : w.Tracks L program failed h d p g r s)
    (hreached : program.plain.Reached program.plainInitial.state h) {next : α → σ}
    (hphase : r.phase = .receiving source tag buf i next)
    (hturn : r.process.turnAt source i = .ok (some (q, true))) :
    w.Advances L program failed h d p g r
      { r with phase := .receiving source tag buf (i + 1) next } := by
  obtain ⟨process, phase, posted, requests, got⟩ := r
  obtain rfl : phase = .receiving source tag buf i next := hphase
  obtain ⟨hq, hmark⟩ := ht.knows.shares.of_turnAt source.isLt hturn
  have hother : ∀ q', process.rankIgnoreList.entry q' ≠ 1 → q' ≠ q := by
    rintro q' hunmarked rfl
    exact hunmarked (of_decide_eq_true hmark.symm)
  refine (ht.turn ⟨process, .receiving source tag buf (i + 1) next, posted, requests, got⟩
    ht.knows.learns rfl rfl ht.call ht.begun (fun source' q' _ hunmarked tag' ↦ ?_)
    (fun q' hq' hunmarked ↦ ?_)).stays hreached (fun dest' q' _ _ tag' ↦ ?_)
    (L.min_lt_min_succ hq)
  · rw [Phase.passed_turn hq fun hsame ↦ hother q' hunmarked hsame.2.2]
  · exact ht.buffer q' (((mem_take_succ hq q').mp hq').resolve_right (hother q' hunmarked))
      hunmarked
  · rw [pushed_receiving, pushed_receiving]

/-! ### Turns that fail -/

theorem sendFails (ht : w.Tracks L program failed h d p g r s)
    (hreached : program.plain.Reached program.plainInitial.state h) {next : σ} {process : Process}
    {acked : Group} (hphase : r.phase = .sending dest tag buf i next)
    (hturn : r.process.turnAt dest i = .ok (some (q, false))) (hdead : failed (w.procAt q) = true)
    (hacked : w.Acks failed q acked) (hnote : r.process.noteFailures acked = .ok process) :
    w.Advances L program failed h d p g r
      { r with process := process, phase := .sending dest tag buf (i + 1) next } := by
  obtain ⟨process', phase, posted, requests, got⟩ := r
  obtain rfl : phase = .sending dest tag buf i next := hphase
  obtain ⟨hq, -⟩ := ht.knows.shares.of_turnAt dest.isLt hturn
  have hlearns := (ht.knows.noteFailures (q := q) hacked.failed hnote).1
  refine (ht.turn ⟨process, .sending dest tag buf (i + 1) next, posted, requests, got⟩
    hlearns rfl rfl ht.call ht.begun (fun _ _ _ _ _ ↦ rfl) trivial).stays hreached
    (fun dest' q' _ hlive tag' ↦ ?_) (L.min_lt_min_succ hq)
  refine pushed_turn hq fun hsame ↦ ?_
  rw [hsame.2.2, hdead] at hlive
  exact absurd hlive (by simp)

/-- **A receive that fails** leaves the message in the buffer, if it is already there: whatever part
of the message the dead worker had sent is the same. -/
theorem recvFails (hw : w.FailureFree L) (ht : w.Tracks L program failed h d p g r s)
    (hreached : program.plain.Reached program.plainInitial.state h) {next : α → σ}
    {process : Process} {acked : Group} {buf' : α}
    (hphase : r.phase = .receiving source tag buf i next)
    (hturn : r.process.turnAt source i = .ok (some (q, false))) (hacked : w.Acks failed q acked)
    (hnote : r.process.noteFailures acked = .ok process)
    (hbuf : nextMessage h d s source tag = some buf → buf' = buf) :
    w.Advances L program failed h d p g r
      { r with process := process, phase := .receiving source tag buf' (i + 1) next } := by
  obtain ⟨process', phase, posted, requests, got⟩ := r
  obtain rfl : phase = .receiving source tag buf i next := hphase
  obtain ⟨hq, -⟩ := ht.knows.shares.of_turnAt source.isLt hturn
  obtain ⟨hlearns, hmarks⟩ := ht.knows.noteFailures (q := q) hacked.failed hnote
  have hmark := hmarks hw.nodup (Layout.lt_of_mem_workers (List.mem_of_getElem? hq)) hacked.mem
  have hother : ∀ q', process.rankIgnoreList.entry q' ≠ 1 → q' ≠ q := by
    rintro q' hunmarked rfl
    exact hunmarked hmark
  refine (ht.turn ⟨process, .receiving source tag buf' (i + 1) next, posted, requests, got⟩
    hlearns rfl rfl ht.call ht.begun (fun source' q' _ hunmarked tag' ↦ ?_)
    (fun q' hq' hunmarked ↦ ?_)).stays hreached (fun dest' q' _ _ tag' ↦ ?_)
    (L.min_lt_min_succ hq)
  · rw [Phase.passed_turn hq fun hsame ↦ hother q' hunmarked hsame.2.2]
  · have hmessage := ht.buffer q'
      (((mem_take_succ hq q').mp hq').resolve_right (hother q' hunmarked))
      (hlearns.unmarked hunmarked)
    rwa [hbuf hmessage]
  · rw [pushed_receiving, pushed_receiving]

/-! ### Turns that succeed -/

theorem send (ht : w.Tracks L program failed h d p g r s) {next : σ}
    (hphase : r.phase = .sending dest tag buf i next) :
    w.Tracks L program failed h d p g
      { r with phase := .sending dest tag buf (i + 1) next } s := by
  obtain ⟨process, phase, posted, requests, got⟩ := r
  obtain rfl : phase = .sending dest tag buf i next := hphase
  exact ht.turn _ ht.knows.learns rfl rfl ht.call ht.begun (fun _ _ _ _ _ ↦ rfl) trivial

theorem recv (ht : w.Tracks L program failed h d p g r s)
    (hreached : program.plain.Reached program.plainInitial.state h) {next : α → σ} {a : α}
    (hphase : r.phase = .receiving source tag buf i next)
    (hturn : r.process.turnAt source i = .ok (some (q, false)))
    (hmessage : nextMessage h d s source tag = some a) :
    w.Advances L program failed h d p g r
      { r with phase := .receiving source tag a (i + 1) next,
               posted := post r.posted (q, setTag q tag) } := by
  obtain ⟨process, phase, posted, requests, got⟩ := r
  obtain rfl : phase = .receiving source tag buf i next := hphase
  obtain ⟨hq, -⟩ := ht.knows.shares.of_turnAt source.isLt hturn
  refine (ht.turn ⟨process, .receiving source tag a (i + 1) next,
    post posted (q, setTag q tag), requests, got⟩ ht.knows.learns rfl rfl ht.call ht.begun
    (fun source' q' hq' _ tag' ↦ ?_) (fun _ _ _ ↦ hmessage)).stays hreached
    (fun dest' q' _ _ tag' ↦ ?_) (L.min_lt_min_succ hq)
  · by_cases hsame : source' = source ∧ tag' = tag ∧ q' = q
    · obtain ⟨rfl, rfl, rfl⟩ := hsame
      rw [Phase.passed_of_next hq, Phase.passed_turn_self hq]
      exact post_self posted _
    · rw [Phase.passed_turn hq hsame]
      refine congrArg (· + _) (post_of_ne posted fun hc ↦ hsame ?_)
      obtain ⟨rfl, htag⟩ := Prod.mk.inj hc
      exact ⟨Fin.ext (Layout.eq_of_mem_workers hq' (List.mem_of_getElem? hq)),
        setTag_injective _ htag, rfl⟩
  · rw [pushed_receiving, pushed_receiving]

/-! ### Calls return -/

theorem sendReturns (ht : w.Tracks L program failed h d p g r s)
    (hreached : program.plain.Reached program.plainInitial.state h) {next : σ}
    (hphase : r.phase = .sending dest tag buf i next)
    (hturn : r.process.turnAt dest i = .ok none) :
    w.Advances L program failed h d p g r { r with phase := .running next } := by
  obtain ⟨process, phase, posted, requests, got⟩ := r
  obtain rfl : phase = .sending dest tag buf i next := hphase
  have hi := ht.knows.shares.of_turnAt_none dest.isLt hturn
  have hallows := AsyncProgram.allows_send (d := d) ht.call
  have htracks : w.Tracks L program failed h d p (g ++ [.write (d, dest, tag) buf])
      ⟨process, .running next, posted, requests, got⟩ { s with state := next } :=
    ⟨ht.knows, ht.follows.concat hallows, ht.received, rfl,
      (List.append_nil _).symm ▸ ht.begun, ht.posted, trivial, ht.requests⟩
  exact ⟨_, h, _, hreached, fun _ ↦ List.prefix_refl _, htracks,
    fun dest' q hq _ tag' ↦ pushed_returns hi hq, turnsMade_concat _ _ _⟩

/-- **A receive returns** what the job gets on plain MPI: one of the workers it came from lives, and
the buffer still holds what that one has sent. -/
theorem recvReturns (ht : w.Tracks L program failed h d p g r s)
    (hreached : program.plain.Reached program.plainInitial.state h) {next : α → σ}
    (hphase : r.phase = .receiving source tag buf i next)
    (hturn : r.process.turnAt source i = .ok none) (hq : q ∈ L.workers source)
    (hlive : failed (w.procAt q) = false) :
    w.Advances L program failed h d p g r
      { r with phase := .running (next buf), received := r.received ++ [buf] } := by
  obtain ⟨process, phase, posted, requests, got⟩ := r
  obtain rfl : phase = .receiving source tag buf i next := hphase
  have hi := ht.knows.shares.of_turnAt_none source.isLt hturn
  have hmessage := ht.buffer q (by rwa [List.take_of_length_le hi])
    (ht.knows.unmarked (Layout.lt_of_mem_workers hq) hlive)
  obtain ⟨buf₀, hcall⟩ := ht.call
  have hallows := AsyncProgram.allows_recv (d := d) (a := buf) hcall
  obtain ⟨h', hreached', hle, hext⟩ := hreached.extend ht.le_history ht.follows hallows
    fun c k a hc ↦ by obtain ⟨rfl, rfl, rfl⟩ := Event.read.inj hc; exact hmessage
  refine ⟨_, h', _, hreached', hle, ⟨ht.knows, ht.follows.concat hallows,
    congrArg (· ++ [buf]) ht.received, rfl, (List.append_nil _).symm ▸ hext,
    fun source' q' hq' hunmarked tag' ↦ ?_, trivial, ht.requests⟩,
    fun dest' q' _ _ tag' ↦ ?_, turnsMade_concat _ _ _⟩
  · rw [ht.posted source' q' hq' hunmarked tag', Phase.passed_returns hi hq']
    exact (post_apply s.posted _ _).symm
  · rw [pushed_running, pushed_receiving, written_append, written_read, List.append_nil]

/-! ### Receives that are completed later -/

theorem irecv (ht : w.Tracks L program failed h d p g r s)
    (hreached : program.plain.Reached program.plainInitial.state h) {state next : σ} {request : ℕ}
    {process : Process} {agg : AggregateRequest} {memory : AsyncMemory α} {garbage : ℕ → α}
    {failures : ℕ → List Group} (hphase : r.phase = .running state)
    (hcall : program.call state = .irecv source tag buf request next)
    (hacked : ∀ i, ∀ acked ∈ failures i, ∃ q, w.Acks failed q acked)
    (hirecv : AggregateRequest.mpiIrecv r.process (.holding buf) source (.ofBytes 1) 1
      garbage failures = .ok (process, agg, memory)) :
    w.Advances L program failed h d p g r
      { r with
        process := process
        phase := .running next
        posted := fun c ↦ r.posted c + (agg.channels tag).count c
        requests := Function.update r.requests request (some ⟨agg, memory, tag, r.posted⟩) } := by
  obtain ⟨process', phase, posted, requests, got⟩ := r
  obtain rfl : phase = .running state := hphase
  obtain rfl : state = s.state := ht.call
  obtain ⟨hlearns, hposted, hallocated, hcovers⟩ := ht.knows.mpiIrecv
    (fun i acked hmem ↦ (hacked i acked hmem).choose_spec.failed) hirecv
  have hallows := AsyncProgram.allows_irecv (d := d) hcall
  obtain ⟨h', hreached', hle, hext⟩ := hreached.extend ht.le_history ht.follows hallows
    fun _ _ _ hc ↦ nomatch hc
  refine ⟨_, h', _, hreached', hle, ⟨hlearns.knows, ht.follows.concat hallows, ht.received, rfl,
    (List.append_nil _).symm ▸ hext, fun source' q hq hunmarked tag' ↦ ?_, trivial,
    fun request' ↦ ?_⟩, fun dest' q _ _ tag' ↦ ?_, turnsMade_concat _ _ _⟩
  · have hold : posted (q, setTag q tag') = s.posted (source', tag') :=
      ht.posted source' q hq (hlearns.unmarked hunmarked) tag'
    have hiff : (q ∈ L.workers source ∧ tag' = tag) ↔ (source', tag') = (source, tag) := by
      refine ⟨fun hsame ↦ ?_, fun hsame ↦ ?_⟩
      · rw [Fin.ext (Layout.eq_of_mem_workers hq hsame.1), hsame.2]
      · obtain ⟨rfl, rfl⟩ := Prod.mk.inj hsame
        exact ⟨hq, rfl⟩
    change posted _ + _ = post s.posted (source, tag) (source', tag')
    rw [hold, hcovers.count_channels (L.nodup_workers source) hunmarked, post_apply,
      if_congr hiff rfl rfl]
  · dsimp only
    by_cases hrequest : request' = request
    · subst hrequest
      rw [Function.update_self, Function.update_self]
      exact .some ⟨rfl, hposted, hallocated, hcovers, fun q hq hunmarked ↦
        ht.posted source q hq (hlearns.unmarked hunmarked) tag⟩
    · rw [Function.update_of_ne hrequest, Function.update_of_ne hrequest]
      exact Pending.serves_mono (ht.requests request') hlearns.marked
  · rw [pushed_running, pushed_running, written_append, written_internal, List.append_nil]

/-- **`MPI_Wait` returns** what the job gets on plain MPI, whichever slot is copied. -/
theorem wait (ht : w.Tracks L program failed h d p g r s)
    (hreached : program.plain.Reached program.plainInitial.state h) {state : σ} {next : α → σ}
    {request : ℕ} {pending : Pending α} {completion : ℕ → Completion α} {noted : List Group}
    {waited : Waited α} (hphase : r.phase = .running state)
    (hcall : program.call state = .wait request next) (hpending : r.requests request = some pending)
    (hcompletes : w.Completes failed channel p pending completion noted)
    (hwait : mpiWait pending.agg r.process pending.memory completion noted = .ok waited)
    (hchannel : ∀ source : Fin L.jobs.length, ∀ q ∈ L.workers source, ∀ (tag : UserTag) (k : ℕ) a,
      (channel (q, p, setTag q tag))[k]? = some a →
        (written (source, d, tag) (h source))[k]? = some a) :
    w.Advances L program failed h d p g r
      { r with
        process := waited.process
        phase := .running (next (waited.memory.originalBuffer 0))
        requests := Function.update r.requests request none
        received := r.received ++ [waited.memory.originalBuffer 0] } := by
  obtain ⟨process, phase, posted, requests, got⟩ := r
  obtain rfl : phase = .running state := hphase
  obtain rfl : state = s.state := ht.call
  dsimp only at hpending hwait
  have hrequest := ht.requests request
  dsimp only at hrequest
  rw [hpending] at hrequest
  obtain ⟨source, k, hs, -, hposted, hallocated, hcovers, hbefore⟩ :=
    Pending.exists_serves hrequest
  dsimp only at hposted hcovers hbefore
  have hworkers : L.workers source ≠ [] :=
    List.ne_nil_of_mem (Layout.master_mem_workers source.isLt)
  obtain ⟨hlearns, k', q, payload, hk', hunmarked, harrived, hholds⟩ :=
    ht.knows.of_mpiWait hworkers hposted (fitsStaging_ofBytes (by decide) _) hallocated
      hcovers hcompletes.failed hwait
  have hq := List.mem_of_getElem? (hcovers.worker hk')
  -- the slot that is copied has the message that plain MPI has under the number of the request
  obtain ⟨a, ha, hmessage⟩ | ⟨_, _, hfailed, -⟩ := hcompletes.request k' q hk'
  · rw [Pending.message, hbefore q hq (hlearns.unmarked hunmarked)] at hmessage
    obtain rfl := Completion.arrived.inj (harrived.symm.trans ha)
    have hbuf : waited.memory.originalBuffer 0 = a := hholds le_rfl 0 Nat.one_pos
    rw [hbuf]
    have hallows := AsyncProgram.allows_wait (d := d) (a := a) hcall hs
    obtain ⟨h', hreached', hle, hext⟩ := hreached.extend ht.le_history ht.follows hallows
      fun c k a hc ↦ by
        obtain ⟨rfl, rfl, rfl⟩ := Event.read.inj hc
        exact hchannel source q hq _ _ _ hmessage
    refine ⟨_, h', _, hreached', hle, ⟨hlearns.knows, ht.follows.concat hallows,
      congrArg (· ++ [a]) ht.received, rfl, (List.append_nil _).symm ▸ hext,
      fun source' q' hq' hunmarked' ↦ ht.posted source' q' hq' (hlearns.unmarked hunmarked'),
      trivial, fun request' ↦ ?_⟩, fun dest' q' _ _ tag' ↦ ?_, turnsMade_concat _ _ _⟩
    · dsimp only
      by_cases hsame : request' = request
      · subst hsame
        rw [Function.update_self, Function.update_self]
        exact .none
      · rw [Function.update_of_ne hsame, Function.update_of_ne hsame]
        exact Pending.serves_mono (ht.requests request') hlearns.marked
    · rw [pushed_running, pushed_running, written_append, written_read, List.append_nil]
  · exact absurd (harrived.symm.trans hfailed) (by simp)

end World.Tracks

end

end EntangledMPI
