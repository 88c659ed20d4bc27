import EntangledMPI.Library.TypeMap
import EntangledMPI.Mpi.AnySource
import EntangledMPI.Mpi.IgnoreMap

/-!
# Receives that are completed later

`MPI_Irecv` from a job posts one PMPI receive for every worker of the job that is not ignored, and
gathers them in an `Aggregate_Request`. With several workers each has a slot of its own in a staging
area, and `MPI_Wait` copies one slot to the user's buffer; a single worker writes to the user's
buffer at once. A slot has `type_size * count` bytes. So it has room for elements without gaps,
while the elements of a strided type reach into the next slot, and what `MPI_Wait` copies is not all
of them.

Both calls run with `__ignore_process_failure`, so a failure they meet is only noted. `PMPI_Waitall`
returns when every receive has got its message or has failed; what a failed one leaves in its slot
is arbitrary. The requests are used up then, and a second `PMPI_Waitall` finds none.
-/

namespace EntangledMPI

open CountingLoop

/-! ## Memory -/

/-- The blocks `malloc` returns to a receive and its completion. -/
inductive AsyncBlock
  | aggReq
  | nodeRank
  | tempBuffer
  | reqArray
  | arrStatus
  deriving DecidableEq

/-- The memory of a process, as far as a receive is concerned: the user's buffer and the staging
area by bytes, how many blocks of each kind are allocated, and `__request_pending`. -/
@[ext] structure AsyncMemory (β : Type*) where
  originalBuffer : ℕ → β
  tempBuffer : ℕ → β
  allocated : AsyncBlock → ℕ
  requestPending : ℤ

namespace AsyncMemory

variable {β : Type*} (m : AsyncMemory β)

def malloc (b : AsyncBlock) : AsyncMemory β :=
  { m with allocated := Function.update m.allocated b (m.allocated b + 1) }

/-- Only what is allocated can be freed. -/
def free (b : AsyncBlock) : Except Fault (AsyncMemory β) :=
  if 0 < m.allocated b then
    .ok { m with allocated := Function.update m.allocated b (m.allocated b - 1) }
  else .error .indeterminate

/-- The user's buffer has the payload, in elements of a type. -/
def Holds (datatype : TypeMap) (payload : List β) : Prop :=
  ∀ k (h : k < payload.length), m.originalBuffer (datatype.offset k) = payload[k]

end AsyncMemory

/-! ## `Aggregate_Request` -/

structure AggregateRequest where
  requestCount : ℕ
  bufferSize : ℕ
  /-- The rank each request was posted for; `none` is `MPI_REQUEST_NULL`. -/
  reqArray : List (Option ℕ)
  nodeRank : List ℕ
  /-- `temp_buffer` is a block of its own, and not `original_buffer`. -/
  staged : Bool
  /-- The type and the count that `PMPI_Irecv` is given with each request. -/
  datatype : TypeMap
  count : ℕ

/-- `type_size * count`, a product of two `int`s that becomes a `size_t`. -/
def stagedSize (datatype : TypeMap) (count : ℕ) : ℕ :=
  ((BitVec.ofNat 32 (datatype.size * count)).signExtend 64).toNat

theorem stagedSize_of_lt {datatype : TypeMap} {count : ℕ} (h : datatype.size * count < 2 ^ 31) :
    stagedSize datatype count = datatype.size * count := by
  have hmsb : (BitVec.ofNat 32 (datatype.size * count)).msb = false := by
    rw [BitVec.msb_eq_false_iff_two_mul_lt, BitVec.toNat_ofNat]
    omega
  rw [stagedSize, BitVec.signExtend_eq_setWidth_of_msb_false hmsb, BitVec.toNat_setWidth,
    BitVec.toNat_ofNat]
  omega

/-- The staging area is made for elements without gaps and for slots whose size is an `int`. A
single worker does without it, and needs only a type that writes no byte twice. -/
def FitsStaging (datatype : TypeMap) (count workerCount : ℕ) : Prop :=
  datatype.Contiguous ∧ datatype.size * count < 2 ^ 31 ∨ workerCount = 1 ∧ datatype.Apart count

theorem fitsStaging_ofBytes {n : ℕ} (h : n < 2 ^ 31) (workerCount : ℕ) :
    FitsStaging (.ofBytes n) 1 workerCount := by
  refine Or.inl ⟨TypeMap.contiguous_ofBytes n, ?_⟩
  rw [Nat.mul_one]
  exact List.length_range.trans_lt h

namespace AggregateRequest

variable {β : Type*}

/-- `new_agg_request`; `malloc` leaves `garbage` in the staging area. -/
def newAggRequest (m : AsyncMemory β) (datatype : TypeMap) (count workerCount : ℕ)
    (garbage : ℕ → β) : AggregateRequest × AsyncMemory β :=
  let m := (m.malloc .aggReq).malloc .nodeRank
  let m := if workerCount = 1 then m else { m.malloc .tempBuffer with tempBuffer := garbage }
  (⟨workerCount, stagedSize datatype count, [], [], workerCount ≠ 1, datatype, count⟩,
    { m with requestPending := m.requestPending + 1 })

def freeAggRequest (agg : AggregateRequest) (m : AsyncMemory β) : Except Fault (AsyncMemory β) := do
  let m ← m.free .reqArray
  let m ← if 1 < agg.requestCount then m.free .tempBuffer else .ok m
  let m ← m.free .nodeRank
  m.free .aggReq

end AggregateRequest

/-! ## `MPI_Irecv` -/

namespace Process

/-- The receive for one worker: `failures` are what the handler acknowledged each time
`PMPI_Irecv` failed before it succeeded, or before the worker was ignored. -/
def postRecv (s : Process) (recvSource : ℕ) :
    List Group → Except Fault (Process × Option ℕ)
  | [] => do
    let ignored ← s.rankIgnoreList.read recvSource
    return (s, if ignored = 1 then none else some recvSource)
  | acked :: failures => do
    let ignored ← s.rankIgnoreList.read recvSource
    if ignored = 1 then return (s, none)
    else
      let s ← s.noteFailures acked
      postRecv s recvSource failures

/-- One turn of the loop of `MPI_Irecv`. -/
def irecvTurn (job : Job) (failures : ℕ → List Group) (s : Process × AggregateRequest) (i : ℕ) :
    Except Fault (Process × AggregateRequest) := do
  let recvSource ← readAt job.rankList i
  let (process, request) ← s.1.postRecv recvSource (failures i)
  return (process, { s.2 with
    nodeRank := s.2.nodeRank ++ [recvSource], reqArray := s.2.reqArray ++ [request] })

end Process

/-- `MPI_Irecv` from the job `source`, of `count` elements. -/
def AggregateRequest.mpiIrecv {β : Type} (s : Process) (m : AsyncMemory β) (source : ℕ)
    (datatype : TypeMap) (count : ℕ) (garbage : ℕ → β) (failures : ℕ → List Group) :
    Except Fault (Process × AggregateRequest × AsyncMemory β) := do
  let job ← readAt s.jobList source
  let (agg, m) := newAggRequest m datatype count job.workerCount garbage
  let (s, agg) ← loop (Process.irecvTurn job failures) job.workerCount (s, agg)
  return (s, agg, m.malloc .reqArray)

/-! ## `PMPI_Waitall` -/

/-- What has become of a posted receive when `PMPI_Waitall` returns. -/
inductive Completion (β : Type*)
  | arrived (payload : List β)
  | failed (source : ℤ) (left : List β)

/-- The fields of `MPI_Status` that are looked at; `error` tells whether `MPI_ERROR` is not
`MPI_SUCCESS`. -/
structure Status where
  source : ℤ
  error : Bool
  deriving DecidableEq

namespace Completion

variable {β : Type*}

def bytes : Completion β → List β
  | arrived payload => payload
  | failed _ left => left

/-- A null request has the empty status. -/
def status (c : Completion β) : Option ℕ → Status
  | none => ⟨mpiAnySource, false⟩
  | some rank =>
    match c with
    | arrived _ => ⟨rank, false⟩
    | failed source _ => ⟨source, true⟩

end Completion

namespace AggregateRequest

variable {β : Type*} (agg : AggregateRequest)

/-- The message of request number `i` comes to the elements that begin at its slot. -/
def receiveAt (completion : ℕ → Completion β) (area : ℕ → β) (i : ℕ) : ℕ → β :=
  match agg.reqArray[i]? with
  | some (some _) =>
    agg.datatype.unpack (i * agg.bufferSize)
      ((completion i).bytes.take (agg.datatype.size * agg.count)) area
  | _ => area

/-- The memory behind `temp_buffer`, once every request has got what it gets. -/
def receive (completion : ℕ → Completion β) (area : ℕ → β) : ℕ → β :=
  (List.range agg.reqArray.length).foldl (agg.receiveAt completion) area

def receiveMemory (completion : ℕ → Completion β) (m : AsyncMemory β) : AsyncMemory β :=
  if agg.staged then { m with tempBuffer := agg.receive completion m.tempBuffer }
  else { m with originalBuffer := agg.receive completion m.originalBuffer }

def statuses (completion : ℕ → Completion β) : List Status :=
  agg.reqArray.mapIdx fun i request ↦ (completion i).status request

theorem getElem?_statuses (completion : ℕ → Completion β) (k : ℕ) :
    (agg.statuses completion)[k]? = agg.reqArray[k]?.map (completion k).status :=
  List.getElem?_mapIdx ..

/-- Some posted receive has failed. -/
def someFailed (completion : ℕ → Completion β) : Bool :=
  (agg.statuses completion).any Status.error

/-- The requests are used up. -/
def exhausted : AggregateRequest :=
  { agg with reqArray := agg.reqArray.map fun _ ↦ none }

end AggregateRequest

/-! ## `MPI_Wait` -/

namespace Process

/-- The handler runs for what `PMPI_Waitall` has found dead. -/
def noteAll (s : Process) (noted : List Group) : Except Fault Process := noted.foldlM noteFailures s

/-- The loop over the statuses: index and job of the sender of the first one that counts. -/
def firstSuccess (s : Process) : List Status → ℕ → Except Fault (Option (ℕ × ℕ))
  | [], _ => return none
  | status :: statuses, i => do
    if 0 ≤ status.source ∧ status.error = false then
      let ignored ← s.rankIgnoreList.read status.source.toNat
      if ignored ≠ 1 then
        let job ← readRank2Job s.rank2Job status.source.toNat
        return some (i, job)
      else firstSuccess s statuses (i + 1)
    else firstSuccess s statuses (i + 1)

end Process

/-- How `wait_for_agg_request` with a status ends: after how many attempts, and with which index and
job, which is none if there is no request. -/
structure Waited (β : Type*) where
  attempts : ℕ
  waIndex : ℕ
  source : Option ℕ
  process : Process
  memory : AsyncMemory β

namespace AggregateRequest

variable {β : Type}

/-- The tables as `PMPI_Waitall` leaves them. -/
def tablesAfter (agg : AggregateRequest) (s : Process) (completion : ℕ → Completion β)
    (noted : List Group) : Except Fault Process :=
  if agg.someFailed completion then s.noteAll noted else .ok s

/-- The attempts from number `attempt` on, of which `left` may still succeed; the one behind them
calls `exit(999)`. -/
def waitAttempts (s : Process) (m : AsyncMemory β) (completion : ℕ → Completion β)
    (noted : List Group) : (left attempt : ℕ) → AggregateRequest → Except Fault (Waited β)
  | 0, _, _ => throw .abort
  | left + 1, attempt, agg => do
    let s ← agg.tablesAfter s completion noted
    let m := agg.receiveMemory completion m
    match ← s.firstSuccess (agg.statuses completion) 0 with
    | some (waIndex, source) => return ⟨attempt, waIndex, some source, s, m⟩
    | none => waitAttempts s m completion noted left (attempt + 1) agg.exhausted

/-- Unless there is only one request, `memcpy(ori_buf, temp_buf, buffer_size)` of its slot. -/
def copySlot (agg : AggregateRequest) (waIndex : ℕ) (m : AsyncMemory β) : AsyncMemory β :=
  if agg.requestCount ≠ 1 then
    { m with originalBuffer := fun k ↦
        if k < agg.bufferSize then m.tempBuffer (waIndex * agg.bufferSize + k)
        else m.originalBuffer k }
  else m

/-- `wait_for_agg_request` with a status, for a receive from a job. -/
def waitForAggRequest (agg : AggregateRequest) (s : Process) (m : AsyncMemory β)
    (completion : ℕ → Completion β) (noted : List Group) : Except Fault (Waited β) := do
  if agg.requestCount = 0 then return ⟨0, 0, none, s, m⟩
  else
    let waited ← waitAttempts s (m.malloc .arrStatus) completion noted 5 1 agg
    let m ← agg.freeAggRequest (agg.copySlot waited.waIndex waited.memory)
    let m ← m.free .arrStatus
    return { waited with memory := m }

/-- `wait_for_agg_request` with `MPI_STATUS_IGNORE`. -/
def waitIgnoringStatus (agg : AggregateRequest) (m : AsyncMemory β)
    (completion : ℕ → Completion β) : Except Fault (AsyncMemory β) :=
  if agg.requestCount = 0 then .ok m
  else agg.freeAggRequest (agg.receiveMemory completion m)

end AggregateRequest

/-- `__request_pending--`. -/
def AsyncMemory.completed {β : Type*} (m : AsyncMemory β) : AsyncMemory β :=
  { m with requestPending := m.requestPending - 1 }

/-- `MPI_Wait` with a status. -/
def mpiWait {β : Type} (agg : AggregateRequest) (s : Process) (m : AsyncMemory β)
    (completion : ℕ → Completion β) (noted : List Group) : Except Fault (Waited β) := do
  let waited ← agg.waitForAggRequest s m completion noted
  return { waited with memory := waited.memory.completed }

/-- `MPI_Wait` with `MPI_STATUS_IGNORE`. -/
def mpiWaitIgnore {β : Type} (agg : AggregateRequest) (m : AsyncMemory β)
    (completion : ℕ → Completion β) : Except Fault (AsyncMemory β) := do
  let m ← agg.waitIgnoringStatus m completion
  return m.completed

/-! ## The aggregate of a receive -/

namespace AggregateRequest

/-- What `MPI_Irecv` makes of a job with `workerCount` workers. -/
structure Posted (agg : AggregateRequest) (workerCount : ℕ) (datatype : TypeMap) (count : ℕ) :
    Prop where
  requestCount : agg.requestCount = workerCount
  bufferSize : agg.bufferSize = stagedSize datatype count
  length : agg.reqArray.length = workerCount
  staged : agg.staged = decide (workerCount ≠ 1)
  datatype : agg.datatype = datatype
  count : agg.count = count

theorem posted_of_mpiIrecv {β : Type} {s s' : Process} {m m' : AsyncMemory β} {source : ℕ}
    {datatype : TypeMap} {count : ℕ} {garbage : ℕ → β} {failures : ℕ → List Group}
    {agg : AggregateRequest}
    (h : mpiIrecv s m source datatype count garbage failures = .ok (s', agg, m')) :
    ∃ job, s.jobList[source]? = some job ∧ agg.Posted job.workerCount datatype count := by
  obtain ⟨job, hjob, h⟩ := except_bind_eq_ok.mp h
  obtain ⟨⟨t, agg'⟩, hloop, h⟩ := except_bind_eq_ok.mp h
  obtain ⟨-, rfl, -⟩ : t = s' ∧ agg' = agg ∧ _ := by simpa using h
  refine ⟨job, getElem?_of_readAt hjob, ?_⟩
  have hinv : agg'.requestCount = job.workerCount ∧ agg'.bufferSize = stagedSize datatype count ∧
      agg'.reqArray.length = job.workerCount ∧ agg'.staged = decide (job.workerCount ≠ 1) ∧
      agg'.datatype = datatype ∧ agg'.count = count := by
    refine loop_rule_of_ok (fun i t ↦ t.2.requestCount = job.workerCount ∧
      t.2.bufferSize = stagedSize datatype count ∧ t.2.reqArray.length = i ∧
        t.2.staged = decide (job.workerCount ≠ 1) ∧ t.2.datatype = datatype ∧ t.2.count = count)
      ?_ ⟨rfl, rfl, rfl, rfl, rfl, rfl⟩ hloop
    rintro i - t t' ⟨hcount, hsize, hlength, hstaged, htype, helements⟩ hturn
    obtain ⟨recvSource, -, hturn⟩ := except_bind_eq_ok.mp hturn
    obtain ⟨⟨s'', request⟩, -, hturn⟩ := except_bind_eq_ok.mp hturn
    obtain rfl := Except.ok.inj hturn
    exact ⟨hcount, hsize, by simp [hlength], hstaged, htype, helements⟩
  obtain ⟨hcount, hsize, hlength, hstaged, htype, helements⟩ := hinv
  exact ⟨hcount, hsize, hlength, hstaged, htype, helements⟩

theorem posted_of_holds {β : Type} {n : ℕ} {L : Layout n} {comm : Group} {p : ℕ} {s s' : Process}
    {m m' : AsyncMemory β} {source : ℕ} {datatype : TypeMap} {count : ℕ} {garbage : ℕ → β}
    {failures : ℕ → List Group} {agg : AggregateRequest} (hs : s.Holds L comm p)
    (h : mpiIrecv s m source datatype count garbage failures = .ok (s', agg, m')) :
    agg.Posted (L.workers source).length datatype count := by
  obtain ⟨job, hjob, hposted⟩ := posted_of_mpiIrecv h
  obtain ⟨hlt, rfl⟩ := List.getElem?_eq_some_iff.mp hjob
  rwa [← hs.workers_getElem hlt, Job.length_workers (hs.allocated _ (List.getElem_mem hlt))]

/-- How many blocks of a kind belong to the aggregate. -/
def blocks (agg : AggregateRequest) : AsyncBlock → ℕ
  | .aggReq => 1
  | .nodeRank => 1
  | .reqArray => 1
  | .tempBuffer => if 1 < agg.requestCount then 1 else 0
  | .arrStatus => 0

variable {β : Type} {agg : AggregateRequest} {m : AsyncMemory β}

/-- Its blocks are still allocated. -/
def Allocated (agg : AggregateRequest) (m : AsyncMemory β) : Prop :=
  ∀ b, agg.blocks b ≤ m.allocated b

theorem allocated_of_mpiIrecv {s s' : Process} {m' : AsyncMemory β} {source : ℕ}
    {datatype : TypeMap} {count : ℕ} {garbage : ℕ → β} {failures : ℕ → List Group}
    (h : mpiIrecv s m source datatype count garbage failures = .ok (s', agg, m')) :
    agg.Allocated m' := by
  obtain ⟨job, hjob, hposted⟩ := posted_of_mpiIrecv h
  obtain ⟨job', hjob', h⟩ := except_bind_eq_ok.mp h
  obtain rfl := Option.some_inj.mp (hjob.symm.trans (getElem?_of_readAt hjob'))
  obtain ⟨⟨t, agg'⟩, -, h⟩ := except_bind_eq_ok.mp h
  obtain rfl : (newAggRequest m datatype count job.workerCount garbage).2.malloc .reqArray = m' :=
    congrArg (fun x ↦ x.2.2) (Except.ok.inj h)
  intro b
  by_cases hone : job.workerCount = 1
  · cases b <;> simp [blocks, hposted.requestCount, newAggRequest, hone, AsyncMemory.malloc]
  · cases b <;> simp [blocks, hposted.requestCount, newAggRequest, hone, AsyncMemory.malloc]
    split <;> simp

/-- The memory without the blocks of the aggregate. -/
def released (agg : AggregateRequest) (m : AsyncMemory β) : AsyncMemory β :=
  { m with allocated := fun b ↦ m.allocated b - agg.blocks b }

theorem freeAggRequest_eq (h : agg.Allocated m) : agg.freeAggRequest m = .ok (agg.released m) := by
  have hreq : 0 < m.allocated .reqArray := h .reqArray
  have hnode : 0 < m.allocated .nodeRank := h .nodeRank
  have hagg : 0 < m.allocated .aggReq := h .aggReq
  have htemp : 1 < agg.requestCount → 0 < m.allocated .tempBuffer := by
    intro hmany
    have hle := h .tempBuffer
    rwa [blocks, if_pos hmany] at hle
  rw [freeAggRequest, AsyncMemory.free, if_pos hreq, except_ok_bind]
  by_cases hmany : 1 < agg.requestCount
  · simp only [hmany, if_true, AsyncMemory.free, Function.update_of_ne, ne_eq, reduceCtorEq,
      not_false_eq_true, htemp hmany, hnode, hagg, except_ok_bind, released]
    refine congrArg Except.ok (AsyncMemory.ext rfl rfl (funext fun b ↦ ?_) rfl)
    cases b <;> simp [blocks, hmany, Function.update]
  · simp only [hmany, if_false, AsyncMemory.free, Function.update_of_ne, ne_eq, reduceCtorEq,
      not_false_eq_true, hnode, hagg, if_true, except_ok_bind, released]
    refine congrArg Except.ok (AsyncMemory.ext rfl rfl (funext fun b ↦ ?_) rfl)
    cases b <;> simp [blocks, hmany, Function.update]

theorem receive_slot {completion : ℕ → Completion β} {area : ℕ → β} {i r k : ℕ}
    (hcontiguous : agg.datatype.Contiguous) (hsize : agg.bufferSize = agg.datatype.size * agg.count)
    (hi : agg.reqArray[i]? = some (some r)) (hk : k < agg.bufferSize) :
    agg.receive completion area (i * agg.bufferSize + k)
      = ((completion i).bytes.take agg.bufferSize).getD k (area (i * agg.bufferSize + k)) := by
  -- messages of other requests stay in their slots
  have hat : ∀ (area : ℕ → β) (n : ℕ),
      agg.receiveAt completion area n (i * agg.bufferSize + k) =
        if n = i then ((completion i).bytes.take agg.bufferSize).getD k
          (area (i * agg.bufferSize + k)) else area (i * agg.bufferSize + k) := by
    intro area n
    have hlength : ((completion n).bytes.take agg.bufferSize).length ≤ agg.bufferSize :=
      List.length_take_le _ _
    by_cases hn : n = i
    · subst hn
      rw [receiveAt, hi, if_pos rfl]
      dsimp only
      rw [← hsize, hcontiguous.unpack_apply (hlength.trans_eq hsize),
        if_pos (Nat.le_add_right _ _), Nat.add_sub_cancel_left]
    · rw [if_neg hn, receiveAt]
      match agg.reqArray[n]? with
      | none | some none => rfl
      | some (some _) =>
        dsimp only
        rw [← hsize, hcontiguous.unpack_apply (hlength.trans_eq hsize)]
        split
        next hle =>
          have hlt : n < i := by
            by_contra hge
            have hmul := Nat.mul_le_mul_right agg.bufferSize (by omega : i + 1 ≤ n)
            rw [Nat.add_mul, Nat.one_mul] at hmul
            omega
          have hmul := Nat.mul_le_mul_right agg.bufferSize (by omega : n + 1 ≤ i)
          rw [Nat.add_mul, Nat.one_mul] at hmul
          rw [List.getD_eq_default _ _ (hlength.trans (by omega))]
        next => rfl
  have hfold : ∀ n, (List.range n).foldl (agg.receiveAt completion) area (i * agg.bufferSize + k) =
      if i < n then ((completion i).bytes.take agg.bufferSize).getD k
        (area (i * agg.bufferSize + k)) else area (i * agg.bufferSize + k) := by
    intro n
    induction n with
    | zero => rfl
    | succ n ih =>
      rw [List.range_succ, List.foldl_concat, hat, ih]
      by_cases hn : n = i
      · subst hn
        rw [if_pos rfl, if_neg (lt_irrefl n), if_pos (Nat.lt_succ_self n)]
      · have hlt : i < n ↔ i < n + 1 := by omega
        simp only [if_neg hn, hlt]
  rw [receive, hfold, if_pos (List.getElem?_eq_some_iff.mp hi).1]

end AggregateRequest

/-! ## The loop over the statuses -/

namespace Process

/-- The status of a message that has arrived, from a rank that is not ignored. -/
def Counts (s : Process) (status : Status) : Prop :=
  0 ≤ status.source ∧ status.error = false ∧
    ∃ ignored, s.rankIgnoreList.read status.source.toNat = .ok ignored ∧ ignored ≠ 1

/-- A status that is passed over. -/
def PassesOver (s : Process) (status : Status) : Prop :=
  0 ≤ status.source → status.error = false →
    s.rankIgnoreList.read status.source.toNat = .ok 1

variable {s : Process}

theorem firstSuccess_cons_of_counts {status : Status} (h : s.Counts status)
    (statuses : List Status) (i : ℕ) :
    s.firstSuccess (status :: statuses) i
      = (readRank2Job s.rank2Job status.source.toNat).map fun job ↦ some (i, job) := by
  obtain ⟨hsource, herror, ignored, hread, hne⟩ := h
  rw [firstSuccess, if_pos ⟨hsource, herror⟩, hread, except_ok_bind, if_pos hne]
  rfl

theorem firstSuccess_cons_of_passesOver {status : Status} (h : s.PassesOver status)
    (statuses : List Status) (i : ℕ) :
    s.firstSuccess (status :: statuses) i = s.firstSuccess statuses (i + 1) := by
  rw [firstSuccess]
  split
  next hstatus =>
    rw [h hstatus.1 hstatus.2, except_ok_bind, if_neg (not_not.mpr rfl)]
  next => rfl

theorem firstSuccess_cons_cases (s : Process) (status : Status) (statuses : List Status) (i : ℕ) :
    s.Counts status ∨ s.PassesOver status ∨ ¬s.Counts status ∧ ¬s.PassesOver status ∧
      ∃ e, s.firstSuccess (status :: statuses) i = .error e := by
  by_cases hstatus : 0 ≤ status.source ∧ status.error = false
  · cases hread : s.rankIgnoreList.read status.source.toNat with
    | error e =>
      refine Or.inr (Or.inr ⟨?_, ?_, e, ?_⟩)
      · rintro ⟨-, -, ignored, hok, -⟩
        exact absurd (hread.symm.trans hok) (by simp)
      · intro hpass
        exact absurd (hread.symm.trans (hpass hstatus.1 hstatus.2)) (by simp)
      · rw [firstSuccess, if_pos hstatus, hread, except_error_bind]
    | ok ignored =>
      by_cases hone : ignored = 1
      · exact Or.inr (Or.inl fun _ _ ↦ by rw [hread, hone])
      · exact Or.inl ⟨hstatus.1, hstatus.2, ignored, hread, hone⟩
  · exact Or.inr (Or.inl fun hsource herror ↦ absurd ⟨hsource, herror⟩ hstatus)

theorem Counts.not_passesOver {status : Status} (h : s.Counts status) : ¬s.PassesOver status := by
  obtain ⟨hsource, herror, ignored, hread, hne⟩ := h
  intro hpass
  exact hne (Except.ok.inj (hread.symm.trans (hpass hsource herror)))

/-- **What the loop finds**: the first status that counts, when those before it are passed over. -/
theorem firstSuccess_eq_some_iff {statuses : List Status} {i j job : ℕ} :
    s.firstSuccess statuses i = .ok (some (j, job)) ↔
      ∃ k status, j = i + k ∧ statuses[k]? = some status ∧ s.Counts status ∧
        readRank2Job s.rank2Job status.source.toNat = .ok job ∧
        ∀ k' < k, ∀ before, statuses[k']? = some before → s.PassesOver before := by
  induction statuses generalizing i with
  | nil => simp [firstSuccess]
  | cons status statuses ih =>
    -- the first status counts, is passed over, or ends the loop with a fault
    rcases firstSuccess_cons_cases s status statuses i with hcounts | hpass | ⟨hnot, hnot', e, he⟩
    · rw [firstSuccess_cons_of_counts hcounts]
      constructor
      · intro h
        cases hjob : readRank2Job s.rank2Job status.source.toNat with
        | error e =>
          rw [hjob] at h
          exact absurd h (by simp [Except.map])
        | ok job' =>
          rw [hjob] at h
          obtain ⟨rfl, rfl⟩ := Prod.mk.inj (Option.some_inj.mp (Except.ok.inj h))
          exact ⟨0, status, rfl, rfl, hcounts, hjob, fun k' hk' ↦ absurd hk' (Nat.not_lt_zero k')⟩
      · rintro ⟨k, status', rfl, hget, -, hjob, hbefore⟩
        cases k with
        | zero =>
          obtain rfl := Option.some_inj.mp hget
          rw [hjob]
          rfl
        | succ k => exact absurd (hbefore 0 (Nat.succ_pos k) status rfl) hcounts.not_passesOver
    · rw [firstSuccess_cons_of_passesOver hpass, ih]
      constructor
      · rintro ⟨k, status', rfl, hget, hcounts, hjob, hbefore⟩
        refine ⟨k + 1, status', by omega, hget, hcounts, hjob, ?_⟩
        intro k' hk' before hget'
        cases k' with
        | zero =>
          obtain rfl := Option.some_inj.mp hget'
          exact hpass
        | succ k' => exact hbefore k' (by omega) before hget'
      · rintro ⟨k, status', rfl, hget, hcounts, hjob, hbefore⟩
        cases k with
        | zero =>
          obtain rfl := Option.some_inj.mp hget
          exact absurd hpass hcounts.not_passesOver
        | succ k =>
          exact ⟨k, status', by omega, hget, hcounts, hjob,
            fun k' hk' before hget' ↦ hbefore (k' + 1) (by omega) before hget'⟩
    · refine iff_of_false (by rw [he]; simp) ?_
      rintro ⟨k, status', rfl, hget, hcounts, -, hbefore⟩
      cases k with
      | zero =>
        obtain rfl := Option.some_inj.mp hget
        exact hnot hcounts
      | succ k => exact hnot' (hbefore 0 (Nat.succ_pos k) status rfl)

theorem firstSuccess_of_passesOver {statuses : List Status}
    (h : ∀ status ∈ statuses, s.PassesOver status) (i : ℕ) :
    s.firstSuccess statuses i = .ok none := by
  induction statuses generalizing i with
  | nil => rfl
  | cons status statuses ih =>
    obtain ⟨hstatus, hstatuses⟩ := List.forall_mem_cons.mp h
    rw [firstSuccess_cons_of_passesOver hstatus, ih hstatuses]

end Process

namespace AggregateRequest

variable {β : Type} {agg : AggregateRequest} {s : Process} {m : AsyncMemory β}
  {completion : ℕ → Completion β} {noted : List Group}

theorem passesOver_of_exhausted (s : Process) (hnull : ∀ request ∈ agg.reqArray, request = none) :
    ∀ status ∈ agg.statuses completion, s.PassesOver status := by
  intro status hstatus hsource
  obtain ⟨i, hi, rfl⟩ := List.mem_mapIdx.mp hstatus
  rw [hnull _ (List.getElem_mem hi)] at hsource
  exact absurd hsource (by simp [Completion.status, mpiAnySource])

/-- **Once the requests are used up** no attempt succeeds any more. -/
theorem waitAttempts_of_exhausted (hnull : ∀ request ∈ agg.reqArray, request = none)
    (left attempt : ℕ) : waitAttempts s m completion noted left attempt agg = .error .abort := by
  induction left generalizing m agg attempt with
  | zero => rfl
  | succ left ih =>
    have hfailed : agg.someFailed completion = false := by
      rw [someFailed, List.any_eq_false]
      intro status hstatus
      obtain ⟨i, hi, rfl⟩ := List.mem_mapIdx.mp hstatus
      rw [hnull _ (List.getElem_mem hi)]
      exact Bool.false_ne_true
    have hnull' : ∀ request ∈ agg.exhausted.reqArray, request = none := by
      intro request hrequest
      obtain ⟨-, -, rfl⟩ := List.mem_map.mp hrequest
      rfl
    rw [waitAttempts, tablesAfter, hfailed, if_neg Bool.false_ne_true, except_ok_bind]
    dsimp only
    rw [Process.firstSuccess_of_passesOver (passesOver_of_exhausted s hnull), except_ok_bind]
    exact ih hnull' (attempt + 1)

/-- **The first attempt decides.** -/
theorem waitAttempts_eq_ok_iff {left attempt : ℕ} {waited : Waited β} :
    waitAttempts s m completion noted (left + 1) attempt agg = .ok waited ↔
      ∃ s' waIndex source, agg.tablesAfter s completion noted = .ok s' ∧
        s'.firstSuccess (agg.statuses completion) 0 = .ok (some (waIndex, source)) ∧
        waited = ⟨attempt, waIndex, some source, s', agg.receiveMemory completion m⟩ := by
  have hnull : ∀ request ∈ agg.exhausted.reqArray, request = none := by
    intro request hrequest
    obtain ⟨-, -, rfl⟩ := List.mem_map.mp hrequest
    rfl
  rw [waitAttempts, except_bind_eq_ok]
  refine exists_congr fun s' ↦ ?_
  constructor
  · rintro ⟨htables, h⟩
    obtain ⟨found, hfound, h⟩ := except_bind_eq_ok.mp h
    cases found with
    | none => exact absurd ((waitAttempts_of_exhausted hnull _ _).symm.trans h) (by simp)
    | some found =>
      obtain rfl := Except.ok.inj h
      exact ⟨_, _, htables, hfound, rfl⟩
  · rintro ⟨waIndex, source, htables, hfound, rfl⟩
    refine ⟨htables, ?_⟩
    rw [hfound]
    rfl

/-! ## The whole call -/

theorem receiveMemory_malloc (b : AsyncBlock) :
    agg.receiveMemory completion (m.malloc b) = (agg.receiveMemory completion m).malloc b := by
  simp only [receiveMemory, AsyncMemory.malloc]
  split <;> rfl

theorem copySlot_malloc (waIndex : ℕ) (b : AsyncBlock) :
    agg.copySlot waIndex (m.malloc b) = (agg.copySlot waIndex m).malloc b := by
  simp only [copySlot, AsyncMemory.malloc]
  split <;> rfl

theorem allocated_receiveMemory : (agg.receiveMemory completion m).allocated = m.allocated := by
  rw [receiveMemory]
  split <;> rfl

theorem allocated_copySlot (waIndex : ℕ) : (agg.copySlot waIndex m).allocated = m.allocated := by
  rw [copySlot]
  split <;> rfl

theorem requestPending_copySlot (waIndex : ℕ) :
    (agg.copySlot waIndex m).requestPending = m.requestPending := by
  rw [copySlot]
  split <;> rfl

theorem Allocated.malloc (h : agg.Allocated m) (b : AsyncBlock) : agg.Allocated (m.malloc b) := by
  intro b'
  refine (h b').trans ?_
  change m.allocated b' ≤ Function.update m.allocated b (m.allocated b + 1) b'
  rw [Function.update_apply]
  split
  next heq => rw [heq]; omega
  next => exact le_refl _

theorem free_released_malloc :
    (agg.released (m.malloc .arrStatus)).free .arrStatus = .ok (agg.released m) := by
  rw [AsyncMemory.free, released, AsyncMemory.malloc]
  simp only [Function.update_self, blocks, Nat.sub_zero, Nat.zero_lt_succ, if_true,
    Nat.add_sub_cancel]
  refine congrArg Except.ok (AsyncMemory.ext rfl rfl (funext fun b ↦ ?_) rfl)
  cases b <;> simp [Function.update, blocks, released]

/-- The memory behind `MPI_Wait` with a status that took the slot `waIndex`. -/
def afterWait (agg : AggregateRequest) (waIndex : ℕ) (completion : ℕ → Completion β)
    (m : AsyncMemory β) : AsyncMemory β :=
  (agg.released (agg.copySlot waIndex (agg.receiveMemory completion m))).completed

/-- **`MPI_Wait` with a status** returns after its first attempt or not at all. -/
theorem mpiWait_eq_ok_iff (hcount : agg.requestCount ≠ 0) (hm : agg.Allocated m)
    {waited : Waited β} : mpiWait agg s m completion noted = .ok waited ↔
      ∃ s' waIndex source, agg.tablesAfter s completion noted = .ok s' ∧
        s'.firstSuccess (agg.statuses completion) 0 = .ok (some (waIndex, source)) ∧
        waited = ⟨1, waIndex, some source, s', agg.afterWait waIndex completion m⟩ := by
  -- the request is freed as a whole, whichever slot has been copied
  have hfree : ∀ waIndex, agg.freeAggRequest
      (agg.copySlot waIndex (agg.receiveMemory completion (m.malloc .arrStatus)))
        = .ok (agg.released
          ((agg.copySlot waIndex (agg.receiveMemory completion m)).malloc .arrStatus)) := by
    intro waIndex
    rw [receiveMemory_malloc, copySlot_malloc]
    refine freeAggRequest_eq (Allocated.malloc ?_ _)
    intro b
    rw [allocated_copySlot, allocated_receiveMemory]
    exact hm b
  rw [mpiWait, waitForAggRequest, if_neg hcount]
  constructor
  · intro h
    obtain ⟨waited', h', h⟩ := except_bind_eq_ok.mp h
    obtain ⟨waited'', hattempts, h'⟩ := except_bind_eq_ok.mp h'
    obtain ⟨s', waIndex, source, htables, hfound, rfl⟩ := waitAttempts_eq_ok_iff.mp hattempts
    refine ⟨s', waIndex, source, htables, hfound, ?_⟩
    rw [hfree, except_ok_bind, free_released_malloc, except_ok_bind] at h'
    obtain rfl := Except.ok.inj h'
    exact (Except.ok.inj h).symm
  · rintro ⟨s', waIndex, source, htables, hfound, rfl⟩
    rw [waitAttempts_eq_ok_iff.mpr ⟨s', waIndex, source, htables, hfound, rfl⟩, except_ok_bind]
    dsimp only
    rw [hfree, except_ok_bind, free_released_malloc]
    rfl

/-- The user's buffer behind `MPI_Wait`: that of the one worker, or a copy of the slot. -/
theorem originalBuffer_afterWait (waIndex : ℕ)
    (hstaged : agg.staged = decide (agg.requestCount ≠ 1)) :
    (agg.afterWait waIndex completion m).originalBuffer =
      if agg.requestCount = 1 then agg.receive completion m.originalBuffer
      else fun k ↦
        if k < agg.bufferSize then
          agg.receive completion m.tempBuffer (waIndex * agg.bufferSize + k)
        else m.originalBuffer k := by
  by_cases hcount : agg.requestCount = 1
  · simp [afterWait, copySlot, hcount, receiveMemory, hstaged, released, AsyncMemory.completed]
  · simp [afterWait, copySlot, hcount, receiveMemory, hstaged, released, AsyncMemory.completed]

/-- If the slot that is taken has the payload, so has the user's buffer. -/
theorem holds_afterWait {workerCount count : ℕ} {datatype : TypeMap}
    (hposted : agg.Posted workerCount datatype count)
    (hfits : FitsStaging datatype count workerCount) {payload : List β}
    (hlength : payload.length ≤ datatype.size * count) {k r : ℕ}
    (hrequest : agg.reqArray[k]? = some (some r)) (harrived : completion k = .arrived payload) :
    (agg.afterWait k completion m).Holds datatype payload := by
  obtain ⟨rfl, hsize, hrequests, hstaged, rfl, rfl⟩ := hposted
  have htake : (completion k).bytes.take (agg.datatype.size * agg.count) = payload := by
    rw [harrived, Completion.bytes, List.take_of_length_le hlength]
  intro b hb
  rw [originalBuffer_afterWait k hstaged]
  by_cases hone : agg.requestCount = 1
  · -- a single worker writes to the user's buffer
    rw [hone] at hrequests
    obtain rfl : k = 0 := by
      have hlt := (List.getElem?_eq_some_iff.mp hrequest).1
      omega
    have hapart : agg.datatype.Apart agg.count :=
      hfits.elim (fun h ↦ h.1.apart _) And.right
    have hbyte : agg.datatype.unpack 0 payload m.originalBuffer (0 + agg.datatype.offset b)
        = payload[b] := TypeMap.unpack_offset hapart hlength hb
    rw [Nat.zero_add] at hbyte
    rw [if_pos hone, receive, hrequests, List.range_one, List.foldl_cons, List.foldl_nil, receiveAt,
      hrequest]
    dsimp only
    rw [Nat.zero_mul, htake]
    exact hbyte
  · obtain ⟨hcontiguous, hint⟩ := hfits.resolve_right fun h ↦ hone h.1
    rw [stagedSize_of_lt hint] at hsize
    have hb' : b < agg.bufferSize := hsize ▸ hb.trans_le hlength
    rw [if_neg hone, hcontiguous.offset_eq (hb.trans_le hlength), if_pos hb',
      receive_slot hcontiguous hsize hrequest hb', hsize, htake, List.getD_eq_getElem?_getD,
      List.getElem?_eq_getElem hb, Option.getD_some]

/-- **`MPI_Wait` with `MPI_STATUS_IGNORE`** copies nothing. -/
theorem mpiWaitIgnore_eq (hcount : agg.requestCount ≠ 0) (hm : agg.Allocated m) :
    mpiWaitIgnore agg m completion
      = .ok (agg.released (agg.receiveMemory completion m)).completed := by
  have hallocated : agg.Allocated (agg.receiveMemory completion m) := by
    intro b
    rw [allocated_receiveMemory]
    exact hm b
  rw [mpiWaitIgnore, waitIgnoringStatus, if_neg hcount, freeAggRequest_eq hallocated]
  rfl

end AggregateRequest

end EntangledMPI
