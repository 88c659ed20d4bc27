import Mathlib.Order.Interval.Set.Basic
import EntangledMPI.Library.WhileLoop
import EntangledMPI.Mpi.WaitAfterShrink

/-!
# The retries of `MPI_Irecv`

When `PMPI_Irecv` fails, the loop of `MPI_Irecv` steps its index back and comes to the same worker
again. Nothing in the loop counts the attempts. It goes on because the failing call has run
`rep_errhandler`, which marks the rank of every process it has acknowledged in `rank_ignore_list`,
so that the next turn skips the worker.

## Main results

`Irecv.mpiIrecv_slots`: if the group that is acknowledged has the process that failed, the tags are
ones PMPI takes, and the elements have no gaps and fit an `int`, the loop ends within two turns for
each worker, and every slot of `req_array` is set.

`Irecv.mpiIrecv_refines`: whatever `PMPI_Irecv` answers, a loop that ends is that of
`AggregateRequest.mpiIrecv`, which attends to one worker after the other.
-/

namespace EntangledMPI

open CountingLoop WhileLoop

/-! ## The loop -/

/-- A posted receive with the elements behind `temp_buffer` that it writes. -/
structure StagedRecv extends PostedRecv where
  firstByte : ℕ
  datatype : TypeMap
  count : ℕ
  deriving DecidableEq

namespace StagedRecv

variable {datatype : TypeMap} {count i j w : ℕ} {tag : ℤ}

/-- The receive for worker number `i`, of the rank `rank`. -/
def forWorker (datatype : TypeMap) (count : ℕ) (tag : ℤ) (i rank : ℕ) : StagedRecv :=
  ⟨⟨rank, setTag rank tag⟩, i * stagedSize datatype count, datatype, count⟩

/-- The bytes that `PMPI_Irecv` may write. -/
def bytes (recv : StagedRecv) : Set ℕ := recv.datatype.places recv.count recv.firstByte

/-- The slot of worker number `i`. -/
def slotBytes (bufferSize i : ℕ) : Set ℕ := Set.Ico (i * bufferSize) ((i + 1) * bufferSize)

theorem bytes_forWorker (hcontiguous : datatype.Contiguous)
    (hint : datatype.size * count < 2 ^ 31) (i rank : ℕ) :
    (forWorker datatype count tag i rank).bytes = slotBytes (stagedSize datatype count) i := by
  rw [bytes, forWorker, slotBytes, stagedSize_of_lt hint, Nat.add_mul, Nat.one_mul]
  exact hcontiguous.places_eq count _

theorem slotBytes_subset {bufferSize : ℕ} (hi : i < w) :
    slotBytes bufferSize i ⊆ Set.Iio (w * bufferSize) :=
  fun _ hk ↦ hk.2.trans_le (Nat.mul_le_mul_right _ hi)

/-- They write to different bytes. -/
def Apart (recv recv' : StagedRecv) : Prop := ∀ k ∈ recv.bytes, k ∉ recv'.bytes

/-- It is for a worker of the rank `rank`, and writes to slot `i`. -/
structure IsFor (recv : StagedRecv) (bufferSize : ℕ) (tag : ℤ) (i rank : ℕ) : Prop where
  source : recv.source = rank
  tag : recv.tag = setTag rank tag
  bytes : recv.bytes = slotBytes bufferSize i

end StagedRecv

/-- An entry of `req_array`; `unset` is what `malloc` has left there. -/
inductive RequestSlot
  | unset
  | null
  | posted (recv : StagedRecv)
  deriving DecidableEq

namespace RequestSlot

def recv : RequestSlot → Option StagedRecv
  | posted recv => some recv
  | _ => none

theorem recv_eq_some_iff {slot : RequestSlot} {recv : StagedRecv} :
    slot.recv = some recv ↔ slot = posted recv := by
  cases slot <;> simp [RequestSlot.recv]

/-- The rank the receive was posted for. -/
def rank (slot : RequestSlot) : Option ℕ := slot.recv.map fun recv ↦ recv.source.toNat

end RequestSlot

/-- `MPI_ANY_TAG`. -/
def mpiAnyTag : ℤ := -1

/-- A tag that `PMPI_Irecv` does not take. As the error is not `MPIX_ERR_PROC_FAILED`,
`rep_errhandler` aborts. -/
def TagRefused (tag : ℤ) : Prop := tag < 0 ∧ tag ≠ mpiAnyTag

instance (tag : ℤ) : Decidable (TagRefused tag) :=
  inferInstanceAs (Decidable (tag < 0 ∧ tag ≠ mpiAnyTag))

/-- How a call of `PMPI_Irecv` ends: what the handler has acknowledged if it fails, and what it
leaves in the request then. -/
structure IrecvAnswer where
  failure : Option Group
  left : RequestSlot

/-- The variables of the loop, with the receives that `PMPI_Irecv` has accepted and the number of
its calls. `mpiStatus` tells whether it is `MPI_SUCCESS`. -/
structure Irecv where
  process : Process
  nodeRank : List (Option ℕ)
  reqArray : List RequestSlot
  accepted : List StagedRecv
  calls : ℕ
  mpiStatus : Bool
  i : ℤ

namespace Irecv

/-- One turn of the loop of `MPI_Irecv`; `answers` has the number and the source of the call. -/
def turn (source : ℕ) (datatype : TypeMap) (count : ℕ) (tag : ℤ)
    (answers : ℕ → ℕ → IrecvAnswer) (t : Irecv) : Except Fault Irecv := do
  if t.i < 0 then throw .outOfBounds
  else
    let i := t.i.toNat
    let job ← readAt t.process.jobList source
    let recvSource ← readAt job.rankList i
    let nodeRank ← writeAt t.nodeRank i (some recvSource)
    let ignored ← t.process.rankIgnoreList.read recvSource
    if ignored = 1 then
      let reqArray ← writeAt t.reqArray i .null
      return { t with nodeRank := nodeRank, reqArray := reqArray, i := t.i + 1 }
    else if TagRefused (setTag recvSource tag) then throw .abort
    else
      let recv : StagedRecv :=
        ⟨⟨recvSource, setTag recvSource tag⟩, i * stagedSize datatype count, datatype, count⟩
      let answer := answers t.calls recvSource
      match answer.failure with
      | some acked =>
        let process ← t.process.noteFailures acked
        let reqArray ← writeAt t.reqArray i answer.left
        -- `i--`, and then the `i++` of the loop
        return ⟨process, nodeRank, reqArray, t.accepted, t.calls + 1, false, t.i - 1 + 1⟩
      | none =>
        let reqArray ← writeAt t.reqArray i (.posted recv)
        return ⟨t.process, nodeRank, reqArray, t.accepted ++ [recv], t.calls + 1, true, t.i + 1⟩

/-- The variables before the loop. -/
def start (s : Process) (workerCount : ℕ) (uninitialised : Bool) : Irecv :=
  ⟨s, List.replicate workerCount none, List.replicate workerCount .unset, [], 0, uninitialised, 0⟩

/-- `MPI_Irecv` from the job `source`, if its loop ends after `fuel` turns. -/
def mpiIrecv {β : Type} (s : Process) (m : AsyncMemory β) (source : ℕ) (datatype : TypeMap)
    (count : ℕ) (garbage : ℕ → β) (tag : ℤ) (answers : ℕ → ℕ → IrecvAnswer) (uninitialised : Bool)
    (fuel : ℕ) : Except Fault (Option (Irecv × AsyncMemory β)) := do
  let job ← readAt s.jobList source
  let m := (AggregateRequest.newAggRequest m datatype count job.workerCount garbage).2
  let t ← whileLoop (fun t : Irecv ↦ t.i < job.workerCount)
    (turn source datatype count tag answers) fuel (start s job.workerCount uninitialised)
  return t.map fun t ↦ (t, m.malloc .reqArray)

/-! ## One turn -/

/-- The variables after a turn for the worker number `i`, of the rank `rank`. -/
def next (datatype : TypeMap) (count : ℕ) (tag : ℤ) (answers : ℕ → ℕ → IrecvAnswer) (t : Irecv)
    (i rank : ℕ) : Irecv :=
  let nodeRank := t.nodeRank.set i (some rank)
  if t.process.rankIgnoreList.entry rank = 1 then
    { t with nodeRank := nodeRank, reqArray := t.reqArray.set i .null, i := i + 1 }
  else
    match (answers t.calls rank).failure with
    | some acked => ⟨t.process.noted acked, nodeRank,
        t.reqArray.set i (answers t.calls rank).left, t.accepted, t.calls + 1, false, i⟩
    | none =>
      let recv := StagedRecv.forWorker datatype count tag i rank
      ⟨t.process, nodeRank, t.reqArray.set i (.posted recv), t.accepted ++ [recv], t.calls + 1,
        true, i + 1⟩

/-- The turn comes to a rank that is not marked, under a tag that is refused. -/
def AbortsAt (tag : ℤ) (t : Irecv) (rank : ℕ) : Prop :=
  t.process.rankIgnoreList.entry rank ≠ 1 ∧ TagRefused (setTag rank tag)

variable {n : ℕ} {L : Layout n} {s : Process} {comm : Group} {p source count : ℕ} {job : Job}
  {datatype : TypeMap} {tag : ℤ} {answers : ℕ → ℕ → IrecvAnswer} {t : Irecv} {i rank : ℕ}

/-- The arrays have an entry for each worker, and the loop is at worker number `i`. -/
structure At (t : Irecv) (L : Layout n) (comm : Group) (p source : ℕ) (job : Job) (i : ℕ) :
    Prop where
  holds : t.process.Holds L comm p
  jobList : t.process.jobList[source]? = some job
  nodeRank : t.nodeRank.length = job.workerCount
  reqArray : t.reqArray.length = job.workerCount
  index : t.i = i

theorem At.lt (h : t.At L comm p source job i) (hrank : job.workers[i]? = some rank) :
    rank < n ∧ i < job.workerCount ∧ readAt job.rankList i = .ok rank := by
  obtain ⟨hlt, hjob⟩ := List.getElem?_eq_some_iff.mp h.jobList
  have hworkers := h.holds.workers_getElem hlt
  rw [hjob] at hworkers
  have hcount : i < job.workerCount :=
    (List.getElem?_eq_some_iff.mp hrank).1.trans_le (List.length_take_le _ _)
  refine ⟨Layout.lt_of_mem_workers (hworkers ▸ List.mem_of_getElem? hrank), hcount, readAt_eq ?_⟩
  rwa [Job.workers, List.getElem?_take_of_lt hcount] at hrank

theorem At.turn_eq (h : t.At L comm p source job i) (hn : comm.length = n)
    (hrank : job.workers[i]? = some rank) (htag : ¬t.AbortsAt tag rank) :
    t.turn source datatype count tag answers
      = .ok (t.next datatype count tag answers i rank) := by
  obtain ⟨hlt, hcount, hread⟩ := h.lt hrank
  have hi : ¬t.i < 0 := by rw [h.index]; omega
  have hnat : t.i.toNat = i := by rw [h.index, Int.toNat_natCast]
  have hback : t.i - 1 + 1 = (i : ℤ) := by rw [h.index]; omega
  have hnode : writeAt t.nodeRank i (some rank) = .ok (t.nodeRank.set i (some rank)) :=
    writeAt_of_lt (h.nodeRank ▸ hcount) _
  have hreq : ∀ slot, writeAt t.reqArray i slot = .ok (t.reqArray.set i slot) :=
    fun slot ↦ writeAt_of_lt (h.reqArray ▸ hcount) slot
  simp only [turn, if_neg hi, hnat, readAt_eq h.jobList, hread, hnode,
    h.holds.read_rankIgnoreList hlt, except_ok_bind, next, hreq, hback]
  split
  next => rw [h.index]; rfl
  next hmark =>
    rw [if_neg fun hrefused ↦ htag ⟨hmark, hrefused⟩]
    cases (answers t.calls rank).failure with
    | none => dsimp only; rw [h.index]; rfl
    | some acked => dsimp only; rw [h.holds.noteFailures_eq hn acked]; rfl

theorem At.turn_of_abortsAt (h : t.At L comm p source job i)
    (hrank : job.workers[i]? = some rank) (htag : t.AbortsAt tag rank) :
    t.turn source datatype count tag answers = .error .abort := by
  obtain ⟨hlt, hcount, hread⟩ := h.lt hrank
  have hi : ¬t.i < 0 := by rw [h.index]; omega
  have hnat : t.i.toNat = i := by rw [h.index, Int.toNat_natCast]
  rw [turn, if_neg hi, hnat, readAt_eq h.jobList]
  simp only [except_ok_bind, hread, writeAt_of_lt (h.nodeRank ▸ hcount),
    h.holds.read_rankIgnoreList hlt, if_neg htag.1, if_pos htag.2]
  rfl

theorem entry_noted_of_marked {acked : Group} {r : ℕ} (h : s.rankIgnoreList.entry r = 1) :
    (s.noted acked).rankIgnoreList.entry r = 1 := by
  by_cases hr : r ∈ (s.rankFailedNodesInWorld acked).filterMap id
  · exact Table.entry_fill_of_mem _ hr 1
  · exact (Table.entry_fill_of_notMem _ hr 1).trans h

theorem entry_noted_of_acked (hs : s.Holds L comm p) (hcomm : comm.Nodup) {acked : Group}
    {q : ℕ} (hq : q ∈ acked) (hrank : comm[rank]? = some q) :
    (s.noted acked).rankIgnoreList.entry rank = 1 := by
  refine Table.entry_fill_of_mem _ (Process.mem_rankFailedNodesInWorld.mpr ⟨q, hq, ?_⟩) 1
  obtain ⟨hlt, rfl⟩ := List.getElem?_eq_some_iff.mp hrank
  rw [hs.comm]
  exact ⟨List.getElem_mem hlt, hcomm.idxOf_getElem _ hlt⟩

/-! ## The slots -/

/-- The slot of worker number `i`: a receive of its own, or null if its rank is marked. -/
def Slot (t : Irecv) (datatype : TypeMap) (count : ℕ) (tag : ℤ) (i rank : ℕ) : Prop :=
  t.reqArray[i]? = some (.posted (.forWorker datatype count tag i rank)) ∨
    t.reqArray[i]? = some .null ∧ t.process.rankIgnoreList.entry rank = 1

/-- The slots before number `i` are set, and the receives in them are all that were accepted. -/
structure Progress (t : Irecv) (L : Layout n) (comm : Group) (p source : ℕ) (job : Job)
    (datatype : TypeMap) (count : ℕ) (tag : ℤ) (i : ℕ) : Prop where
  arrays : t.At L comm p source job i
  nodeRank : t.nodeRank.take i = (job.workers.take i).map some
  slot : ∀ k < i, ∀ r, job.workers[k]? = some r → t.Slot datatype count tag k r
  accepted : t.accepted = (t.reqArray.take i).filterMap RequestSlot.recv

theorem take_set_succ {α : Type*} {l : List α} (h : i < l.length) (a : α) :
    (l.set i a).take (i + 1) = l.take i ++ [a] := by
  rw [List.take_add_one, List.take_set_of_le le_rfl, List.getElem?_set_self h, Option.toList_some]

theorem Progress.slot_of_set (h : t.Progress L comm p source job datatype count tag i) (t' : Irecv)
    {slot : RequestSlot} (hreq : t'.reqArray = t.reqArray.set i slot)
    (hmarks : ∀ r, t.process.rankIgnoreList.entry r = 1 →
      t'.process.rankIgnoreList.entry r = 1) :
    ∀ k < i, ∀ r, job.workers[k]? = some r → t'.Slot datatype count tag k r := by
  intro k hk r hr
  rw [Slot, hreq, List.getElem?_set_ne hk.ne']
  exact (h.slot k hk r hr).imp_right fun ⟨hnull, hmark⟩ ↦ ⟨hnull, hmarks r hmark⟩

theorem Progress.succ (h : t.Progress L comm p source job datatype count tag i)
    (hrank : job.workers[i]? = some rank) (slot : RequestSlot) (calls : ℕ) (mpiStatus : Bool)
    {t' : Irecv} (ht' : t' = ⟨t.process, t.nodeRank.set i (some rank), t.reqArray.set i slot,
      t.accepted ++ slot.recv.toList, calls, mpiStatus, i + 1⟩)
    (hslot : slot = .posted (.forWorker datatype count tag i rank) ∨
      slot = .null ∧ t.process.rankIgnoreList.entry rank = 1) :
    t'.Progress L comm p source job datatype count tag (i + 1) := by
  obtain ⟨-, hcount, -⟩ := h.arrays.lt hrank
  have hreq : i < t.reqArray.length := h.arrays.reqArray ▸ hcount
  have hbehind := h.slot_of_set t' (by rw [ht']) (fun r hr ↦ by rw [ht']; exact hr)
  subst ht'
  refine ⟨⟨h.arrays.holds, h.arrays.jobList, ?_, ?_, rfl⟩, ?_, fun k hk r hr ↦ ?_, ?_⟩
  · exact List.length_set.trans h.arrays.nodeRank
  · exact List.length_set.trans h.arrays.reqArray
  · rw [take_set_succ (h.arrays.nodeRank ▸ hcount), h.nodeRank, List.take_add_one, hrank,
      List.map_append]
    rfl
  · rcases Nat.lt_succ_iff_lt_or_eq.mp hk with hk | rfl
    · exact hbehind k hk r hr
    · obtain rfl := Option.some_inj.mp (hrank.symm.trans hr)
      rw [Slot, List.getElem?_set_self hreq]
      exact hslot.imp (congrArg some) fun ⟨hnull, hmark⟩ ↦ ⟨congrArg some hnull, hmark⟩
  · rw [take_set_succ hreq, List.filterMap_append, ← h.accepted]
    cases slot <;> rfl

theorem Progress.next_of_marked (h : t.Progress L comm p source job datatype count tag i)
    (hrank : job.workers[i]? = some rank) (hmark : t.process.rankIgnoreList.entry rank = 1) :
    (t.next datatype count tag answers i rank).Progress L comm p source job datatype count tag
      (i + 1) := by
  refine h.succ hrank .null t.calls t.mpiStatus ?_
    (Or.inr ⟨rfl, hmark⟩)
  rw [next, if_pos hmark]
  exact congrArg (fun a ↦ Irecv.mk _ _ _ a _ _ _) (List.append_nil _).symm

theorem Progress.next_of_success (h : t.Progress L comm p source job datatype count tag i)
    (hrank : job.workers[i]? = some rank) (hmark : t.process.rankIgnoreList.entry rank ≠ 1)
    (hanswer : (answers t.calls rank).failure = none) :
    (t.next datatype count tag answers i rank).Progress L comm p source job datatype count tag
      (i + 1) := by
  refine h.succ hrank (.posted (.forWorker datatype count tag i rank)) (t.calls + 1) true ?_
    (Or.inl rfl)
  rw [next, if_neg hmark, hanswer]
  rfl

/-- A turn whose call fails comes back to its worker. -/
theorem Progress.next_of_failure (h : t.Progress L comm p source job datatype count tag i)
    {acked : Group} (hmark : t.process.rankIgnoreList.entry rank ≠ 1)
    (hanswer : (answers t.calls rank).failure = some acked) :
    (t.next datatype count tag answers i rank).Progress L comm p source job datatype count tag
      i := by
  have hnext : t.next datatype count tag answers i rank = ⟨t.process.noted acked,
      t.nodeRank.set i (some rank), t.reqArray.set i (answers t.calls rank).left, t.accepted,
      t.calls + 1, false, i⟩ := by
    rw [next, if_neg hmark, hanswer]
  rw [hnext]
  refine ⟨⟨h.arrays.holds.noted acked, h.arrays.jobList, ?_, ?_, rfl⟩, ?_, ?_, ?_⟩
  · exact List.length_set.trans h.arrays.nodeRank
  · exact List.length_set.trans h.arrays.reqArray
  · exact (List.take_set_of_le le_rfl).trans h.nodeRank
  · exact h.slot_of_set _ rfl fun r hr ↦ entry_noted_of_marked hr
  · exact h.accepted.trans (congrArg _ (List.take_set_of_le le_rfl).symm)

/-! ## The loop ends -/

/-- How many of the ranks are not marked. -/
def unmarked (s : Process) (ranks : List ℕ) : ℕ :=
  ranks.countP fun r ↦ s.rankIgnoreList.entry r ≠ 1

/-- One turn for each worker that is left, and one more for each that is not marked. -/
def variant (job : Job) (t : Irecv) : ℕ :=
  job.workerCount - t.i.toNat + unmarked t.process (job.workers.drop t.i.toNat)

theorem unmarked_cons (s : Process) (r : ℕ) (ranks : List ℕ) :
    unmarked s (r :: ranks)
      = unmarked s ranks + if s.rankIgnoreList.entry r = 1 then 0 else 1 := by
  rw [unmarked, List.countP_cons, ← unmarked]
  by_cases hr : s.rankIgnoreList.entry r = 1 <;> simp [hr]

theorem unmarked_le_length (s : Process) (ranks : List ℕ) : unmarked s ranks ≤ ranks.length :=
  List.countP_le_length

theorem unmarked_noted_le (s : Process) (acked : Group) (ranks : List ℕ) :
    unmarked (s.noted acked) ranks ≤ unmarked s ranks := by
  refine List.countP_mono_left fun r _ hr ↦ ?_
  simp only [ne_eq, decide_eq_true_eq] at hr ⊢
  exact mt entry_noted_of_marked hr

/-- **Each turn lowers the variant**: it goes on to the next worker, or it has marked this one. -/
theorem Progress.variant_next_lt (h : t.Progress L comm p source job datatype count tag i)
    (hcomm : comm.Nodup) (hrank : job.workers[i]? = some rank)
    (hacked : ∀ acked ∈ (answers t.calls rank).failure, ∃ q ∈ acked, comm[rank]? = some q) :
    variant job (t.next datatype count tag answers i rank) < variant job t := by
  obtain ⟨-, hcount, -⟩ := h.arrays.lt hrank
  have hdrop : job.workers.drop i = rank :: job.workers.drop (i + 1) := by
    obtain ⟨hlt, rfl⟩ := List.getElem?_eq_some_iff.mp hrank
    exact List.drop_eq_getElem_cons hlt
  have hcons : unmarked t.process (job.workers.drop (i + 1))
      ≤ unmarked t.process (job.workers.drop i) := by
    rw [hdrop, unmarked_cons]
    exact Nat.le_add_right _ _
  have hi : t.i.toNat = i := by rw [h.arrays.index, Int.toNat_natCast]
  have hsucc : ((i : ℤ) + 1).toNat = i + 1 := by omega
  by_cases hmark : t.process.rankIgnoreList.entry rank = 1
  · rw [variant, variant, hi, next, if_pos hmark]
    dsimp only
    rw [hsucc]
    omega
  · cases hanswer : (answers t.calls rank).failure with
    | none =>
      rw [variant, variant, hi, next, if_neg hmark, hanswer]
      dsimp only
      rw [hsucc]
      omega
    | some acked =>
      obtain ⟨q, hq, hget⟩ := hacked acked hanswer
      have hnoted := entry_noted_of_acked h.arrays.holds hcomm hq hget
      -- the rank counted before the call, and no longer does
      have hlt : unmarked (t.process.noted acked) (job.workers.drop i)
          < unmarked t.process (job.workers.drop i) := by
        have hle := unmarked_noted_le t.process acked (job.workers.drop (i + 1))
        rw [hdrop, unmarked_cons, unmarked_cons, if_pos hnoted, if_neg hmark]
        omega
      rw [variant, variant, hi, next, if_neg hmark, hanswer]
      dsimp only
      rw [Int.toNat_natCast]
      omega

/-! ## The whole call -/

/-- What `MPI_Irecv` is to leave behind: a slot for each worker, each with a receive of its own or
null for a marked rank, no other receives, and a part of the staging area for each of them. -/
structure Slots (t : Irecv) (job : Job) (bufferSize : ℕ) (tag : ℤ) : Prop where
  length : t.reqArray.length = job.workerCount
  nodeRank : t.nodeRank = job.workers.map some
  slot : ∀ i r, job.workers[i]? = some r →
    (∃ recv : StagedRecv, t.reqArray[i]? = some (.posted recv) ∧ recv.IsFor bufferSize tag i r) ∨
      t.reqArray[i]? = some .null ∧ t.process.rankIgnoreList.entry r = 1
  accepted : t.accepted = t.reqArray.filterMap RequestSlot.recv
  inside : ∀ recv ∈ t.accepted, recv.bytes ⊆ Set.Iio (job.workerCount * bufferSize)
  apart : t.accepted.Pairwise StagedRecv.Apart

theorem eq_forWorker_of_slot (h : t.Slot datatype count tag i rank) {slot : RequestSlot}
    (hslot : t.reqArray[i]? = some slot) {recv : StagedRecv} (hrecv : slot.recv = some recv) :
    recv = .forWorker datatype count tag i rank := by
  obtain rfl := RequestSlot.recv_eq_some_iff.mp hrecv
  rcases h with hposted | ⟨hnull, -⟩
  · exact RequestSlot.posted.inj (Option.some_inj.mp (hslot.symm.trans hposted))
  · exact absurd (Option.some_inj.mp (hslot.symm.trans hnull)) (by simp)

/-- At the end of the loop every worker has been entered. -/
theorem Progress.nodeRank_eq
    (h : t.Progress L comm p source job datatype count tag job.workerCount) :
    t.nodeRank = job.workers.map some := by
  have hlength : job.workers.length ≤ job.workerCount := List.length_take_le _ _
  rw [← List.take_of_length_le h.arrays.nodeRank.le, h.nodeRank, List.take_of_length_le hlength]

theorem Progress.slots (h : t.Progress L comm p source job datatype count tag job.workerCount)
    (hcontiguous : datatype.Contiguous) (hint : datatype.size * count < 2 ^ 31) :
    t.Slots job (stagedSize datatype count) tag := by
  obtain ⟨hlt, hjob⟩ := List.getElem?_eq_some_iff.mp h.arrays.jobList
  have hlength : job.workers.length = job.workerCount :=
    Job.length_workers (h.arrays.holds.allocated _ (hjob ▸ List.getElem_mem hlt))
  have hslot : ∀ i r, job.workers[i]? = some r → t.Slot datatype count tag i r := fun i r hr ↦
    h.slot i (hlength ▸ (List.getElem?_eq_some_iff.mp hr).1) r hr
  have haccepted : t.accepted = t.reqArray.filterMap RequestSlot.recv := by
    rw [h.accepted, List.take_of_length_le h.arrays.reqArray.le]
  -- whatever has been posted stands in the slot of its worker, and writes to it
  have hrecv : ∀ (i : ℕ) (hi : i < t.reqArray.length) recv, t.reqArray[i].recv = some recv →
      recv.bytes = StagedRecv.slotBytes (stagedSize datatype count) i := by
    intro i hi recv hrecv
    have hi' : i < job.workers.length := by rw [hlength, ← h.arrays.reqArray]; exact hi
    rw [eq_forWorker_of_slot (hslot i _ (List.getElem?_eq_getElem hi'))
      (List.getElem?_eq_getElem hi) hrecv]
    exact StagedRecv.bytes_forWorker hcontiguous hint i _
  refine ⟨h.arrays.reqArray, h.nodeRank_eq, fun i r hr ↦ ?_, haccepted, fun recv hmem ↦ ?_, ?_⟩
  · refine (hslot i r hr).imp_left fun hposted ↦ ⟨_, hposted, rfl, rfl, ?_⟩
    exact StagedRecv.bytes_forWorker hcontiguous hint i r
  · rw [haccepted] at hmem
    obtain ⟨slot, hslot, hsome⟩ := List.mem_filterMap.mp hmem
    obtain ⟨i, hi, rfl⟩ := List.mem_iff_getElem.mp hslot
    rw [hrecv i hi recv hsome]
    exact StagedRecv.slotBytes_subset (h.arrays.reqArray ▸ hi)
  · rw [haccepted, List.pairwise_filterMap]
    refine List.pairwise_iff_getElem.mpr fun i j hi hj hij recv hi' recv' hj' k hk hk' ↦ ?_
    rw [hrecv i hi recv hi'] at hk
    rw [hrecv j hj recv' hj'] at hk'
    exact absurd (StagedRecv.slotBytes_subset hij hk) (not_lt.mpr hk'.1)

/-- A receive in its slot has no byte behind it. -/
theorem Slots.offset_lt {bufferSize j : ℕ} (h : t.Slots job bufferSize tag)
    (hrank : job.workers[i]? = some rank) {recv : StagedRecv}
    (hposted : t.reqArray[i]? = some (.posted recv)) (hbyte : recv.firstByte = i * bufferSize)
    (hj : j < recv.datatype.size * recv.count) : recv.datatype.offset j < bufferSize := by
  obtain ⟨recv', hrecv, hfor⟩ | ⟨hnull, -⟩ := h.slot i rank hrank
  · obtain rfl := RequestSlot.posted.inj (Option.some_inj.mp (hposted.symm.trans hrecv))
    have hmem : recv.firstByte + recv.datatype.offset j ∈ StagedRecv.slotBytes bufferSize i :=
      hfor.bytes ▸ ⟨j, hj, rfl⟩
    have hlt := hmem.2
    rw [hbyte, Nat.add_mul, Nat.one_mul] at hlt
    omega
  · exact absurd (hposted.symm.trans hnull) (by simp)

theorem progress_start (hs : s.Holds L comm p) (hjob : s.jobList[source]? = some job)
    (uninitialised : Bool) : (start s job.workerCount uninitialised).Progress L comm p source job
      datatype count tag 0 := by
  refine ⟨⟨hs, hjob, List.length_replicate, List.length_replicate, rfl⟩, rfl, ?_, rfl⟩
  exact fun k hk ↦ absurd hk (Nat.not_lt_zero k)

theorem At.getElem?_workers (h : t.At L comm p source job i)
    (hi : t.i < (job.workerCount : ℤ)) : ∃ rank, job.workers[i]? = some rank := by
  obtain ⟨hlt, hjob⟩ := List.getElem?_eq_some_iff.mp h.jobList
  have hlength : job.workers.length = job.workerCount :=
    Job.length_workers (h.holds.allocated _ (hjob ▸ List.getElem_mem hlt))
  rw [h.index] at hi
  exact ⟨_, List.getElem?_eq_getElem (hlength ▸ Int.ofNat_lt.mp hi)⟩

theorem Progress.next (h : t.Progress L comm p source job datatype count tag i)
    (answers : ℕ → ℕ → IrecvAnswer) (hrank : job.workers[i]? = some rank) :
    ∃ i', (t.next datatype count tag answers i rank).Progress L comm p source job datatype count tag
      i' ∧ i' ≤ job.workerCount := by
  obtain ⟨-, hcount, -⟩ := h.arrays.lt hrank
  by_cases hmark : t.process.rankIgnoreList.entry rank = 1
  · exact ⟨i + 1, h.next_of_marked hrank hmark, hcount⟩
  · cases hanswer : (answers t.calls rank).failure with
    | none => exact ⟨i + 1, h.next_of_success hrank hmark hanswer, hcount⟩
    | some acked => exact ⟨i, h.next_of_failure hmark hanswer, hcount.le⟩

/-- **The retries of `MPI_Irecv` end.** If every failing call has acknowledged the process it was
for, and no tag overflows to a negative one, the loop ends within two turns for each worker. With
elements without gaps, whose size is an `int`, all slots are set. -/
theorem mpiIrecv_slots {β : Type} (hs : s.Holds L comm p) (hn : comm.length = n)
    (hcomm : comm.Nodup) (hjob : s.jobList[source]? = some job)
    (hacked : ∀ k, ∀ rank ∈ job.workers, ∀ acked ∈ (answers k rank).failure,
      ∃ q ∈ acked, comm[rank]? = some q)
    (hcontiguous : datatype.Contiguous) (hint : datatype.size * count < 2 ^ 31)
    (htag : ∀ rank ∈ job.workers, 0 ≤ setTag rank tag)
    (m : AsyncMemory β) (garbage : ℕ → β) (uninitialised : Bool) :
    ∃ t m', mpiIrecv s m source datatype count garbage tag answers uninitialised
      (2 * job.workerCount) = .ok (some (t, m')) ∧
        t.Slots job (stagedSize datatype count) tag := by
  have hturn : ∀ t : Irecv, (∃ i ≤ job.workerCount,
      t.Progress L comm p source job datatype count tag i) →
      decide (t.i < (job.workerCount : ℤ)) = true →
      ∃ t', t.turn source datatype count tag answers = .ok t' ∧
        (∃ i ≤ job.workerCount, t'.Progress L comm p source job datatype count tag i) ∧
        variant job t' < variant job t := by
    rintro t ⟨i, -, hprogress⟩ hcond
    obtain ⟨rank, hrank⟩ := hprogress.arrays.getElem?_workers (of_decide_eq_true hcond)
    obtain ⟨i', hnext, hi'⟩ := hprogress.next answers hrank
    have hmem := List.mem_of_getElem? hrank
    have htaken : ¬t.AbortsAt tag rank := fun haborts ↦
      absurd haborts.2.1 (not_lt.mpr (htag rank hmem))
    exact ⟨_, hprogress.arrays.turn_eq hn hrank htaken, ⟨i', hi', hnext⟩,
      hprogress.variant_next_lt hcomm hrank (hacked _ _ hmem)⟩
  -- a worker costs a turn that sets its slot and at most one that marks it
  have hfuel : variant job (start s job.workerCount uninitialised) ≤ 2 * job.workerCount := by
    have hle := unmarked_le_length s (job.workers.drop 0)
    have hlength : (job.workers.drop 0).length ≤ job.workerCount := List.length_take_le _ _
    change job.workerCount - 0 + unmarked s (job.workers.drop 0) ≤ _
    omega
  obtain ⟨t, hloop, ⟨i, hi, hprogress⟩, hend⟩ := whileLoop_rule _ (variant job) hturn
    ⟨0, Nat.zero_le _, progress_start hs hjob uninitialised⟩ hfuel
  have hlast : i = job.workerCount := by
    have hge := of_decide_eq_false hend
    rw [hprogress.arrays.index] at hge
    omega
  subst hlast
  refine ⟨t, (AggregateRequest.newAggRequest m datatype count job.workerCount garbage).2.malloc
    .reqArray, ?_, hprogress.slots hcontiguous hint⟩
  rw [mpiIrecv, readAt_eq hjob, except_ok_bind]
  dsimp only
  rw [hloop]
  rfl

/-! ## One worker after the other -/

/-- The aggregate of a job with `workerCount` workers, with some of its requests. -/
def aggregateOf (workerCount : ℕ) (datatype : TypeMap) (count : ℕ) (requests : List (Option ℕ))
    (nodeRank : List ℕ) : AggregateRequest :=
  ⟨workerCount, stagedSize datatype count, requests, nodeRank, workerCount ≠ 1, datatype, count⟩

/-- The aggregate the loop has filled in. -/
def aggregateRequest (t : Irecv) (workerCount : ℕ) (datatype : TypeMap) (count : ℕ) :
    AggregateRequest :=
  aggregateOf workerCount datatype count (t.reqArray.map RequestSlot.rank)
    (t.nodeRank.filterMap id)

/-- The turns for the workers before number `i` have left the process `sᵢ`. -/
def Behind (s : Process) (job : Job) (datatype : TypeMap) (count : ℕ) (t : Irecv) (i : ℕ)
    (failures : ℕ → List Group) (sᵢ : Process) : Prop :=
  loop (Process.irecvTurn job failures) i (s, aggregateOf job.workerCount datatype count [] [])
    = .ok (sᵢ, aggregateOf job.workerCount datatype count
        ((t.reqArray.take i).map RequestSlot.rank) (job.workers.take i))

/-- So far the loop is that of `AggregateRequest.mpiIrecv`: it is between two workers, or has met
the failures `done` for the present one. -/
inductive Refines (s : Process) (job : Job) (datatype : TypeMap) (count : ℕ) (t : Irecv)
    (i : ℕ) : Prop
  | between (failures : ℕ → List Group) (h : Behind s job datatype count t i failures t.process)
  | within (failures : ℕ → List Group) (sᵢ : Process) (done : List Group) (rank : ℕ)
      (hrank : job.workers[i]? = some rank) (h : Behind s job datatype count t i failures sᵢ)
      (hdone : ∀ rest, sᵢ.postRecv rank (done ++ rest) = t.process.postRecv rank rest)

theorem Refines.within' (h : Refines s job datatype count t i)
    (hrank : job.workers[i]? = some rank) :
    ∃ failures sᵢ done, Behind s job datatype count t i failures sᵢ ∧
      ∀ rest, sᵢ.postRecv rank (done ++ rest) = t.process.postRecv rank rest := by
  cases h with
  | between failures h => exact ⟨failures, t.process, [], h, fun _ ↦ rfl⟩
  | within failures sᵢ done rank' hrank' h hdone =>
    obtain rfl := Option.some_inj.mp (hrank'.symm.trans hrank)
    exact ⟨failures, sᵢ, done, h, hdone⟩

theorem Refines.succ (h : Refines s job datatype count t i) (hrank : job.workers[i]? = some rank)
    (hread : readAt job.rankList i = .ok rank) (request : Option ℕ) (slot : RequestSlot)
    (hpost : t.process.postRecv rank [] = .ok (t.process, request)) {t' : Irecv}
    (hprocess : t'.process = t.process) (hslot : slot.rank = request)
    (htake : t'.reqArray.take (i + 1) = t.reqArray.take i ++ [slot]) :
    Refines s job datatype count t' (i + 1) := by
  obtain ⟨failures, sᵢ, done, hbehind, hdone⟩ := h.within' hrank
  refine .between (Function.update failures i done) ?_
  have hsame : ∀ k < i, ∀ s, Process.irecvTurn job (Function.update failures i done) s k
      = Process.irecvTurn job failures s k := by
    intro k hk s
    rw [Process.irecvTurn, Process.irecvTurn, Function.update_of_ne hk.ne]
  have hattempts := hdone []
  rw [List.append_nil, hpost] at hattempts
  rw [Behind, loop_succ, loop_congr hsame, hbehind, hprocess, htake, List.map_append,
    List.take_add_one, hrank, List.map_singleton, hslot]
  change Process.irecvTurn job _ _ i = _
  rw [Process.irecvTurn, hread, except_ok_bind, Function.update_self]
  dsimp only
  rw [hattempts]
  rfl

/-- One turn keeps the loops together. -/
theorem Refines.next (h : Refines s job datatype count t i)
    (ht : t.Progress L comm p source job datatype count tag i) (hn : comm.length = n)
    (hrank : job.workers[i]? = some rank) :
    ∃ i' ≤ job.workerCount,
      (t.next datatype count tag answers i rank).Progress L comm p source job datatype count tag
        i' ∧ Refines s job datatype count (t.next datatype count tag answers i rank) i' := by
  obtain ⟨hlt, hcount, hread⟩ := ht.arrays.lt hrank
  have hignored := ht.arrays.holds.read_rankIgnoreList hlt
  have hreq : i < t.reqArray.length := ht.arrays.reqArray ▸ hcount
  by_cases hmark : t.process.rankIgnoreList.entry rank = 1
  · refine ⟨i + 1, hcount, ht.next_of_marked hrank hmark,
      h.succ hrank hread none .null ?_ ?_ rfl ?_⟩
    · rw [Process.postRecv, hignored, except_ok_bind, if_pos hmark]
      rfl
    · rw [Irecv.next, if_pos hmark]
    · rw [Irecv.next, if_pos hmark]
      exact take_set_succ hreq _
  · cases hanswer : (answers t.calls rank).failure with
    | none =>
      refine ⟨i + 1, hcount, ht.next_of_success hrank hmark hanswer,
        h.succ hrank hread (some rank) (.posted (.forWorker datatype count tag i rank)) ?_ ?_ rfl
          ?_⟩
      · rw [Process.postRecv, hignored, except_ok_bind, if_neg hmark]
        rfl
      · rw [Irecv.next, if_neg hmark, hanswer]
      · rw [Irecv.next, if_neg hmark, hanswer]
        exact take_set_succ hreq _
    | some acked =>
      obtain ⟨failures, sᵢ, done, hbehind, hdone⟩ := h.within' hrank
      refine ⟨i, hcount.le, ht.next_of_failure hmark hanswer,
        .within failures sᵢ (done ++ [acked]) rank hrank ?_ fun rest ↦ ?_⟩
      · rw [Behind, Irecv.next, if_neg hmark, hanswer]
        dsimp only
        rw [List.take_set_of_le le_rfl]
        exact hbehind
      · rw [List.append_assoc, hdone, List.singleton_append, Process.postRecv, hignored,
          except_ok_bind, if_neg hmark, ht.arrays.holds.noteFailures_eq hn, except_ok_bind,
          Irecv.next, if_neg hmark, hanswer]

/-- **The loop refines** the one of `AggregateRequest.mpiIrecv`, which has for each worker the
failures met until its slot was set. -/
theorem mpiIrecv_refines {β : Type} {m m' : AsyncMemory β} {garbage : ℕ → β} {uninitialised : Bool}
    {fuel : ℕ} (hs : s.Holds L comm p) (hn : comm.length = n)
    (hjob : s.jobList[source]? = some job)
    (h : mpiIrecv s m source datatype count garbage tag answers uninitialised fuel
      = .ok (some (t, m'))) :
    ∃ failures, AggregateRequest.mpiIrecv s m source datatype count garbage failures
      = .ok (t.process, t.aggregateRequest job.workerCount datatype count, m') := by
  rw [mpiIrecv, readAt_eq hjob, except_ok_bind] at h
  obtain ⟨end', hloop, h⟩ := except_bind_eq_ok.mp h
  obtain ⟨t', hsome, hpair⟩ := Option.map_eq_some_iff.mp (Except.ok.inj h)
  obtain ⟨rfl, rfl⟩ := Prod.mk.inj hpair
  rw [hsome] at hloop
  -- the invariant: the loops have set the same slots
  obtain ⟨⟨i, hi, hprogress, hrefines⟩, hend⟩ := whileLoop_rule_of_ok (fun t : Irecv ↦
    ∃ i ≤ job.workerCount, t.Progress L comm p source job datatype count tag i ∧
      Refines s job datatype count t i) (fun t t' ht hcond hturn ↦ by
        obtain ⟨i, -, hprogress, hrefines⟩ := ht
        obtain ⟨rank, hrank⟩ := hprogress.arrays.getElem?_workers (of_decide_eq_true hcond)
        have htaken : ¬t.AbortsAt tag rank := fun haborts ↦ absurd
          ((hprogress.arrays.turn_of_abortsAt hrank haborts).symm.trans hturn) (by simp)
        obtain rfl := Except.ok.inj ((hprogress.arrays.turn_eq hn hrank htaken).symm.trans hturn)
        exact hrefines.next hprogress hn hrank)
    ⟨0, Nat.zero_le _, progress_start hs hjob uninitialised, .between (fun _ ↦ []) rfl⟩ hloop
  -- the loop has ended, so no worker is left
  have hlast : i = job.workerCount := by
    have hge := of_decide_eq_false hend
    rw [hprogress.arrays.index] at hge
    omega
  subst hlast
  have hnode : t'.nodeRank.filterMap id = job.workers := by
    rw [hprogress.nodeRank_eq, List.filterMap_map]
    exact List.filterMap_some
  cases hrefines with
  | within failures sᵢ done rank hrank =>
    exact absurd (hprogress.arrays.lt hrank).2.1 (lt_irrefl _)
  | between failures hbehind =>
    have hworkers : job.workers.take job.workerCount = job.workers :=
      List.take_of_length_le (List.length_take_le _ _)
    refine ⟨failures, ?_⟩
    rw [Behind, List.take_of_length_le hprogress.arrays.reqArray.le, hworkers] at hbehind
    dsimp only [aggregateOf] at hbehind
    rw [AggregateRequest.mpiIrecv, readAt_eq hjob, except_ok_bind]
    dsimp only [AggregateRequest.newAggRequest]
    rw [hbehind, aggregateRequest, aggregateOf, hnode]
    rfl

/-! ## A failing replica -/

/-- Process `9` receives four bytes from job `0`; its replica `7` dies before it is asked. -/
theorem mpiIrecv_slots_secondDies : ∃ t m',
    mpiIrecv (World.twoReplicas.proc 9) .zeros 0 (.ofBytes 4) 1 (fun _ ↦ (0 : ℕ)) 3
      (fun _ rank ↦ ⟨if rank = 1 then some [7] else none, .unset⟩) false (2 * 2)
        = .ok (some (t, m')) ∧ t.Slots ⟨0, 2, [0, 1]⟩ (stagedSize (.ofBytes 4) 1) 3 := by
  have hs : (World.twoReplicas.proc 9).Holds Layout.twoReplicas [6, 7, 8, 9] 9 :=
    (Layout.process_shares Layout.twoReplicas rfl (by decide)).toHolds
  have hjob : (World.twoReplicas.proc 9).jobList[0]? = some ⟨0, 2, [0, 1]⟩ := rfl
  refine mpiIrecv_slots hs rfl (by decide) hjob ?_ (TypeMap.contiguous_ofBytes 4) (by decide)
    (by decide) _ _ false
  intro k rank _ acked hacked
  split at hacked
  next hrank =>
    obtain rfl := Option.some_inj.mp hacked
    exact ⟨7, List.mem_singleton_self 7, by rw [hrank]; rfl⟩
  next => exact absurd hacked (by simp)

/-- `MPI_Irecv` by process `9` from job `0`, when nobody fails. -/
abbrev twoReplicasIrecv (datatype : TypeMap) (count : ℕ) (tag : ℤ) :
    Except Fault (Option (Irecv × AsyncMemory ℕ)) :=
  mpiIrecv (World.twoReplicas.proc 9) .zeros 0 datatype count (fun _ ↦ 0) tag
    (fun _ _ ↦ ⟨none, .unset⟩) false (2 * 2)

/-- **Where the slots are not as they should be**: the second of two bytes with a gap between them
comes to the slot behind, four bytes `2 ^ 30` times have slots of no bytes, and the largest tag
overflows to one that is refused. -/
theorem not_mpiIrecv_slots :
    (¬∃ t m', twoReplicasIrecv ⟨[0, 2], 3⟩ 1 3 = .ok (some (t, m')) ∧
      t.Slots ⟨0, 2, [0, 1]⟩ (stagedSize ⟨[0, 2], 3⟩ 1) 3) ∧
    (¬∃ t m', twoReplicasIrecv (.ofBytes 4) (2 ^ 30) 3 = .ok (some (t, m')) ∧
      t.Slots ⟨0, 2, [0, 1]⟩ (stagedSize (.ofBytes 4) (2 ^ 30)) 3) ∧
    ¬∃ t m', twoReplicasIrecv (.ofBytes 4) 1 (2 ^ 31 - 1) = .ok (some (t, m')) ∧
      t.Slots ⟨0, 2, [0, 1]⟩ (stagedSize (.ofBytes 4) 1) (2 ^ 31 - 1) := by
  refine ⟨?_, ?_, ?_⟩
  · rintro ⟨t, m', ht, hslots⟩
    obtain ⟨rfl, -⟩ := Prod.mk.inj (Option.some_inj.mp (Except.ok.inj ht))
    exact absurd (hslots.offset_lt (j := 1) (i := 0) rfl rfl rfl (by decide)) (by decide)
  · rintro ⟨t, m', ht, hslots⟩
    obtain ⟨rfl, -⟩ := Prod.mk.inj (Option.some_inj.mp (Except.ok.inj ht))
    exact absurd (hslots.offset_lt (j := 0) (i := 0) rfl rfl rfl (by decide)) (by decide)
  · rintro ⟨t, m', ht, -⟩
    have haborts : twoReplicasIrecv (.ofBytes 4) 1 (2 ^ 31 - 1) = .error .abort := rfl
    exact absurd (haborts.symm.trans ht) (by simp)

end Irecv

end EntangledMPI
