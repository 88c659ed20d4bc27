import EntangledMPI.Mpi.StatusIgnored
import EntangledMPI.Mpi.TransferStatus

/-!
# The status of a receive

A worker sends under its rank and under a tag that carries the rank, and PMPI reports both as they
were given to it. `MPI_Recv` passes the user's `MPI_Status` on to every `PMPI_Recv`, so that the
last one fills it in. `MPI_Wait` copies one of its own and puts the job in the place of the rank.

## Main result

`sameStatus_iff`: the user gets the job and the tag of the message from both only if `SET_TAG`
overflows to the plain tag and the last worker that is received from has the number of its job.
-/

namespace EntangledMPI

/-- The fields of `MPI_Status` that a user reads behind a receive. -/
structure RecvStatus where
  source : ℤ
  tag : ℤ
  deriving DecidableEq

/-- What PMPI reports of a message that has arrived from a rank under a user tag. -/
def RecvStatus.ofRecv (tag : UserTag) (rank : ℕ) : RecvStatus := ⟨rank, setTag rank tag⟩

/-- The status of a null request: `MPI_ANY_SOURCE` and `MPI_ANY_TAG`. -/
def RecvStatus.empty : RecvStatus := ⟨mpiAnySource, -1⟩

/-- The workers that are not ignored. -/
def Process.liveWorkers (s : Process) (workers : List ℕ) : List ℕ :=
  workers.filter fun r ↦ s.rankIgnoreList.entry r ≠ 1

/-! ## `MPI_Recv` -/

namespace Transfer

variable {α : Type} {n : ℕ} {L : Layout n} {s : Process} {comm : Group} {p source : ℕ}
  {tag : UserTag}

/-- The `PMPI_Recv` of every worker succeeds, and the message of worker `i` is `payload i`. -/
def delivered (L : Layout n) (source : ℕ) (tag : UserTag) (payload : ℕ → α) :
    ℕ → Answer α RecvStatus :=
  fun i ↦ ⟨none, payload i, .ofRecv tag ((L.workers source).getD i 0)⟩

theorem map_status_outcomesFrom {answers : ℕ → Answer α RecvStatus} {i : ℕ} {ranks : List ℕ}
    (hnone : ∀ k, (answers k).failure = none)
    (hstatus : ∀ k r, ranks[k]? = some r → (answers (i + k)).status = .ofRecv tag r) :
    ((outcomesFrom answers s i ranks).filterMap id).map Answer.status
      = (s.liveWorkers ranks).map (.ofRecv tag) := by
  induction ranks generalizing i with
  | nil => rfl
  | cons rank ranks ih =>
    have hrest := @ih (i + 1) fun k r hr ↦ by
      rw [Nat.add_assoc, Nat.add_comm 1 k]
      exact hstatus (k + 1) r hr
    rw [outcomesFrom, Process.liveWorkers]
    by_cases hskip : s.rankIgnoreList.entry rank = 1
    · rw [if_pos hskip, List.filter_cons_of_neg (by simpa using hskip)]
      exact hrest
    · rw [if_neg hskip, hnone i, List.filter_cons_of_pos (by simpa using hskip), List.map_cons,
        ← hstatus 0 rank rfl]
      exact congrArg _ hrest

/-- **`MPI_Recv` without failures** reports the last worker it has received from. -/
theorem status_mpiRecv (h : s.Holds L comm p) (hn : comm.length = n)
    (hsource : source < L.jobs.length) (tag : UserTag) (payload : ℕ → α) (uninitialised : Bool)
    (buffer : α) (status : RecvStatus) :
    ∃ t, mpiRecv s source (delivered L source tag payload) uninitialised buffer status = .ok t ∧
      t.status = (((s.liveWorkers (L.workers source)).getLast?).map (.ofRecv tag)).getD status := by
  obtain ⟨t, ht, hleft⟩ :=
    overWorkers_eq h hn hsource (delivered L source tag payload) uninitialised buffer status
  refine ⟨t, ht, ?_⟩
  have hreports : ∀ k r, (L.workers source)[k]? = some r →
      (delivered L source tag payload (0 + k)).status = .ofRecv tag r := by
    intro k r hr
    rw [Nat.zero_add, delivered, List.getD_eq_getElem?_getD, hr]
    rfl
  have hmap := map_status_outcomesFrom (s := s) (fun _ ↦ rfl) hreports
  rw [hleft.status, lastCall, outcomes, ← List.getLast?_map, ← List.getLast?_map, hmap]

end Transfer

/-! ## `MPI_Irecv` and `MPI_Wait` -/

namespace AggregateRequest

variable {β : Type} {n : ℕ} {L : Layout n} {s : Process} {comm : Group} {p source count : ℕ}
  {datatype : TypeMap} {m m' : AsyncMemory β} {garbage : ℕ → β} {agg : AggregateRequest}
  {tag : UserTag}

/-- `arr_status` as `PMPI_Waitall` fills it when all messages have arrived. -/
def arrStatus (agg : AggregateRequest) (tag : UserTag) : List RecvStatus :=
  agg.reqArray.map fun request ↦ (request.map (.ofRecv tag)).getD .empty

/-- The user's status: `*status = arr_status[i]`, and then the job for `MPI_SOURCE`. -/
def waitStatus (agg : AggregateRequest) (tag : UserTag) (waited : Waited β) :
    Option RecvStatus := do
  let status ← (agg.arrStatus tag)[waited.waIndex]?
  let job ← waited.source
  return { status with source := job }

theorem statuses_arrived (agg : AggregateRequest) (payload : ℕ → List β) :
    agg.statuses (fun i ↦ .arrived (payload i))
      = agg.statuses fun _ ↦ (.arrived [] : Completion β) := by
  refine List.ext_getElem? fun k ↦ ?_
  rw [getElem?_statuses, getElem?_statuses]
  refine congrArg (Option.map · _) (funext fun request ↦ ?_)
  cases request <;> rfl

/-- **`MPI_Wait` without failures** reports the job, and the tag of the first worker that is not
ignored. -/
theorem waitStatus_mpiWait (h : s.Holds L comm p) (hsource : source < L.jobs.length)
    (hirecv : mpiIrecv s m source datatype count garbage (fun _ ↦ []) = .ok (s, agg, m'))
    (hlive : s.liveWorkers (L.workers source) ≠ []) {m₂ : AsyncMemory β} (hm : agg.Allocated m₂)
    (tag : UserTag) (payload : ℕ → List β) :
    ∃ waited first, mpiWait agg s m₂ (fun i ↦ .arrived (payload i)) [] = .ok waited ∧
      (s.liveWorkers (L.workers source)).head? = some first ∧
      agg.waitStatus tag waited = some ⟨source, setTag first tag⟩ := by
  obtain ⟨agg', m'', hirecv', hreq, hposted⟩ := mpiIrecv_eq h hsource datatype count m garbage
  obtain rfl : agg' = agg := congrArg (fun x ↦ x.2.1) (Except.ok.inj (hirecv'.symm.trans hirecv))
  have hne : agg'.requestCount ≠ 0 := by
    rw [hposted.requestCount]
    exact fun hzero ↦ Layout.workers_ne_nil hsource (List.eq_nil_of_length_eq_zero hzero)
  obtain ⟨live, hmem⟩ := List.exists_mem_of_ne_nil _ hlive
  obtain ⟨hworker, hunmarked⟩ := List.mem_filter.mp hmem
  obtain ⟨⟨first, hslot⟩, hfound⟩ :=
    firstSuccess_firstLive h hreq ⟨live, hworker, of_decide_eq_true hunmarked⟩ []
  rw [← statuses_arrived agg' payload] at hfound
  have htables : agg'.tablesAfter s (fun i ↦ .arrived (payload i)) [] = .ok s := by
    rw [tablesAfter]
    split <;> rfl
  refine ⟨_, first, (mpiWait_eq_ok_iff hne hm).mpr ⟨s, _, source, htables, hfound, rfl⟩, ?_, ?_⟩
  · -- the slot of the first request that is posted is that of the first live worker
    have hget := (getElem?_requestsOf.mp (hreq ▸ hslot)).1
    have hlt := (List.getElem?_eq_some_iff.mp hget).1
    rw [Process.liveWorkers, List.head?_filter, List.find?_eq_getElem?_findIdx]
    exact hget
  · rw [waitStatus, arrStatus, List.getElem?_map, hslot]
    simp only [Option.map_some, Option.getD_some, Option.bind_eq_bind, Option.bind_some,
      Option.pure_def, RecvStatus.ofRecv]

/-! ## The two kinds of receives -/

/-- `MPI_Recv`, and `MPI_Irecv` with `MPI_Wait`, hand the user the job the message is from and the
tag it was sent under. -/
def SameStatus (L : Layout n) (s : Process) (source : ℕ) (tag : UserTag) (agg : AggregateRequest)
    (m : AsyncMemory β) (payload : ℕ → List β) (uninitialised : Bool) (buffer : List β)
    (status : RecvStatus) : Prop :=
  ∃ t waited,
    Transfer.mpiRecv s source (Transfer.delivered L source tag payload) uninitialised buffer status
      = .ok t ∧
    mpiWait agg s m (fun i ↦ .arrived (payload i)) [] = .ok waited ∧
    t.status = ⟨source, tag⟩ ∧ agg.waitStatus tag waited = some ⟨source, tag⟩

/-- Both come out right although neither is translated back. -/
structure StatusByChance (L : Layout n) (s : Process) (source : ℕ) : Prop where
  last : (s.liveWorkers (L.workers source)).getLast? = some source
  lastTag : 2 ^ 30 ∣ source + 1
  firstTag : ∀ r ∈ (s.liveWorkers (L.workers source)).head?, 2 ^ 30 ∣ r + 1

/-- **When the two kinds of receives hand the user the same status**, that of the message. -/
theorem sameStatus_iff (h : s.Holds L comm p) (hn : comm.length = n)
    (hsource : source < L.jobs.length)
    (hirecv : mpiIrecv s m source datatype count garbage (fun _ ↦ []) = .ok (s, agg, m'))
    (hlive : s.liveWorkers (L.workers source) ≠ []) {m₂ : AsyncMemory β} (hm : agg.Allocated m₂)
    (tag : UserTag) (payload : ℕ → List β) (uninitialised : Bool) (buffer : List β)
    (status : RecvStatus) :
    SameStatus L s source tag agg m₂ payload uninitialised buffer status ↔
      StatusByChance L s source := by
  obtain ⟨t, ht, hstatus⟩ := Transfer.status_mpiRecv h hn hsource tag payload uninitialised
    buffer status
  obtain ⟨waited, first, hwait, hfirst, hwaited⟩ :=
    waitStatus_mpiWait h hsource hirecv hlive hm tag payload
  have hlast := List.getLast?_eq_some_getLast hlive
  rw [hlast, Option.map_some, Option.getD_some] at hstatus
  -- `MPI_Recv` keeps the status of the last call, `MPI_Wait` that of the first request
  have hrecv : t.status = ⟨source, tag⟩ ↔
      (s.liveWorkers (L.workers source)).getLast hlive = source ∧ 2 ^ 30 ∣ source + 1 := by
    rw [hstatus, RecvStatus.ofRecv, RecvStatus.mk.injEq, Int.natCast_inj]
    refine and_congr_right fun hrank ↦ ?_
    rw [hrank, setTag_eq_tag_iff]
  have hwaitTag : agg.waitStatus tag waited = some ⟨source, tag⟩ ↔ 2 ^ 30 ∣ first + 1 := by
    rw [hwaited, Option.some_inj, RecvStatus.mk.injEq, and_iff_right rfl, setTag_eq_tag_iff]
  constructor
  · rintro ⟨t', waited', ht', hwait', hstatus', hwaited'⟩
    obtain rfl := Except.ok.inj (ht'.symm.trans ht)
    obtain rfl := Except.ok.inj (hwait'.symm.trans hwait)
    obtain ⟨hrank, htag⟩ := hrecv.mp hstatus'
    refine ⟨hlast.trans (congrArg some hrank), htag, fun r hr ↦ ?_⟩
    rw [hfirst, Option.mem_some] at hr
    exact hr ▸ hwaitTag.mp hwaited'
  · intro hchance
    have hrank := Option.some_inj.mp (hlast.symm.trans hchance.last)
    exact ⟨t, waited, ht, hwait, hrecv.mpr ⟨hrank, hchance.lastTag⟩,
      hwaitTag.mpr (hchance.firstTag first hfirst)⟩

/-! ## What a program finds -/

/-- The last of four processes receives from job `0`, which has the workers `0` and `1`. -/
theorem not_sameStatus_two : ∃ agg m,
    mpiIrecv (Layout.twoReplicas.process [6, 7, 8, 9] 9) .zeros 0 (.ofBytes 1) 1 (fun _ ↦ 0)
      (fun _ ↦ [])
      = .ok (Layout.twoReplicas.process [6, 7, 8, 9] 9, agg, m) ∧
    ¬SameStatus Layout.twoReplicas (Layout.twoReplicas.process [6, 7, 8, 9] 9) 0 5 agg m
      (fun _ ↦ [5]) true [] .empty := by
  have hholds : (Layout.twoReplicas.process [6, 7, 8, 9] 9).Holds Layout.twoReplicas
      [6, 7, 8, 9] 9 := (Layout.process_shares Layout.twoReplicas rfl (by decide)).toHolds
  have hsource : 0 < Layout.twoReplicas.jobs.length := by decide
  obtain ⟨agg, m, hirecv, -⟩ := mpiIrecv_eq hholds hsource (.ofBytes 1) 1 .zeros fun _ ↦ 0
  refine ⟨agg, m, hirecv, fun h ↦ ?_⟩
  have hchance := (sameStatus_iff hholds rfl hsource hirecv (by decide)
    (allocated_of_mpiIrecv hirecv) 5 (fun _ ↦ [5]) true [] .empty).mp h
  exact absurd hchance.lastTag (by decide)

/-- `MPI_Recv` reports source `2` and tag `305`, and `MPI_Wait` source `1` and tag `305`, where the
user has received from job `1` under the tag `5`. -/
theorem not_sameStatus_single : ∃ agg m,
    mpiIrecv (Layout.twoReplicas.process [6, 7, 8, 9] 9) .zeros 1 (.ofBytes 1) 1 (fun _ ↦ 0)
      (fun _ ↦ [])
      = .ok (Layout.twoReplicas.process [6, 7, 8, 9] 9, agg, m) ∧
    ¬SameStatus Layout.twoReplicas (Layout.twoReplicas.process [6, 7, 8, 9] 9) 1 5 agg m
      (fun _ ↦ [5]) true [] .empty := by
  refine ⟨_, _, rfl, ?_⟩
  rintro ⟨t, waited, ht, -, hstatus, -⟩
  obtain rfl := Except.ok.inj ht
  exact absurd hstatus (by decide)

end AggregateRequest

end EntangledMPI
