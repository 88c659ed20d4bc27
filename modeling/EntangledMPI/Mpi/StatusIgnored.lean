import EntangledMPI.Mpi.Async

/-!
# Completing a receive without a status

With `MPI_STATUS_IGNORE`, `wait_for_agg_request` waits for all requests and frees the aggregate. The
copy from the staging area to the user's buffer is on the other path only.

## Main result

`sameCompletion_iff`: if the elements fit the staging area, the two ways to complete a receive from
a job do the same exactly when the job has one worker, or when the user's buffer holds already what
would be copied.
-/

namespace EntangledMPI

open CountingLoop

namespace AggregateRequest

/-! ## A receive without failures -/

section

variable {β : Type} {n : ℕ} {L : Layout n} {s : Process} {comm : Group} {p source count : ℕ}
  {datatype : TypeMap} {m m' : AsyncMemory β} {garbage : ℕ → β} {agg : AggregateRequest}

/-- The requests for some workers. -/
def requestsOf (s : Process) (workers : List ℕ) : List (Option ℕ) :=
  workers.map fun r ↦ if s.rankIgnoreList.entry r = 1 then none else some r

/-- **`MPI_Irecv` without failures** posts a receive for every worker that is not ignored. -/
theorem mpiIrecv_eq (h : s.Holds L comm p) (hsource : source < L.jobs.length)
    (datatype : TypeMap) (count : ℕ) (m : AsyncMemory β) (garbage : ℕ → β) :
    ∃ agg m', mpiIrecv s m source datatype count garbage (fun _ ↦ []) = .ok (s, agg, m') ∧
      agg.reqArray = requestsOf s (L.workers source) ∧
      agg.Posted (L.workers source).length datatype count := by
  obtain ⟨job, hjob, hcount, hranks⟩ := h.exists_job hsource
  -- the invariant: nothing is noted, and the workers so far have their requests
  have hturn : ∀ i < job.workerCount, ∀ t : Process × AggregateRequest,
      t.1 = s ∧ t.2.reqArray = requestsOf s ((L.workers source).take i) →
      ∃ t', Process.irecvTurn job (fun _ ↦ []) t i = .ok t' ∧
        t'.1 = s ∧ t'.2.reqArray = requestsOf s ((L.workers source).take (i + 1)) := by
    rintro i hi ⟨t, agg⟩ ⟨rfl, hreq⟩
    obtain ⟨rank, hrank, hget, hread⟩ := hranks i hi
    refine ⟨(t, { agg with
      nodeRank := agg.nodeRank ++ [rank]
      reqArray := agg.reqArray ++ requestsOf t [rank] }), ?_, rfl, ?_⟩
    · rw [Process.irecvTurn, hread, except_ok_bind, Process.postRecv, h.read_rankIgnoreList hrank]
      rfl
    · dsimp only at hreq ⊢
      rw [hreq, List.take_add_one, hget, requestsOf, requestsOf, requestsOf, ← List.map_append]
      rfl
  obtain ⟨⟨t, agg⟩, hloop, rfl, hreq⟩ := loop_rule_ok (fun i (t : Process × AggregateRequest) ↦
    t.1 = s ∧ t.2.reqArray = requestsOf s ((L.workers source).take i)) hturn
    (s := (s, (newAggRequest m datatype count job.workerCount garbage).1)) ⟨rfl, rfl⟩
  have hirecv : mpiIrecv t m source datatype count garbage (fun _ ↦ []) = .ok (t, agg,
      (newAggRequest m datatype count job.workerCount garbage).2.malloc .reqArray) := by
    rw [mpiIrecv, hjob, except_ok_bind]
    dsimp only
    rw [hloop]
    rfl
  refine ⟨agg, _, hirecv, ?_, posted_of_holds h hirecv⟩
  rw [hreq, hcount, List.take_length]

/-- The first worker that is not ignored. -/
def firstLive (s : Process) (workers : List ℕ) : ℕ :=
  workers.findIdx fun r ↦ s.rankIgnoreList.entry r ≠ 1

variable {payload : List β}

theorem getElem?_requestsOf {workers : List ℕ} {k r : ℕ} :
    (requestsOf s workers)[k]? = some (some r) ↔
      workers[k]? = some r ∧ s.rankIgnoreList.entry r ≠ 1 := by
  rw [requestsOf, List.getElem?_map, Option.map_eq_some_iff]
  constructor
  · rintro ⟨r', hget, hr⟩
    split at hr
    next => exact absurd hr (by simp)
    next hne =>
      obtain rfl := Option.some_inj.mp hr
      exact ⟨hget, hne⟩
  · rintro ⟨hget, hne⟩
    exact ⟨r, hget, if_neg hne⟩

theorem firstSuccess_firstLive (h : s.Holds L comm p)
    (hreq : agg.reqArray = requestsOf s (L.workers source))
    (hlive : ∃ r ∈ L.workers source, s.rankIgnoreList.entry r ≠ 1) (payload : List β) :
    (∃ r, agg.reqArray[firstLive s (L.workers source)]? = some (some r)) ∧
      s.firstSuccess (agg.statuses fun _ ↦ .arrived payload) 0
        = .ok (some (firstLive s (L.workers source), source)) := by
  obtain ⟨live, hmem, hne⟩ := hlive
  have hlt : firstLive s (L.workers source) < (L.workers source).length :=
    List.findIdx_lt_length.mpr ⟨live, hmem, decide_eq_true hne⟩
  have hfirst : s.rankIgnoreList.entry (L.workers source)[firstLive s (L.workers source)] ≠ 1 :=
    of_decide_eq_true (List.findIdx_getElem (w := hlt))
  have hrequest := getElem?_requestsOf.mpr ⟨List.getElem?_eq_getElem hlt, hfirst⟩
  rw [← hreq] at hrequest
  have hrank := List.getElem_mem hlt
  refine ⟨⟨_, hrequest⟩, Process.firstSuccess_eq_some_iff.mpr ⟨_,
    ⟨((L.workers source)[firstLive s (L.workers source)] : ℕ), false⟩, (Nat.zero_add _).symm, ?_,
    ⟨Int.natCast_nonneg _, rfl, _, ?_, hfirst⟩, ?_, ?_⟩⟩
  · rw [getElem?_statuses, hrequest]
    rfl
  · rw [Int.toNat_natCast]
    exact h.read_rankIgnoreList (Layout.lt_of_mem_workers hrank)
  · rw [Int.toNat_natCast]
    exact h.readRank2Job_eq hrank
  · -- the workers before it are ignored, and their requests null
    intro k hk status hstatus hnonneg
    have hignored : s.rankIgnoreList.entry (L.workers source)[k] = 1 := by
      simpa using List.not_of_lt_findIdx hk
    rw [getElem?_statuses, hreq, requestsOf, List.getElem?_map,
      List.getElem?_eq_getElem (hk.trans hlt), Option.map_some, if_pos hignored] at hstatus
    obtain rfl := Option.some_inj.mp hstatus
    exact absurd hnonneg (by simp [Completion.status, mpiAnySource])

/-! ## The two ways to complete it -/

/-- Every live worker's message has arrived, and `MPI_Wait` leaves the same behind with a status and
with `MPI_STATUS_IGNORE`: the user's buffer with the payload, `__request_pending` and the allocated
blocks. -/
def SameCompletion (agg : AggregateRequest) (s : Process) (m : AsyncMemory β) (payload : List β) :
    Prop :=
  ∃ ignored waited, mpiWaitIgnore agg m (fun _ ↦ .arrived payload) = .ok ignored ∧
    mpiWait agg s m (fun _ ↦ .arrived payload) [] = .ok waited ∧
    ignored.originalBuffer = waited.memory.originalBuffer ∧
    ignored.requestPending = waited.memory.requestPending ∧
    ignored.allocated = waited.memory.allocated ∧
    ignored.Holds agg.datatype payload ∧ waited.memory.Holds agg.datatype payload

/-- Without a status the staging area is lost. -/
theorem originalBuffer_receiveMemory {completion : ℕ → Completion β}
    (hstaged : agg.staged = decide (agg.requestCount ≠ 1)) :
    (agg.receiveMemory completion m).originalBuffer =
      if agg.requestCount = 1 then agg.receive completion m.originalBuffer
      else m.originalBuffer := by
  by_cases hcount : agg.requestCount = 1
  · simp [hcount, receiveMemory, hstaged]
  · simp [hcount, receiveMemory, hstaged]

theorem sameCompletion_iff_buffer (hne : agg.requestCount ≠ 0) (hm : agg.Allocated m) {i : ℕ}
    (hfound : s.firstSuccess (agg.statuses fun _ ↦ .arrived payload) 0
      = .ok (some (i, source))) :
    SameCompletion agg s m payload ↔
      (agg.receiveMemory (fun _ ↦ .arrived payload) m).originalBuffer
        = (agg.afterWait i (fun _ ↦ .arrived payload) m).originalBuffer ∧
      (agg.afterWait i (fun _ ↦ .arrived payload) m).Holds agg.datatype payload := by
  have htables : agg.tablesAfter s (fun _ ↦ Completion.arrived payload) [] = .ok s := by
    rw [tablesAfter]
    split <;> rfl
  have hignored : mpiWaitIgnore agg m (fun _ ↦ .arrived payload)
      = .ok (agg.released (agg.receiveMemory (fun _ ↦ .arrived payload) m)).completed :=
    mpiWaitIgnore_eq hne hm
  have hwait := (mpiWait_eq_ok_iff hne hm).mpr ⟨s, i, source, htables, hfound, rfl⟩
  constructor
  · rintro ⟨ignored, waited, hi, hw, hbuffer, -, -, -, hholds⟩
    obtain rfl := Except.ok.inj (hi.symm.trans hignored)
    obtain rfl := Except.ok.inj (hw.symm.trans hwait)
    exact ⟨hbuffer, hholds⟩
  · rintro ⟨hbuffer, hholds⟩
    refine ⟨_, _, hignored, hwait, hbuffer, ?_, ?_, ?_, hholds⟩
    · change (agg.receiveMemory _ m).requestPending - 1 = (agg.copySlot i _).requestPending - 1
      rw [requestPending_copySlot]
    · change (fun b ↦ (agg.receiveMemory _ m).allocated b - agg.blocks b)
        = fun b ↦ (agg.copySlot i _).allocated b - agg.blocks b
      rw [allocated_copySlot]
    · intro k hk
      exact (congrFun hbuffer _).trans (hholds k hk)

/-- **When the status does not matter**: with one worker, or if the user's buffer holds already what
the slot of the first live worker ends up with, the payload and behind it what was there. -/
theorem sameCompletion_iff (h : s.Holds L comm p) (hsource : source < L.jobs.length)
    (hirecv : mpiIrecv s m source datatype count garbage (fun _ ↦ []) = .ok (s, agg, m'))
    (hlive : ∃ r ∈ L.workers source, s.rankIgnoreList.entry r ≠ 1)
    (hfits : FitsStaging datatype count (L.workers source).length)
    (hpayload : payload.length ≤ datatype.size * count) {m₂ : AsyncMemory β}
    (hm : agg.Allocated m₂) :
    SameCompletion agg s m₂ payload ↔
      (L.workers source).length = 1 ∨ ∀ k < datatype.size * count,
        m₂.originalBuffer k = payload.getD k
          (m₂.tempBuffer (firstLive s (L.workers source) * (datatype.size * count) + k)) := by
  obtain ⟨agg', m'', hirecv', hreq, hposted⟩ := mpiIrecv_eq h hsource datatype count m garbage
  obtain rfl : agg' = agg := congrArg (fun x ↦ x.2.1) (Except.ok.inj (hirecv'.symm.trans hirecv))
  have hstaged : agg'.staged = decide (agg'.requestCount ≠ 1) := by
    rw [hposted.staged, hposted.requestCount]
  have hne : agg'.requestCount ≠ 0 := by
    rw [hposted.requestCount]
    exact fun hzero ↦ Layout.workers_ne_nil hsource (List.eq_nil_of_length_eq_zero hzero)
  obtain ⟨⟨r, hslot⟩, hfound⟩ := firstSuccess_firstLive h hreq hlive payload
  have hholds : (agg'.afterWait (firstLive s (L.workers source)) (fun _ ↦ .arrived payload)
      m₂).Holds agg'.datatype payload := by
    rw [hposted.datatype]
    exact holds_afterWait hposted hfits hpayload hslot rfl
  rw [sameCompletion_iff_buffer hne hm hfound, and_iff_left hholds,
    originalBuffer_afterWait _ hstaged, originalBuffer_receiveMemory hstaged,
    hposted.requestCount]
  by_cases hone : (L.workers source).length = 1
  · exact iff_of_true (by rw [if_pos hone, if_pos hone]) (Or.inl hone)
  · obtain ⟨hcontiguous, hint⟩ := hfits.resolve_right fun h ↦ hone h.1
    have hsize : agg'.bufferSize = datatype.size * count :=
      hposted.bufferSize.trans (stagedSize_of_lt hint)
    rw [if_neg hone, if_neg hone, or_iff_right hone, funext_iff, ← hsize]
    refine forall_congr' fun k ↦ ?_
    by_cases hk : k < agg'.bufferSize
    · rw [if_pos hk, receive_slot (hposted.datatype ▸ hcontiguous)
        (by rw [hsize, hposted.datatype, hposted.count]) hslot hk, Completion.bytes,
        List.take_of_length_le (hpayload.trans_eq hsize.symm), forall_prop_of_true hk]
    · rw [if_neg hk, forall_prop_of_false hk]
      simp

end

/-! ## A job with two workers -/

end AggregateRequest

/-- Job `0` has the workers `0` and `1`; two more jobs have one. -/
def Layout.twoReplicas : Layout 4 := ⟨[[0, 1], [2], [3]], by decide, by decide⟩

/-- The last process, before a receive into a buffer of zeros. -/
def AsyncMemory.zeros : AsyncMemory ℕ := ⟨fun _ ↦ 0, fun _ ↦ 0, fun _ ↦ 0, 0⟩

namespace AggregateRequest

/-- A receive from the job with one worker. -/
theorem sameCompletion_single : ∃ agg m,
    mpiIrecv (Layout.twoReplicas.process [6, 7, 8, 9] 9) .zeros 1 (.ofBytes 1) 1 (fun _ ↦ 0)
      (fun _ ↦ [])
      = .ok (Layout.twoReplicas.process [6, 7, 8, 9] 9, agg, m) ∧
    SameCompletion agg (Layout.twoReplicas.process [6, 7, 8, 9] 9) m [5] := by
  have hholds : (Layout.twoReplicas.process [6, 7, 8, 9] 9).Holds Layout.twoReplicas
      [6, 7, 8, 9] 9 := (Layout.process_shares Layout.twoReplicas rfl (by decide)).toHolds
  have hsource : 1 < Layout.twoReplicas.jobs.length := by decide
  obtain ⟨agg, m, hirecv, -⟩ := mpiIrecv_eq hholds hsource (.ofBytes 1) 1 .zeros fun _ ↦ 0
  exact ⟨agg, m, hirecv, (sameCompletion_iff hholds hsource hirecv ⟨2, by decide, by decide⟩
    (fitsStaging_ofBytes (by decide) _) (le_refl 1) (allocated_of_mpiIrecv hirecv)).mpr
      (Or.inl rfl)⟩

/-- **The message is lost.** Both workers of job `0` send `5`, and without a status the buffer keeps
its `0`. -/
theorem not_sameCompletion_twoReplicas : ∃ agg m,
    mpiIrecv (Layout.twoReplicas.process [6, 7, 8, 9] 9) .zeros 0 (.ofBytes 1) 1 (fun _ ↦ 0)
      (fun _ ↦ [])
      = .ok (Layout.twoReplicas.process [6, 7, 8, 9] 9, agg, m) ∧
    ¬SameCompletion agg (Layout.twoReplicas.process [6, 7, 8, 9] 9) m [5] := by
  refine ⟨_, _, rfl, ?_⟩
  rintro ⟨ignored, waited, hignored, -, -, -, -, hholds, -⟩
  obtain rfl := Except.ok.inj hignored
  exact absurd (hholds 0 (by decide)) (by decide)

end AggregateRequest

end EntangledMPI
