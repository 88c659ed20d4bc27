import EntangledMPI.Mpi.StatusIgnored

/-!
# Completing a receive after a shrink

A completed request reports the rank its sender had when the receive was posted. `MPI_Wait` looks
that rank up in `rank_ignore_list` and `rank_2_job`, which a shrink in between has rewritten for the
numbering of the smaller world.

## Main result

`waitSound_iff`: after any run between the two calls `MPI_Wait` ends at its first attempt, with a
payload and the right job, exactly when the tables say the right things about the old rank of one
worker: the first whose message has arrived and whose old rank is not marked as failed now.
-/

namespace EntangledMPI

open CountingLoop

/-! ## What `MPI_Irecv` has posted -/

namespace Process

variable {s s' : Process} {recvSource : ℕ} {failures : List Group} {request : Option ℕ}

theorem holds_of_postRecv {n : ℕ} {L : Layout n} {comm : Group} {p : ℕ} (hs : s.Holds L comm p)
    (hn : comm.length = n) (h : s.postRecv recvSource failures = .ok (s', request)) :
    s'.Holds L comm p := by
  induction failures generalizing s with
  | nil =>
    obtain ⟨ignored, -, h⟩ := except_bind_eq_ok.mp h
    obtain rfl : s = s' := congrArg Prod.fst (Except.ok.inj h)
    exact hs
  | cons acked failures ih =>
    obtain ⟨ignored, -, h⟩ := except_bind_eq_ok.mp h
    split at h
    next =>
      obtain rfl : s = s' := congrArg Prod.fst (Except.ok.inj h)
      exact hs
    next =>
      obtain ⟨s₂, hnote, h⟩ := except_bind_eq_ok.mp h
      obtain rfl := Except.ok.inj ((hs.noteFailures_eq hn acked).symm.trans hnote)
      exact ih (hs.noted acked) h

theorem eq_of_postRecv {r : ℕ} (h : s.postRecv recvSource failures = .ok (s', some r)) :
    r = recvSource := by
  induction failures generalizing s with
  | nil =>
    obtain ⟨ignored, -, h⟩ := except_bind_eq_ok.mp h
    have hpair := congrArg Prod.snd (Except.ok.inj h)
    dsimp only at hpair
    split at hpair
    next => exact absurd hpair (by simp)
    next => exact (Option.some_inj.mp hpair).symm
  | cons acked failures ih =>
    obtain ⟨ignored, -, h⟩ := except_bind_eq_ok.mp h
    split at h
    next => exact absurd (congrArg Prod.snd (Except.ok.inj h)) (by simp)
    next =>
      obtain ⟨s₂, -, h⟩ := except_bind_eq_ok.mp h
      exact ih h

end Process

namespace AggregateRequest

variable {β : Type} {agg : AggregateRequest}

/-- **`MPI_Irecv`** leaves the map of the process as it is, and posts receives for workers of the
job only. -/
theorem holds_of_mpiIrecv {n : ℕ} {L : Layout n} {comm : Group} {p : ℕ} {s s' : Process}
    {m m' : AsyncMemory β} {source : ℕ} {datatype : TypeMap} {count : ℕ} {garbage : ℕ → β}
    {failures : ℕ → List Group} (hs : s.Holds L comm p) (hn : comm.length = n)
    (hirecv : mpiIrecv s m source datatype count garbage failures = .ok (s', agg, m')) :
    s'.Holds L comm p ∧ ∀ k r : ℕ, agg.reqArray[k]? = some (some r) → r ∈ L.workers source := by
  obtain ⟨job, hjob, h⟩ := except_bind_eq_ok.mp hirecv
  obtain ⟨⟨t, agg'⟩, hloop, h⟩ := except_bind_eq_ok.mp h
  obtain rfl : t = s' := congrArg Prod.fst (Except.ok.inj h)
  obtain rfl : agg' = agg := congrArg (fun x ↦ x.2.1) (Except.ok.inj h)
  have hworkers : job.workers = L.workers source := by
    obtain ⟨hlt, rfl⟩ := List.getElem?_eq_some_iff.mp (getElem?_of_readAt hjob)
    exact hs.workers_getElem hlt
  refine loop_rule_of_ok (fun _ t ↦ t.1.Holds L comm p ∧
    ∀ k r : ℕ, t.2.reqArray[k]? = some (some r) → r ∈ L.workers source) ?_
    ⟨hs, fun k r hk ↦ absurd hk (by simp)⟩ hloop
  rintro i hi t t' ⟨hholds, hmem⟩ hturn
  obtain ⟨recvSource, hread, hturn⟩ := except_bind_eq_ok.mp hturn
  obtain ⟨⟨s'', request⟩, hpost, hturn⟩ := except_bind_eq_ok.mp hturn
  obtain rfl := Except.ok.inj hturn
  refine ⟨Process.holds_of_postRecv hholds hn hpost, fun k r hk ↦ ?_⟩
  rcases List.mem_append.mp (List.mem_of_getElem? hk) with hold | hnew
  · obtain ⟨k', hk'⟩ := List.getElem?_of_mem hold
    exact hmem k' r hk'
  · rw [← List.mem_singleton.mp hnew] at hpost
    rw [Process.eq_of_postRecv hpost, ← hworkers]
    refine List.mem_of_getElem? (i := i) ?_
    rw [Job.workers, List.getElem?_take_of_lt hi]
    exact getElem?_of_readAt hread

/-! ## The request that is taken -/

/-- The rank `r` is marked as failed, before `MPI_Wait` or by the handler in it. -/
def Marked (agg : AggregateRequest) (s : Process) (completion : ℕ → Completion β)
    (noted : List Group) (r : ℕ) : Prop :=
  s.rankIgnoreList.entry r = 1 ∨
    agg.someFailed completion = true ∧ ∃ acked ∈ noted, some r ∈ s.rankFailedNodesInWorld acked

/-- Request `k`, for the rank `r`, is the first one with a message and a rank that is not marked. -/
structure Takes (agg : AggregateRequest) (completion : ℕ → Completion β) (marked : ℕ → Prop)
    (k r : ℕ) : Prop where
  request : agg.reqArray[k]? = some (some r)
  arrived : ∃ payload, completion k = .arrived payload
  unmarked : ¬marked r
  before : ∀ k' < k, ∀ r' payload, agg.reqArray[k']? = some (some r') →
    completion k' = .arrived payload → marked r'

/-- What `MPI_Wait` is to do: it ends at its first attempt, the user's buffer holds the payload of a
worker whose message has arrived, and the status has the job of the `MPI_Irecv`. -/
def WaitSound (agg : AggregateRequest) (s : Process) (m : AsyncMemory β)
    (completion : ℕ → Completion β) (noted : List Group) (source : ℕ) : Prop :=
  ∃ waited r payload, mpiWait agg s m completion noted = .ok waited ∧ waited.attempts = 1 ∧
    agg.reqArray[waited.waIndex]? = some (some r) ∧
    completion waited.waIndex = .arrived payload ∧ waited.memory.Holds agg.datatype payload ∧
    waited.source = some source

variable {s : Process} {completion : ℕ → Completion β}

theorem counts_status_iff {k : ℕ} {request : Option ℕ}
    (hsize : ∀ r, request = some r → r < s.rankIgnoreList.size) :
    s.Counts ((completion k).status request) ↔
      ∃ r, request = some r ∧ (∃ payload, completion k = .arrived payload) ∧
        s.rankIgnoreList.entry r ≠ 1 := by
  cases request with
  | none => simp [Process.Counts, Completion.status, mpiAnySource]
  | some r =>
    cases hk : completion k with
    | arrived q => simp [Process.Counts, Completion.status, Table.read, hsize r rfl]
    | failed source left => simp [Process.Counts, Completion.status]

theorem passesOver_status_iff {k : ℕ} {request : Option ℕ}
    (hsize : ∀ r, request = some r → r < s.rankIgnoreList.size) :
    s.PassesOver ((completion k).status request) ↔
      ∀ r payload, request = some r → completion k = .arrived payload →
        s.rankIgnoreList.entry r = 1 := by
  cases request with
  | none => simp [Process.PassesOver, Completion.status, mpiAnySource]
  | some r =>
    cases hk : completion k with
    | arrived q => simp [Process.PassesOver, Completion.status, Table.read, hsize r rfl]
    | failed source left => simp [Process.PassesOver, Completion.status]

/-- The loop over the statuses in terms of the requests. -/
theorem firstSuccess_statuses_iff
    (hsize : ∀ k r : ℕ, agg.reqArray[k]? = some (some r) → r < s.rankIgnoreList.size)
    {k source : ℕ} : s.firstSuccess (agg.statuses completion) 0 = .ok (some (k, source)) ↔
      ∃ r, agg.Takes completion (fun r ↦ s.rankIgnoreList.entry r = 1) k r ∧
        readRank2Job s.rank2Job r = .ok source := by
  rw [Process.firstSuccess_eq_some_iff]
  -- a status counts if its request has got a message of an unmarked rank
  constructor
  · rintro ⟨k', status, hk, hget, hcounts, hjob, hbefore⟩
    obtain rfl : k = k' := by omega
    rw [getElem?_statuses, Option.map_eq_some_iff] at hget
    obtain ⟨request, hrequest, rfl⟩ := hget
    obtain ⟨r, rfl, ⟨payload, harrived⟩, hunmarked⟩ :=
      (counts_status_iff fun r hr ↦ hsize k r (hr ▸ hrequest)).mp hcounts
    refine ⟨r, ⟨hrequest, ⟨payload, harrived⟩, hunmarked, ?_⟩, ?_⟩
    · intro k' hk' r' payload' hrequest' harrived'
      have hpass := hbefore k' hk' _ (by rw [getElem?_statuses, hrequest', Option.map_some])
      exact (passesOver_status_iff fun r hr ↦ hsize k' r (hr ▸ hrequest')).mp hpass r' payload' rfl
        harrived'
    · rwa [harrived, Completion.status, Int.toNat_natCast] at hjob
  · rintro ⟨r, ⟨hrequest, ⟨payload, harrived⟩, hunmarked, hbefore⟩, hjob⟩
    refine ⟨k, (completion k).status (some r), (Nat.zero_add k).symm, ?_,
      (counts_status_iff fun r' hr ↦ hsize k r' (hr ▸ hrequest)).mpr
        ⟨r, rfl, ⟨payload, harrived⟩, hunmarked⟩, ?_, ?_⟩
    · rw [getElem?_statuses, hrequest, Option.map_some]
    · rwa [harrived, Completion.status, Int.toNat_natCast]
    · intro k' hk' status hget
      rw [getElem?_statuses, Option.map_eq_some_iff] at hget
      obtain ⟨request, hrequest', rfl⟩ := hget
      refine (passesOver_status_iff fun r hr ↦ hsize k' r (hr ▸ hrequest')).mpr ?_
      rintro r' payload' rfl harrived'
      exact hbefore k' hk' r' payload' hrequest' harrived'

end AggregateRequest

/-! ## The handler in `PMPI_Waitall` -/

theorem Process.noteAll_eq {n : ℕ} {L : Layout n} {s : Process} {comm : Group} {p : ℕ}
    (h : s.Holds L comm p) (hn : comm.length = n) (noted : List Group) :
    ∃ s', s.noteAll noted = .ok s' ∧ s'.rank2Job = s.rank2Job ∧
      s'.rankIgnoreList.size = s.rankIgnoreList.size ∧ ∀ r, s'.rankIgnoreList.entry r = 1 ↔
        s.rankIgnoreList.entry r = 1 ∨
          ∃ acked ∈ noted, some r ∈ s.rankFailedNodesInWorld acked := by
  induction noted generalizing s with
  | nil => exact ⟨s, rfl, rfl, rfl, fun r ↦ by simp⟩
  | cons acked noted ih =>
    obtain ⟨s', hs', hjob, hsize, hentry⟩ := ih (h.noted acked)
    refine ⟨s', ?_, hjob, hsize, fun r ↦ ?_⟩
    · rw [Process.noteAll, List.foldlM_cons, h.noteFailures_eq hn acked, except_ok_bind]
      exact hs'
    · have hmarked : (s.noted acked).rankIgnoreList.entry r = 1 ↔
          s.rankIgnoreList.entry r = 1 ∨ some r ∈ s.rankFailedNodesInWorld acked := by
        rw [Process.noted, Table.fill]
        dsimp only
        split
        next hr => exact iff_of_true rfl (Or.inr (by simpa using hr))
        next hr => exact (or_iff_left (by simpa using hr)).symm
      rw [hentry r, hmarked, or_assoc, List.exists_mem_cons_iff]
      exact Iff.rfl

namespace AggregateRequest

variable {β : Type} {agg : AggregateRequest} {s : Process} {completion : ℕ → Completion β}

theorem tablesAfter_eq {n : ℕ} {L : Layout n} {comm : Group} {p : ℕ} (agg : AggregateRequest)
    (completion : ℕ → Completion β) (h : s.Holds L comm p) (hn : comm.length = n)
    (noted : List Group) :
    ∃ s', agg.tablesAfter s completion noted = .ok s' ∧ s'.rank2Job = s.rank2Job ∧
      s'.rankIgnoreList.size = s.rankIgnoreList.size ∧
      ∀ r, s'.rankIgnoreList.entry r = 1 ↔ agg.Marked s completion noted r := by
  rw [tablesAfter]
  split
  next hfailed =>
    obtain ⟨s', hs', hjob, hsize, hentry⟩ := Process.noteAll_eq h hn noted
    refine ⟨s', hs', hjob, hsize, fun r ↦ (hentry r).trans ?_⟩
    rw [Marked, and_iff_right hfailed]
  next hfailed =>
    refine ⟨s, rfl, rfl, rfl, fun r ↦ ?_⟩
    rw [Marked, or_iff_left fun h ↦ hfailed h.1]

/-- `MPI_Wait` in terms of the tables it finds. -/
theorem waitSound_iff_tables {m : AsyncMemory β} {workerCount : ℕ} {datatype : TypeMap}
    {count source : ℕ} (hposted : agg.Posted workerCount datatype count) (hm : agg.Allocated m)
    (hfits : FitsStaging datatype count workerCount)
    (hpayload : ∀ k payload, completion k = .arrived payload →
      payload.length ≤ datatype.size * count)
    {noted : List Group} {s' : Process} (htables : agg.tablesAfter s completion noted = .ok s')
    (hsize : ∀ k r : ℕ, agg.reqArray[k]? = some (some r) → r < s'.rankIgnoreList.size) :
    WaitSound agg s m completion noted source ↔
      ∃ k r, agg.Takes completion (fun r ↦ s'.rankIgnoreList.entry r = 1) k r ∧
        readRank2Job s'.rank2Job r = .ok source := by
  by_cases hne : agg.requestCount = 0
  · -- without a request there is no attempt
    refine iff_of_false ?_ ?_
    · rintro ⟨waited, r, payload, hwait, hattempts, -⟩
      rw [mpiWait, waitForAggRequest, if_pos hne] at hwait
      obtain rfl := Except.ok.inj hwait
      exact absurd hattempts Nat.zero_ne_one
    · rintro ⟨k, r, htakes, -⟩
      have hlt := (List.getElem?_eq_some_iff.mp htakes.request).1
      rw [hposted.length, ← hposted.requestCount] at hlt
      omega
  · constructor
    · rintro ⟨waited, r, payload, hwait, -, -, -, -, hsource⟩
      obtain ⟨s'', k, source', htables', hfound, rfl⟩ := (mpiWait_eq_ok_iff hne hm).mp hwait
      obtain rfl := Except.ok.inj (htables.symm.trans htables')
      obtain rfl := Option.some_inj.mp hsource
      obtain ⟨r, htakes, hread⟩ := (firstSuccess_statuses_iff hsize).mp hfound
      exact ⟨k, r, htakes, hread⟩
    · rintro ⟨k, r, htakes, hread⟩
      have hfound := (firstSuccess_statuses_iff hsize).mpr ⟨r, htakes, hread⟩
      obtain ⟨payload, harrived⟩ := htakes.arrived
      refine ⟨_, r, payload, (mpiWait_eq_ok_iff hne hm).mpr ⟨s', k, source, htables, hfound, rfl⟩,
        rfl, htakes.request, harrived, ?_, rfl⟩
      rw [hposted.datatype]
      exact holds_afterWait hposted hfits (hpayload k payload harrived) htakes.request harrived

/-- The job that `rank_2_job` has for a rank. -/
def jobOfRank (s : Process) (r : ℕ) : Option ℕ := s.rank2Job.map fun table ↦ table.entry r

/-- **When `MPI_Wait` is right about a message**, in any run: the first worker whose message has
arrived and whose rank of the `MPI_Irecv` is not marked has as that rank one which `rank_2_job` now
gives to the source job. -/
theorem waitSound_iff {w₁ w₂ : World} {L₁ : Layout w₁.comm.length} (hcomm : w₁.comm.Nodup)
    (hw₁ : w₁.Holds L₁) {p : ℕ} (hp₁ : p ∈ w₁.comm) {m₁ m₁' : AsyncMemory β} {s₁ : Process}
    {source : ℕ} {datatype : TypeMap} {count : ℕ} {garbage : ℕ → β} {failures : ℕ → List Group}
    (hirecv : mpiIrecv (w₁.proc p) m₁ source datatype count garbage failures = .ok (s₁, agg, m₁'))
    (hfits : FitsStaging datatype count (L₁.workers source).length)
    (hrun : Relation.ReflTransGen World.TablesStep (w₁.withProc p s₁) w₂) (hp₂ : p ∈ w₂.comm)
    {m₂ : AsyncMemory β} (hm : agg.Allocated m₂)
    (hpayload : ∀ k payload, completion k = .arrived payload →
      payload.length ≤ datatype.size * count)
    (noted : List Group) :
    WaitSound agg (w₂.proc p) m₂ completion noted source ↔
      ∃ k r, agg.Takes completion (agg.Marked (w₂.proc p) completion noted) k r ∧
        jobOfRank (w₂.proc p) r = some source := by
  obtain ⟨hs₁, hworkers⟩ := holds_of_mpiIrecv (hw₁ p hp₁) rfl hirecv
  have hwithin := ((World.Holds.withProc hw₁ hs₁).within hcomm).run hrun
  obtain ⟨L₂, hL₂⟩ := hwithin.holds (List.ne_nil_of_mem hp₂)
  obtain ⟨s', htables, hjob, hsize, hmarked⟩ :=
    tablesAfter_eq agg completion (hL₂ p hp₂) rfl noted
  have hlt : ∀ k r : ℕ, agg.reqArray[k]? = some (some r) → r < w₁.comm.length :=
    fun k r hk ↦ Layout.lt_of_mem_workers (hworkers k r hk)
  obtain ⟨⟨table, htable, htableSize⟩, hignoreSize⟩ := hwithin.covers p hp₂
  have hposted := posted_of_holds (hw₁ p hp₁) hirecv
  rw [waitSound_iff_tables hposted hm hfits hpayload htables
    fun k r hk ↦ hsize.symm ▸ (hlt k r hk).trans_le hignoreSize]
  simp only [hmarked]
  refine exists₂_congr fun k r ↦ and_congr_right fun htakes ↦ ?_
  rw [hjob, htable, readRank2Job,
    Table.read_of_lt ((hlt k r htakes.request).trans_le htableSize), jobOfRank, htable,
    Option.map_some]
  simp

/-- **With the numbers of then**, one message from a rank that is not marked is enough. -/
theorem takes_of_holds {n : ℕ} {L : Layout n} {comm : Group} {p source : ℕ} {s : Process}
    (h : s.Holds L comm p)
    (hworkers : ∀ k r : ℕ, agg.reqArray[k]? = some (some r) → r ∈ L.workers source)
    {noted : List Group} (hlive : ∃ k r payload, agg.reqArray[k]? = some (some r) ∧
      completion k = .arrived payload ∧ ¬agg.Marked s completion noted r) :
    ∃ k r, agg.Takes completion (agg.Marked s completion noted) k r ∧
      jobOfRank s r = some source := by
  classical
  obtain ⟨r, payload, hrequest, harrived, hfree⟩ := Nat.find_spec hlive
  refine ⟨Nat.find hlive, r, ⟨hrequest, ⟨payload, harrived⟩, hfree, ?_⟩, ?_⟩
  · intro k' hk' r' payload' hrequest' harrived'
    by_contra hfree'
    exact Nat.find_min hlive hk' ⟨r', payload', hrequest', harrived', hfree'⟩
  · obtain ⟨table, htable, -, hentry⟩ := h.rank2Job
    rw [jobOfRank, htable, Option.map_some, hentry _ _ (hworkers _ _ hrequest)]

end AggregateRequest

/-! ## Two shrinks -/

/-- Job `0` has the processes `6` and `7`; jobs `1` and `2` have `8` and `9`. -/
def World.twoReplicas : World := ⟨[6, 7, 8, 9], Layout.twoReplicas.process [6, 7, 8, 9]⟩

namespace AggregateRequest

/-- `9` receives from job `0`, whose replica `7` dies before it has sent. -/
theorem waitSound_secondDies : ∃ s agg m,
    mpiIrecv (World.twoReplicas.proc 9) .zeros 0 (.ofBytes 1) 1 (fun _ ↦ 0) (fun _ ↦ [])
      = .ok (s, agg, m) ∧
    WaitSound agg (((World.twoReplicas.withProc 9 s).shrink (fun p ↦ p ≠ 7) fun _ ↦ [7]).proc 9) m
      (fun k ↦ if k = 0 then .arrived [5] else .failed 1 []) [[7]] 0 := by
  have hirecv : ∃ s agg m, mpiIrecv (World.twoReplicas.proc 9) .zeros 0 (.ofBytes 1) 1 (fun _ ↦ 0)
      (fun _ ↦ []) = .ok (s, agg, m) ∧ s = World.twoReplicas.proc 9 ∧
        agg.reqArray = [some 0, some 1] := ⟨_, _, _, rfl, rfl, rfl⟩
  obtain ⟨s, agg, m, hirecv, rfl, hrequests⟩ := hirecv
  refine ⟨_, agg, m, hirecv, ?_⟩
  have hrun : World.Shrinks (World.twoReplicas.withProc 9 (World.twoReplicas.proc 9))
      ((World.twoReplicas.withProc 9 (World.twoReplicas.proc 9)).shrink (fun p ↦ p ≠ 7)
        fun _ ↦ [7]) := by
    refine ⟨_, _, ?_, rfl⟩
    intro p hp
    have hp' : p = 6 ∨ p = 8 ∨ p = 9 := by simpa [World.withProc, World.twoReplicas] using hp
    rcases hp' with rfl | rfl | rfl
    · exact ⟨_, rfl⟩
    · exact ⟨_, rfl⟩
    · exact ⟨_, rfl⟩
  refine (waitSound_iff (by decide)
    (fun _ hp ↦ (Layout.process_shares Layout.twoReplicas rfl hp).toHolds) (by decide) hirecv
    (fitsStaging_ofBytes (by decide) _) (Relation.ReflTransGen.single (.shrinks hrun)) (by decide)
    (allocated_of_mpiIrecv hirecv) ?_ _).mpr
      ⟨0, 0, ⟨by rw [hrequests]; rfl, ⟨[5], rfl⟩, ?_, ?_⟩, rfl⟩
  · intro k payload harrived
    split at harrived
    next =>
      obtain rfl := Completion.arrived.inj harrived
      exact le_refl 1
    next => exact absurd harrived (by simp)
  · rintro (hentry | ⟨-, acked, hacked, hmem⟩)
    · exact absurd hentry (by decide)
    · obtain rfl := List.mem_singleton.mp hacked
      exact absurd hmem (by decide)
  · exact fun k' hk' ↦ absurd hk' (Nat.not_lt_zero k')

/-- **The rank of then is another job's now.** `9` receives from job `1`, and `6` dies: the message
from rank `2` has arrived, and rank `2` of the smaller world is `9` itself. -/
theorem not_waitSound_firstDies : ∃ s agg m,
    mpiIrecv (World.twoReplicas.proc 9) .zeros 1 (.ofBytes 1) 1 (fun _ ↦ 0) (fun _ ↦ [])
      = .ok (s, agg, m) ∧
    World.TablesStep (World.twoReplicas.withProc 9 s)
      ((World.twoReplicas.withProc 9 s).shrink (fun p ↦ p ≠ 6) fun _ ↦ [6]) ∧
    ¬WaitSound agg (((World.twoReplicas.withProc 9 s).shrink (fun p ↦ p ≠ 6) fun _ ↦ [6]).proc 9) m
      (fun _ ↦ .arrived [5]) [] 1 := by
  refine ⟨_, _, _, rfl, .shrinks ⟨_, _, ?_, rfl⟩, ?_⟩
  · intro p hp
    have hp' : p = 7 ∨ p = 8 ∨ p = 9 := by simpa [World.withProc, World.twoReplicas] using hp
    rcases hp' with rfl | rfl | rfl
    · exact ⟨_, rfl⟩
    · exact ⟨_, rfl⟩
    · exact ⟨_, rfl⟩
  · rintro ⟨waited, r, payload, hwait, -, -, -, -, hsource⟩
    obtain rfl := Except.ok.inj hwait
    exact absurd hsource (by decide)

end AggregateRequest

end EntangledMPI
