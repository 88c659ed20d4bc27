import EntangledMPI.Mpi.IgnoreMarks
import EntangledMPI.Mpi.PointToPoint
import Mathlib.Data.List.ReduceOption

/-!
# A receive and its completion while processes fail

`MPI_Irecv` meets failures when it posts, and `MPI_Wait` when it completes. Both note them and go
on. What they leave is described here by what a process knows: it has the map, and marks only the
dead.

## Main results

- `World.Knows.mpiIrecv`: there is a request for every worker of the job that is not ignored
- `World.Knows.of_mpiWait`: the buffer holds the message of a worker that is still not ignored
- `World.Knows.exists_mpiWait`: one message of a worker that lives is enough
-/

namespace EntangledMPI

open CountingLoop

/-- The process of rank `p` has the map, and only the dead are marked. -/
structure World.Knows (w : World) (L : Layout w.comm.length) (failed : ℕ → Bool) (p : ℕ)
    (s : Process) : Prop where
  shares : s.Shares L w.comm (w.procAt p)
  marks : s.MarksFailed (fun q ↦ failed q = true) w.comm

/-- It may have noted that others have died, and has forgotten nothing. -/
structure World.Learns (w : World) (L : Layout w.comm.length) (failed : ℕ → Bool) (p : ℕ)
    (s s' : Process) : Prop where
  knows : w.Knows L failed p s'
  marked : ∀ q, s.rankIgnoreList.entry q = 1 → s'.rankIgnoreList.entry q = 1

theorem Process.entry_noted_of_marked {s : Process} {acked : Group} {q : ℕ}
    (h : s.rankIgnoreList.entry q = 1) : (s.noted acked).rankIgnoreList.entry q = 1 := by
  by_cases hq : q ∈ (s.rankFailedNodesInWorld acked).filterMap id
  · exact Table.entry_fill_of_mem _ hq 1
  · exact (Table.entry_fill_of_notMem _ hq 1).trans h

theorem Process.Shares.entry_noted_self {n : ℕ} {L : Layout n} {s : Process} {p : ℕ} {w : World}
    (h : s.Shares L w.comm p) (hnodup : w.comm.Nodup) {q : ℕ} (hq : q < w.comm.length)
    {acked : Group} (hacked : w.procAt q ∈ acked) :
    (s.noted acked).rankIgnoreList.entry q = 1 := by
  refine Table.entry_fill_of_mem _ (mem_rankFailedNodesInWorld.mpr ⟨_, hacked, ?_⟩) 1
  rw [h.comm]
  refine ⟨World.procAt_mem hq, ?_⟩
  have hmem := World.procAt_mem hq
  exact ((List.getElem?_inj hq hnodup).mp
    ((World.getElem?_comm hq).trans (List.getElem?_idxOf hmem).symm)).symm

/-! ## Requests and workers -/

namespace AggregateRequest

/-- Every worker has its request, unless `s` ignores it. -/
def Covers (agg : AggregateRequest) (workers : List ℕ) (s : Process) : Prop :=
  List.Forall₂ (fun q request ↦ request = some q ∨
    request = none ∧ s.rankIgnoreList.entry q = 1) workers agg.reqArray

variable {agg : AggregateRequest} {workers : List ℕ} {s s' : Process} {k q : ℕ}

theorem Covers.mono (h : agg.Covers workers s)
    (hmarked : ∀ q, s.rankIgnoreList.entry q = 1 → s'.rankIgnoreList.entry q = 1) :
    agg.Covers workers s' :=
  List.Forall₂.imp (fun q _ hq ↦ hq.imp_right (And.imp_right (hmarked q))) h

theorem Covers.worker (h : agg.Covers workers s) (hk : agg.reqArray[k]? = some (some q)) :
    workers[k]? = some q := by
  obtain ⟨hlength, hget⟩ := List.forall₂_iff_get.mp h
  obtain ⟨hlt, hk⟩ := List.getElem?_eq_some_iff.mp hk
  rw [List.getElem?_eq_getElem (hlength ▸ hlt)]
  obtain hq | ⟨hnone, -⟩ := hget k (hlength ▸ hlt) hlt
  · exact Option.some_inj.mpr (Option.some_inj.mp (hq.symm.trans hk))
  · exact absurd (hk.symm.trans hnone) (by simp)

theorem Covers.request (h : agg.Covers workers s) (hk : workers[k]? = some q)
    (hunmarked : s.rankIgnoreList.entry q ≠ 1) : agg.reqArray[k]? = some (some q) := by
  obtain ⟨hlength, hget⟩ := List.forall₂_iff_get.mp h
  obtain ⟨hlt, rfl⟩ := List.getElem?_eq_some_iff.mp hk
  rw [List.getElem?_eq_getElem (hlength ▸ hlt)]
  obtain hq | ⟨-, hmark⟩ := hget k hlt (hlength ▸ hlt)
  · exact congrArg some hq
  · exact absurd hmark hunmarked

theorem Covers.sublist (h : agg.Covers workers s) : agg.reqArray.reduceOption.Sublist workers := by
  rw [Covers] at h
  generalize agg.reqArray = requests at h
  induction h with
  | nil => exact .slnil
  | cons hq _ ih =>
    obtain rfl | ⟨rfl, -⟩ := hq
    · exact ih.cons_cons _
    · exact ih.cons _

/-- The senders and PMPI tags of the receives that have been posted. -/
def channels (agg : AggregateRequest) (tag : UserTag) : List (ℕ × ℤ) :=
  agg.reqArray.reduceOption.map fun q ↦ (q, setTag q tag)

theorem mem_channels {tag tag' : UserTag} :
    (q, setTag q tag') ∈ agg.channels tag ↔ some q ∈ agg.reqArray ∧ tag' = tag := by
  rw [channels, List.mem_map]
  constructor
  · rintro ⟨q', hq', hc⟩
    obtain ⟨rfl, htag⟩ := Prod.mk.inj hc
    exact ⟨List.reduceOption_mem_iff.mp hq', (setTag_injective _ htag).symm⟩
  · rintro ⟨hq, rfl⟩
    exact ⟨q, List.reduceOption_mem_iff.mpr hq, rfl⟩

/-- A worker that is not ignored has one receive more, under the tag of the `MPI_Irecv`. -/
theorem Covers.count_channels (h : agg.Covers workers s) (hnodup : workers.Nodup)
    (hunmarked : s.rankIgnoreList.entry q ≠ 1) {tag tag' : UserTag} :
    (agg.channels tag).count (q, setTag q tag')
      = if q ∈ workers ∧ tag' = tag then 1 else 0 := by
  split
  next hq =>
    obtain ⟨k, hk⟩ := List.mem_iff_getElem?.mp hq.1
    refine List.count_eq_one_of_mem ((h.sublist.nodup hnodup).map fun q q' hc ↦
      (Prod.mk.inj hc).1) (mem_channels.mpr ⟨?_, hq.2⟩)
    exact List.mem_of_getElem? (h.request hk hunmarked)
  next hq =>
    refine List.count_eq_zero.mpr fun hmem ↦ hq ?_
    obtain ⟨hrequest, htag⟩ := mem_channels.mp hmem
    exact ⟨h.sublist.subset (List.reduceOption_mem_iff.mpr hrequest), htag⟩

end AggregateRequest

namespace World

variable {w : World} {L : Layout w.comm.length} {failed failed' : ℕ → Bool} {p q : ℕ}
  {s s' s'' : Process} {acked : Group}

theorem Learns.trans (h : w.Learns L failed p s s') (h' : w.Learns L failed p s' s'') :
    w.Learns L failed p s s'' :=
  ⟨h'.knows, fun q hq ↦ h'.marked q (h.marked q hq)⟩

theorem Learns.unmarked (h : w.Learns L failed p s s') (hq : s'.rankIgnoreList.entry q ≠ 1) :
    s.rankIgnoreList.entry q ≠ 1 :=
  fun hmark ↦ hq (h.marked q hmark)

namespace Knows

theorem learns (h : w.Knows L failed p s) : w.Learns L failed p s s := ⟨h, fun _ ↦ id⟩

theorem mono (h : w.Knows L failed p s) (hfailed : ∀ q, failed q = true → failed' q = true) :
    w.Knows L failed' p s :=
  ⟨h.shares, h.marks.mono hfailed⟩

/-- Who lives is not ignored. -/
theorem unmarked (h : w.Knows L failed p s) (hq : q < w.comm.length)
    (hlive : failed (w.procAt q) = false) : s.rankIgnoreList.entry q ≠ 1 := by
  intro hmark
  rw [h.marks q _ (getElem?_comm hq) hmark] at hlive
  exact absurd hlive (by simp)

theorem rank_eq (h : w.Knows L failed p s) (hnodup : w.comm.Nodup) (hp : p < w.comm.length) :
    s.node.rank = p :=
  ((List.getElem?_inj hp hnodup).mp
    ((getElem?_comm hp).trans h.shares.rank.symm)).symm

theorem noted (h : w.Knows L failed p s) (hacked : ∀ dead ∈ acked, failed dead = true) :
    w.Learns L failed p s (s.noted acked) :=
  ⟨⟨h.shares.noted acked, h.marks.noted h.shares.toHolds hacked⟩,
    fun _ ↦ Process.entry_noted_of_marked⟩

theorem noteFailures (h : w.Knows L failed p s) (hacked : ∀ dead ∈ acked, failed dead = true)
    (hnote : s.noteFailures acked = .ok s') :
    w.Learns L failed p s s' ∧ (w.comm.Nodup → q < w.comm.length → w.procAt q ∈ acked →
      s'.rankIgnoreList.entry q = 1) := by
  obtain rfl := Except.ok.inj ((h.shares.noteFailures_eq rfl acked).symm.trans hnote)
  exact ⟨h.noted hacked, fun hnodup hq ↦ h.shares.entry_noted_self hnodup hq⟩

/-! ## `MPI_Irecv` -/

theorem postRecv (h : w.Knows L failed p s) (hq : q < w.comm.length) {failures : List Group}
    {request : Option ℕ} (hacked : ∀ acked ∈ failures, ∀ dead ∈ acked, failed dead = true)
    (hpost : s.postRecv q failures = .ok (s', request)) :
    w.Learns L failed p s s' ∧
      (request = some q ∨ request = none ∧ s'.rankIgnoreList.entry q = 1) := by
  induction failures generalizing s with
  | nil =>
    rw [Process.postRecv, h.shares.read_rankIgnoreList hq, except_ok_bind] at hpost
    obtain ⟨rfl, rfl⟩ := Prod.mk.inj (Except.ok.inj hpost)
    refine ⟨h.learns, ?_⟩
    split
    next hmark => exact Or.inr ⟨rfl, hmark⟩
    next => exact Or.inl rfl
  | cons acked failures ih =>
    obtain ⟨hfirst, hacked⟩ := List.forall_mem_cons.mp hacked
    rw [Process.postRecv, h.shares.read_rankIgnoreList hq, except_ok_bind] at hpost
    split at hpost
    next hmark =>
      obtain ⟨rfl, rfl⟩ := Prod.mk.inj (Except.ok.inj hpost)
      exact ⟨h.learns, Or.inr ⟨rfl, hmark⟩⟩
    next =>
      rw [h.shares.noteFailures_eq rfl acked, except_ok_bind] at hpost
      obtain ⟨hlearns, hrequest⟩ := ih (h.noted hfirst).knows hacked hpost
      exact ⟨(h.noted hfirst).trans hlearns, hrequest⟩

variable {β : Type} {m m' : AsyncMemory β} {source count : ℕ} {datatype : TypeMap}
  {garbage : ℕ → β} {failures : ℕ → List Group} {agg : AggregateRequest}

/-- **`MPI_Irecv`** leaves a request for every worker that is not ignored by then. -/
theorem mpiIrecv (h : w.Knows L failed p s)
    (hacked : ∀ i, ∀ acked ∈ failures i, ∀ dead ∈ acked, failed dead = true)
    (hirecv : AggregateRequest.mpiIrecv s m source datatype count garbage failures
      = .ok (s', agg, m')) :
    w.Learns L failed p s s' ∧ agg.Posted (L.workers source).length datatype count ∧
      agg.Allocated m' ∧ agg.Covers (L.workers source) s' := by
  have hallocated := AggregateRequest.allocated_of_mpiIrecv hirecv
  have hposted := AggregateRequest.posted_of_holds h.shares.toHolds hirecv
  obtain ⟨job, hjob, -⟩ := AggregateRequest.posted_of_mpiIrecv hirecv
  obtain ⟨hlt, rfl⟩ := List.getElem?_eq_some_iff.mp hjob
  have hworkers := h.shares.workers_getElem hlt
  have halloc := h.shares.allocated _ (List.getElem_mem hlt)
  have hcount : s.jobList[source].workerCount = (L.workers source).length := by
    rw [← hworkers, Job.length_workers halloc]
  obtain ⟨job', hjob', hirecv⟩ := except_bind_eq_ok.mp hirecv
  obtain rfl := Option.some_inj.mp (hjob.symm.trans (getElem?_of_readAt hjob'))
  obtain ⟨⟨t, agg'⟩, hloop, hirecv⟩ := except_bind_eq_ok.mp hirecv
  obtain rfl : t = s' := congrArg Prod.fst (Except.ok.inj hirecv)
  obtain rfl : agg' = agg := congrArg (fun x ↦ x.2.1) (Except.ok.inj hirecv)
  -- the invariant: the workers so far have their requests, or are ignored
  have hend := loop_rule_of_ok (fun i (t : Process × AggregateRequest) ↦
    w.Learns L failed p s t.1 ∧ t.2.Covers ((L.workers source).take i) t.1)
    ?_ (by exact ⟨h.learns, .nil⟩) hloop
  · obtain ⟨hlearns, hcovers⟩ := hend
    rw [hcount, List.take_length] at hcovers
    exact ⟨hlearns, hposted, hallocated, hcovers⟩
  · rintro i hi t t' ⟨hlearns, hcovers⟩ hturn
    obtain ⟨recvSource, hread, hturn⟩ := except_bind_eq_ok.mp hturn
    obtain ⟨⟨s'', request⟩, hpost, hturn⟩ := except_bind_eq_ok.mp hturn
    obtain rfl := Except.ok.inj hturn
    have hget : (L.workers source)[i]? = some recvSource := by
      rw [← hworkers, Job.getElem?_workers halloc hi, ← getElem?_of_readAt hread,
        List.getElem?_eq_getElem]
    obtain ⟨hnext, hrequest⟩ := hlearns.knows.postRecv
      (Layout.lt_of_mem_workers (List.mem_of_getElem? hget)) (hacked i) hpost
    refine ⟨hlearns.trans hnext, ?_⟩
    rw [List.take_add_one, hget]
    exact List.rel_append (hcovers.mono hnext.marked) (.cons hrequest .nil)

/-! ## `MPI_Wait` -/

theorem noteAll (h : w.Knows L failed p s) {noted : List Group}
    (hnoted : ∀ acked ∈ noted, ∀ dead ∈ acked, failed dead = true)
    (hnote : s.noteAll noted = .ok s') : w.Learns L failed p s s' := by
  induction noted generalizing s with
  | nil =>
    obtain rfl := Except.ok.inj hnote
    exact h.learns
  | cons acked noted ih =>
    obtain ⟨hfirst, hnoted⟩ := List.forall_mem_cons.mp hnoted
    rw [Process.noteAll, List.foldlM_cons, h.shares.noteFailures_eq rfl acked,
      except_ok_bind] at hnote
    exact (h.noted hfirst).trans (ih (h.noted hfirst).knows hnoted hnote)

variable {completion : ℕ → Completion β} {noted : List Group}

theorem tablesAfter (h : w.Knows L failed p s)
    (hnoted : ∀ acked ∈ noted, ∀ dead ∈ acked, failed dead = true)
    (htables : agg.tablesAfter s completion noted = .ok s') : w.Learns L failed p s s' := by
  rw [AggregateRequest.tablesAfter] at htables
  split at htables
  next => exact h.noteAll hnoted htables
  next =>
    obtain rfl := Except.ok.inj htables
    exact h.learns

theorem lt_size (h : w.Knows L failed p s) {s₀ : Process}
    (hcovers : agg.Covers (L.workers source) s₀) {k r : ℕ}
    (hk : agg.reqArray[k]? = some (some r)) : r < s.rankIgnoreList.size :=
  (Layout.lt_of_mem_workers (List.mem_of_getElem? (hcovers.worker hk))).trans_le
    h.shares.rankIgnoreList

/-- **`MPI_Wait`** leaves the message of a worker that is not ignored. -/
theorem of_mpiWait (h : w.Knows L failed p s) (hsource : L.workers source ≠ [])
    (hposted : agg.Posted (L.workers source).length datatype count)
    (hfits : FitsStaging datatype count (L.workers source).length) (hm : agg.Allocated m)
    (hcovers : agg.Covers (L.workers source) s)
    (hnoted : ∀ acked ∈ noted, ∀ dead ∈ acked, failed dead = true) {waited : Waited β}
    (hwait : mpiWait agg s m completion noted = .ok waited) :
    w.Learns L failed p s waited.process ∧ ∃ k q payload, agg.reqArray[k]? = some (some q) ∧
      waited.process.rankIgnoreList.entry q ≠ 1 ∧ completion k = .arrived payload ∧
        (payload.length ≤ datatype.size * count → waited.memory.Holds datatype payload) := by
  have hne : agg.requestCount ≠ 0 := hposted.requestCount ▸ fun h0 ↦
    hsource (List.length_eq_zero_iff.mp h0)
  obtain ⟨t, k, job, htables, hfound, rfl⟩ :=
    (AggregateRequest.mpiWait_eq_ok_iff hne hm).mp hwait
  have hlearns := h.tablesAfter hnoted htables
  obtain ⟨q, ⟨hrequest, ⟨payload, harrived⟩, hunmarked, -⟩, -⟩ :=
    (AggregateRequest.firstSuccess_statuses_iff
      fun k r hk ↦ hlearns.knows.lt_size hcovers hk).mp hfound
  exact ⟨hlearns, k, q, payload, hrequest, hunmarked, harrived, fun hpayload ↦
    AggregateRequest.holds_afterWait hposted hfits hpayload hrequest harrived⟩

/-- **One message of a worker that lives** is enough for `MPI_Wait`. -/
theorem exists_mpiWait (h : w.Knows L failed p s) (hm : agg.Allocated m)
    (hposted : agg.Posted (L.workers source).length datatype count)
    (hcovers : agg.Covers (L.workers source) s)
    (hnoted : ∀ acked ∈ noted, ∀ dead ∈ acked, failed dead = true) {k : ℕ}
    (hk : (L.workers source)[k]? = some q) (hlive : failed (w.procAt q) = false) {payload : List β}
    (harrived : completion k = .arrived payload) :
    ∃ waited, mpiWait agg s m completion noted = .ok waited := by
  have hq := Layout.lt_of_mem_workers (List.mem_of_getElem? hk)
  have hrequest := hcovers.request hk (h.unmarked hq hlive)
  have hne : agg.requestCount ≠ 0 := by
    rw [hposted.requestCount]
    intro h0
    rw [List.length_eq_zero_iff.mp h0] at hk
    exact absurd hk (by simp)
  obtain ⟨t, htables, hjob, hsize, hmarked⟩ :=
    AggregateRequest.tablesAfter_eq agg completion h.shares.toHolds rfl noted
  have hunmarked : ¬agg.Marked s completion noted q := fun hmark ↦
    (h.tablesAfter hnoted htables).knows.unmarked hq hlive ((hmarked q).mpr hmark)
  obtain ⟨k', q', htakes, hsource⟩ := AggregateRequest.takes_of_holds h.shares.toHolds
    (fun k r hk ↦ List.mem_of_getElem? (hcovers.worker hk))
    ⟨k, q, payload, hrequest, harrived, hunmarked⟩
  have hq' := List.mem_of_getElem? (hcovers.worker htakes.request)
  have hread : readRank2Job t.rank2Job q' = .ok source := by
    rw [hjob]
    exact h.shares.readRank2Job_eq hq'
  have hinside : ∀ k r : ℕ, agg.reqArray[k]? = some (some r) → r < t.rankIgnoreList.size :=
    fun k r hk ↦ (h.tablesAfter hnoted htables).knows.lt_size hcovers hk
  have htakes' : agg.Takes completion (fun r ↦ t.rankIgnoreList.entry r = 1) k' q' := by
    simpa only [hmarked] using htakes
  have hfound := (AggregateRequest.firstSuccess_statuses_iff hinside).mpr ⟨q', htakes', hread⟩
  exact ⟨_, (AggregateRequest.mpiWait_eq_ok_iff hne hm).mpr ⟨t, k', source, htables, hfound, rfl⟩⟩

end Knows

end World

/-! ## Without failures nothing is noted -/

namespace AggregateRequest

variable {β : Type} {s s' : Process} {m m' : AsyncMemory β} {agg : AggregateRequest}

theorem process_of_mpiIrecv {source : ℕ} {datatype : TypeMap} {count : ℕ} {garbage : ℕ → β}
    {failures : ℕ → List Group} (hnone : ∀ i, failures i = [])
    (hirecv : mpiIrecv s m source datatype count garbage failures = .ok (s', agg, m')) :
    s' = s := by
  obtain ⟨job, -, hirecv⟩ := except_bind_eq_ok.mp hirecv
  obtain ⟨⟨t, agg'⟩, hloop, hirecv⟩ := except_bind_eq_ok.mp hirecv
  obtain rfl : t = s' := congrArg Prod.fst (Except.ok.inj hirecv)
  refine loop_rule_of_ok (fun _ (t : Process × AggregateRequest) ↦ t.1 = s) ?_ rfl hloop
  rintro i - t t' rfl hturn
  obtain ⟨recvSource, -, hturn⟩ := except_bind_eq_ok.mp hturn
  obtain ⟨⟨s'', request⟩, hpost, hturn⟩ := except_bind_eq_ok.mp hturn
  obtain rfl := Except.ok.inj hturn
  rw [hnone i] at hpost
  obtain ⟨ignored, -, hpost⟩ := except_bind_eq_ok.mp hpost
  exact (congrArg Prod.fst (Except.ok.inj hpost)).symm

theorem process_of_mpiWait {completion : ℕ → Completion β} {noted : List Group}
    {waited : Waited β} (hnone : agg.someFailed completion = false)
    (hwait : mpiWait agg s m completion noted = .ok waited) : waited.process = s := by
  obtain ⟨waited', hwait', h⟩ := except_bind_eq_ok.mp hwait
  obtain rfl := Except.ok.inj h
  rw [waitForAggRequest] at hwait'
  split at hwait'
  next =>
    obtain rfl := Except.ok.inj hwait'
    rfl
  next =>
    obtain ⟨tried, hattempts, hfree⟩ := except_bind_eq_ok.mp hwait'
    obtain ⟨m₁, -, hfree⟩ := except_bind_eq_ok.mp hfree
    obtain ⟨m₂, -, hfree⟩ := except_bind_eq_ok.mp hfree
    obtain rfl := Except.ok.inj hfree
    obtain ⟨t, k, source, htables, -, rfl⟩ := waitAttempts_eq_ok_iff.mp hattempts
    rw [tablesAfter, hnone, if_neg Bool.false_ne_true] at htables
    exact (Except.ok.inj htables).symm

end AggregateRequest

end EntangledMPI
