import EntangledMPI.Mpi.TransferStatus
import EntangledMPI.Mpi.WaitAfterShrink

/-!
# Whom `rank_ignore_list` ignores

The marks are indexed by ranks, and a shrink renumbers the ranks. `update_job_list` clears the mark
of every new rank it stores in a list, and as the lists cover the world, no mark is left in the new
world: none can fall to the process that takes a rank over. Until the next shrink the marks are
those of processes that have failed.

## Main result

`ignoreSound_run`: after any failures, notes and shrinks only a process that has failed is ignored.
-/

namespace EntangledMPI

open CountingLoop Renumbering

/-- The process of the rank has failed. -/
def Group.FailedAt (comm : Group) (failed : ℕ → Prop) (r : ℕ) : Prop :=
  ∃ q, comm[r]? = some q ∧ failed q

namespace Process

variable {n : ℕ} {L : Layout n} {s s' : Process} {comm acked : Group} {p : ℕ} {failed : ℕ → Prop}

/-! ## Notes mark the failed -/

/-- Every mark on a rank of the world is that of a process that has failed. -/
def MarksFailed (s : Process) (failed : ℕ → Prop) (comm : Group) : Prop :=
  ∀ r q, comm[r]? = some q → s.rankIgnoreList.entry r = 1 → failed q

theorem MarksFailed.mono {failed' : ℕ → Prop} (h : s.MarksFailed failed comm)
    (hle : ∀ q, failed q → failed' q) : s.MarksFailed failed' comm :=
  fun r q hr hmark ↦ hle q (h r q hr hmark)

theorem MarksFailed.noted (h : s.MarksFailed failed comm) (hs : s.Holds L comm p)
    (hacked : ∀ q ∈ acked, failed q) : (s.noted acked).MarksFailed failed comm := by
  intro r q hr hmark
  rcases entry_noted hmark with hold | ⟨q', hq', hmem, rfl⟩
  · exact h r q hr hold
  · rw [hs.comm] at hmem hr
    obtain rfl := Option.some_inj.mp ((List.getElem?_idxOf hmem).symm.trans hr)
    exact hacked q' hq'

/-! ## Whom the calls pass over -/

theorem MarksFailed.outcomesFrom {α σ : Type} {answers : ℕ → Answer α σ} {ranks : List ℕ}
    (h : s.MarksFailed failed comm) (hs : s.Holds L comm p) (hn : comm.length = n)
    (hranks : ∀ r ∈ ranks, r < n)
    (hacked : ∀ i, ∀ acked ∈ (answers i).failure, ∀ q ∈ acked, failed q) {i k r : ℕ}
    (hr : ranks[k]? = some r)
    (hskip : (Transfer.outcomesFrom answers s i ranks)[k]? = some none) :
    comm.FailedAt failed r := by
  induction ranks generalizing s i k with
  | nil => exact absurd hr (by simp)
  | cons rank ranks ih =>
    obtain ⟨hrank, hranks⟩ := List.forall_mem_cons.mp hranks
    rw [Transfer.outcomesFrom] at hskip
    cases k with
    | zero =>
      obtain rfl := Option.some_inj.mp hr
      have hget := List.getElem?_eq_getElem (hn.symm ▸ hrank : rank < comm.length)
      split at hskip
      next hmark => exact ⟨_, hget, h rank _ hget hmark⟩
      next => exact absurd hskip (by simp)
    | succ k =>
      rw [List.getElem?_cons_succ] at hr
      split at hskip
      next => exact ih h hs hranks hr hskip
      next =>
        rw [List.getElem?_cons_succ] at hskip
        cases hfailure : (answers i).failure with
        | none =>
          rw [hfailure] at hskip
          exact ih h hs hranks hr hskip
        | some acked =>
          rw [hfailure] at hskip
          exact ih (h.noted hs (hacked i acked hfailure)) (hs.noted acked) hranks hr hskip

theorem MarksFailed.of_postRecv {recvSource : ℕ} {failures : List Group} {request : Option ℕ}
    (h : s.MarksFailed failed comm) (hs : s.Holds L comm p) (hn : comm.length = n)
    (hrank : recvSource < n) (hacked : ∀ acked ∈ failures, ∀ q ∈ acked, failed q)
    (hpost : s.postRecv recvSource failures = .ok (s', request)) :
    s'.MarksFailed failed comm ∧ (request = none → comm.FailedAt failed recvSource) := by
  have hget := List.getElem?_eq_getElem (hn.symm ▸ hrank : recvSource < comm.length)
  induction failures generalizing s with
  | nil =>
    rw [postRecv, hs.read_rankIgnoreList hrank, except_ok_bind] at hpost
    obtain ⟨rfl, rfl⟩ := Prod.mk.inj (Except.ok.inj hpost)
    refine ⟨h, fun hnone ↦ ?_⟩
    split at hnone
    next hmark => exact ⟨_, hget, h recvSource _ hget hmark⟩
    next => exact absurd hnone (by simp)
  | cons acked failures ih =>
    obtain ⟨hfirst, hacked⟩ := List.forall_mem_cons.mp hacked
    rw [postRecv, hs.read_rankIgnoreList hrank, except_ok_bind] at hpost
    split at hpost
    next hmark =>
      obtain ⟨rfl, -⟩ := Prod.mk.inj (Except.ok.inj hpost)
      exact ⟨h, fun _ ↦ ⟨_, hget, h recvSource _ hget hmark⟩⟩
    next =>
      rw [hs.noteFailures_eq hn acked, except_ok_bind] at hpost
      exact ih (h.noted hs hfirst) (hs.noted acked) hacked hpost

/-- What the loop of `MPI_Irecv` keeps: a rank without a request is one that has failed. -/
structure SkipsFailed (failed : ℕ → Prop) (L : Layout n) (comm : Group) (p : ℕ)
    (t : Process × AggregateRequest) : Prop where
  holds : t.1.Holds L comm p
  marks : t.1.MarksFailed failed comm
  length_eq : t.2.reqArray.length = t.2.nodeRank.length
  failedAt : ∀ k r : ℕ, t.2.nodeRank[k]? = some r → t.2.reqArray[k]? = some none →
    comm.FailedAt failed r

theorem SkipsFailed.irecvTurn {job : Job} {failures : ℕ → List Group} {i : ℕ}
    {t t' : Process × AggregateRequest} (h : SkipsFailed failed L comm p t) (hn : comm.length = n)
    (hranks : ∀ r, readAt job.rankList i = .ok r → r < n)
    (hacked : ∀ acked ∈ failures i, ∀ q ∈ acked, failed q)
    (hturn : Process.irecvTurn job failures t i = .ok t') : SkipsFailed failed L comm p t' := by
  obtain ⟨hholds, hmarks, hlength, hbefore⟩ := h
  obtain ⟨recvSource, hread, hturn⟩ := except_bind_eq_ok.mp hturn
  obtain ⟨⟨s'', request⟩, hpost, hturn⟩ := except_bind_eq_ok.mp hturn
  obtain rfl := Except.ok.inj hturn
  obtain ⟨hmarks', hfailed⟩ := hmarks.of_postRecv hholds hn (hranks _ hread) hacked hpost
  refine ⟨holds_of_postRecv hholds hn hpost, hmarks', ?_, fun k r hk hnone ↦ ?_⟩
  · rw [List.length_append, List.length_append, hlength]
    rfl
  · rcases lt_trichotomy k t.2.nodeRank.length with hlt | heq | hgt
    · rw [List.getElem?_append_left hlt] at hk
      rw [List.getElem?_append_left (hlength ▸ hlt)] at hnone
      exact hbefore k r hk hnone
    · subst heq
      rw [List.getElem?_concat_length] at hk
      rw [← hlength, List.getElem?_concat_length] at hnone
      obtain rfl := Option.some_inj.mp hk
      exact hfailed (Option.some_inj.mp hnone)
    · rw [List.getElem?_eq_none (by rw [List.length_append]; exact hgt)] at hk
      exact absurd hk (by simp)

theorem MarksFailed.of_mpiIrecv {β : Type} {m m' : AsyncMemory β} {source : ℕ}
    {datatype : TypeMap} {count : ℕ} {garbage : ℕ → β} {failures : ℕ → List Group}
    {agg : AggregateRequest}
    (h : s.MarksFailed failed comm) (hs : s.Holds L comm p) (hn : comm.length = n)
    (hacked : ∀ i, ∀ acked ∈ failures i, ∀ q ∈ acked, failed q)
    (hirecv : AggregateRequest.mpiIrecv s m source datatype count garbage failures
      = .ok (s', agg, m')) {k r : ℕ} (hr : agg.nodeRank[k]? = some r)
    (hskip : agg.reqArray[k]? = some none) : comm.FailedAt failed r := by
  obtain ⟨job, hjob, hirecv⟩ := except_bind_eq_ok.mp hirecv
  obtain ⟨⟨t, agg'⟩, hloop, hirecv⟩ := except_bind_eq_ok.mp hirecv
  obtain rfl : agg' = agg := congrArg (fun x ↦ x.2.1) (Except.ok.inj hirecv)
  have hworkers : job.workers = L.workers source := by
    obtain ⟨hlt, rfl⟩ := List.getElem?_eq_some_iff.mp (getElem?_of_readAt hjob)
    exact hs.workers_getElem hlt
  have hranks : ∀ i < job.workerCount, ∀ r, readAt job.rankList i = .ok r → r < n := by
    intro i hi r hread
    refine Layout.lt_of_mem_workers (i := source) (L := L) ?_
    rw [← hworkers]
    refine List.mem_of_getElem? (i := i) ?_
    rw [Job.workers, List.getElem?_take_of_lt hi]
    exact getElem?_of_readAt hread
  have hend := loop_rule_of_ok (fun _ ↦ SkipsFailed failed L comm p)
    (fun i hi t t' ht hturn ↦ ht.irecvTurn hn (hranks i hi) (hacked i) hturn)
    ⟨hs, h, rfl, fun k r hk ↦ absurd hk (by simp)⟩ hloop
  exact hend.failedAt k r hr hskip

end Process

/-! ## Runs of failures, notes and shrinks -/

/-- The processes, and those of them that have failed. -/
structure FailingWorld where
  world : World
  failed : ℕ → Prop

/-- A process fails; a point-to-point call of a process notes failures that it has acknowledged; or
a collective call shrinks the world, and no job loses its last worker. -/
inductive FailingStep : FailingWorld → FailingWorld → Prop
  | fails {w : World} {failed : ℕ → Prop} (p : ℕ) :
      FailingStep ⟨w, failed⟩ ⟨w, fun q ↦ failed q ∨ q = p⟩
  | notes {w : World} {failed : ℕ → Prop} {p : ℕ} {acked : Group} {s : Process} (hp : p ∈ w.comm)
      (hacked : ∀ q ∈ acked, failed q) (h : (w.proc p).noteFailures acked = .ok s) :
      FailingStep ⟨w, failed⟩ ⟨w.withProc p s, failed⟩
  | shrinks {w w' : World} {failed : ℕ → Prop} (h : w.Shrinks w') :
      FailingStep ⟨w, failed⟩ ⟨w', failed⟩

namespace World

variable {w w' : World} {failed failed' : ℕ → Prop} {n : ℕ}

/-- **No mark outlives a shrink.** -/
theorem HoldsWithin.entry_shrinks (h : w.HoldsWithin n) (hshrinks : w.Shrinks w') :
    ∀ p ∈ w'.comm, ∀ r < w'.comm.length, (w'.proc p).rankIgnoreList.entry r = 0 := by
  obtain ⟨keep, acked, hret, rfl⟩ := hshrinks
  intro p hp r hr
  have hne : w.comm.filter keep ≠ [] := List.ne_nil_of_mem hp
  obtain ⟨L, hL⟩ := h.holds (List.ne_nil_of_mem (List.mem_of_mem_filter hp))
  obtain ⟨-, hproc⟩ := hL.shrink h.nodup hret (hL.live_of_returns h.nodup hret hne)
  exact (hproc p hp).2 r hr

/-- What holds between two steps. -/
structure MarksInvariant (n : ℕ) (failed : ℕ → Prop) (w : World) : Prop where
  within : w.HoldsWithin n
  marks : ∀ p ∈ w.comm, (w.proc p).MarksFailed failed w.comm

/-- **One step** leaves marks on the failed only. -/
theorem MarksInvariant.step (h : MarksInvariant n failed w)
    (hstep : FailingStep ⟨w, failed⟩ ⟨w', failed'⟩) : MarksInvariant n failed' w' := by
  cases hstep with
  | fails p => exact ⟨h.within, fun q hq ↦ (h.marks q hq).mono fun _ ↦ Or.inl⟩
  | @notes _ _ p acked s hp hacked hnote =>
    refine ⟨h.within.step (.notes hp hnote), fun q hq ↦ ?_⟩
    obtain ⟨L, hL⟩ := h.within.holds (List.ne_nil_of_mem hp)
    obtain rfl := Except.ok.inj (((hL p hp).noteFailures_eq rfl acked).symm.trans hnote)
    change (Function.update w.proc p _ q).MarksFailed failed w.comm
    rw [Function.update_apply]
    split
    next => exact (h.marks p hp).noted (hL p hp) hacked
    next => exact h.marks q hq
  | shrinks hshrinks =>
    refine ⟨h.within.step (.shrinks hshrinks), fun p hp r q hr hmark ↦ ?_⟩
    have hlt := (List.getElem?_eq_some_iff.mp hr).1
    rw [h.within.entry_shrinks hshrinks p hp r hlt] at hmark
    exact absurd hmark (by decide)

theorem MarksInvariant.run {f f' : FailingWorld} (h : MarksInvariant n f.failed f.world)
    (hrun : Relation.ReflTransGen FailingStep f f') : MarksInvariant n f'.failed f'.world := by
  induction hrun with
  | refl => exact h
  | tail _ hstep ih => exact ih.step hstep

/-- What `rank_ignore_list` is to be at every process. -/
structure IgnoreSound (failed : ℕ → Prop) (w : World) : Prop where
  /-- A rank of a list is marked only if its process has failed. -/
  marked : ∀ p ∈ w.comm, ∀ job ∈ (w.proc p).jobList, ∀ r ∈ job.workers,
    (w.proc p).rankIgnoreList.entry r = 1 → w.comm.FailedAt failed r
  /-- A shrink leaves no mark in the new world. -/
  cleared : ∀ w', w.Shrinks w' → ∀ p ∈ w'.comm, ∀ r < w'.comm.length,
    (w'.proc p).rankIgnoreList.entry r = 0
  /-- `MPI_Send` and `MPI_Recv` pass over the failed only. -/
  transfers : ∀ {α σ : Type} (L : Layout w.comm.length), w.Holds L → ∀ p ∈ w.comm,
    ∀ (job : ℕ) (answers : ℕ → Answer α σ),
      (∀ i, ∀ acked ∈ (answers i).failure, ∀ q ∈ acked, failed q) →
        ∀ k r : ℕ, (L.workers job)[k]? = some r →
          (Transfer.outcomes L (w.proc p) job answers)[k]? = some none → w.comm.FailedAt failed r
  /-- And so does `MPI_Irecv`. -/
  receives : ∀ {β : Type}, ∀ p ∈ w.comm, ∀ (m : AsyncMemory β) (source : ℕ) (datatype : TypeMap)
    (count : ℕ) (garbage : ℕ → β) (failures : ℕ → List Group) s agg m',
      (∀ i, ∀ acked ∈ failures i, ∀ q ∈ acked, failed q) →
        AggregateRequest.mpiIrecv (w.proc p) m source datatype count garbage failures
          = .ok (s, agg, m') →
        ∀ k r : ℕ, agg.nodeRank[k]? = some r → agg.reqArray[k]? = some none →
          w.comm.FailedAt failed r

theorem MarksInvariant.sound (h : MarksInvariant n failed w) : IgnoreSound failed w := by
  refine ⟨fun p hp job hjob r hr hmark ↦ ?_, fun w' hshrinks ↦ h.within.entry_shrinks hshrinks, ?_,
    ?_⟩
  · obtain ⟨L, hL⟩ := h.within.holds (List.ne_nil_of_mem hp)
    have hworkers : job.workers ∈ L.jobs := (hL p hp).jobList ▸ List.mem_map_of_mem hjob
    have hlt : r < w.comm.length :=
      List.mem_range.mp (L.cover.mem_iff.mp (List.mem_flatten_of_mem hworkers hr))
    exact ⟨_, List.getElem?_eq_getElem hlt, h.marks p hp r _ (List.getElem?_eq_getElem hlt) hmark⟩
  · intro α σ L hL p hp job answers hacked k r hr hskip
    exact (h.marks p hp).outcomesFrom (hL p hp) rfl (fun r hr ↦ Layout.lt_of_mem_workers hr) hacked
      hr hskip
  · intro β p hp m source datatype count garbage failures s agg m' hacked hirecv k r hr hskip
    obtain ⟨L, hL⟩ := h.within.holds (List.ne_nil_of_mem hp)
    exact (h.marks p hp).of_mpiIrecv (hL p hp) rfl hacked hirecv hr hskip

/-- **No live process is ever ignored.** From a map that covers the world and a `rank_ignore_list`
without marks, after any number of failures, notes and shrinks in any order, at every process of the
world. -/
theorem ignoreSound_run {L : Layout w.comm.length} (hcomm : w.comm.Nodup) (hw : w.Holds L)
    (hzero : ∀ p ∈ w.comm, ∀ r, (w.proc p).rankIgnoreList.entry r = 0)
    (hrun : Relation.ReflTransGen FailingStep ⟨w, failed⟩ ⟨w', failed'⟩) :
    IgnoreSound failed' w' := by
  have hstart : MarksInvariant w.comm.length failed w := by
    refine ⟨hw.within hcomm, fun p hp r q _ hmark ↦ ?_⟩
    rw [hzero p hp r] at hmark
    exact absurd hmark (by decide)
  exact (hstart.run hrun).sound

/-- The process `9` dies, and `7` notes it. -/
theorem ignoreSound_descending :
    let w : World := ⟨[7, 8, 9], Layout.descending.process [7, 8, 9]⟩
    ((w.proc 7).noted [9]).rankIgnoreList.entry 2 = 1 ∧
      IgnoreSound (fun q ↦ False ∨ q = 9) (w.withProc 7 ((w.proc 7).noted [9])) := by
  intro w
  have hw : w.Holds Layout.descending := fun _ hp ↦ (Layout.process_shares _ rfl hp).toHolds
  refine ⟨by decide, ignoreSound_run (by decide) hw (fun _ _ _ ↦ rfl)
    (.tail (.single (.fails 9)) (.notes (by decide) ?_ ((hw 7 (by decide)).noteFailures_eq rfl _)))⟩
  simp

end World

end EntangledMPI
