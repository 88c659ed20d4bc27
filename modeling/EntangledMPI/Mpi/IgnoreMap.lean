import EntangledMPI.Mpi.JobListShrink

/-!
# Noting failures in point-to-point calls

While `__ignore_process_failure` is set, `rep_errhandler` repairs nothing: it notes the ranks of the
dead it has acknowledged in `rank_ignore_list`, and leaves the shrink to a later collective call.
-/

namespace EntangledMPI

open CountingLoop Renumbering

/-- A read of `rank_2_job`, through a pointer that may be `NULL`. -/
def readRank2Job (rank2Job : Option Table) (rank : ℕ) : Except Fault ℕ :=
  match rank2Job with
  | none => .error .outOfBounds
  | some table => table.read rank

namespace Process

/-- One turn of the loop over the ranks of the failed. -/
def noteTurn (ranks : List (Option ℕ)) (s : Process) (i : ℕ) : Except Fault Process := do
  match ← readAt ranks i with
  | none => return s
  | some rank =>
    let rankIgnoreList ← s.rankIgnoreList.write rank 1
    let jobId ← readRank2Job s.rank2Job rank
    -- `worker_count` is only read for a message of the log
    let _ ← readAt s.jobList jobId
    return { s with rankIgnoreList := rankIgnoreList }

/-- The ranks the acknowledged processes have in the world, `none` for those outside it. -/
def rankFailedNodesInWorld (s : Process) (acked : Group) : List (Option ℕ) :=
  (List.range acked.length).map (translate acked s.node.repMpiCommWorld)

/-- The branch of `rep_errhandler` for a failure that is ignored: the process has acknowledged the
failures `acked`. -/
def noteFailures (s : Process) (acked : Group) : Except Fault Process :=
  loop (noteTurn (s.rankFailedNodesInWorld acked)) acked.length
    { s with lastGroupFailed := acked, processShrinkingPending := true }

/-- The process after that. -/
def noted (s : Process) (acked : Group) : Process :=
  { s with
    lastGroupFailed := acked
    processShrinkingPending := true
    rankIgnoreList := s.rankIgnoreList.fill ((s.rankFailedNodesInWorld acked).filterMap id) 1 }

theorem mem_rankFailedNodesInWorld {s : Process} {acked : Group} {r : ℕ} :
    r ∈ (s.rankFailedNodesInWorld acked).filterMap id ↔
      ∃ q ∈ acked, q ∈ s.node.repMpiCommWorld ∧ s.node.repMpiCommWorld.idxOf q = r := by
  rw [List.mem_filterMap]
  constructor
  · rintro ⟨rank, hrank, rfl⟩
    obtain ⟨i, -, hi⟩ := List.mem_map.mp hrank
    obtain ⟨q, hq, hmem, hidx⟩ := translate_eq_some_iff.mp hi
    exact ⟨q, List.mem_of_getElem? hq, hmem, hidx⟩
  · rintro ⟨q, hq, hmem, rfl⟩
    refine ⟨_, List.mem_map.mpr ⟨acked.idxOf q, ?_, translate_idxOf hq hmem⟩, rfl⟩
    exact List.mem_range.mpr (List.idxOf_lt_length_of_mem hq)

theorem Holds.readRank2Job_eq {n : ℕ} {L : Layout n} {s : Process} {comm : Group} {p i r : ℕ}
    (h : s.Holds L comm p) (hr : r ∈ L.workers i) : readRank2Job s.rank2Job r = .ok i := by
  obtain ⟨table, htable, hsize, hentry⟩ := h.rank2Job
  rw [htable, readRank2Job, Table.read_of_lt ((Layout.lt_of_mem_workers hr).trans_le hsize),
    hentry i r hr]

/-- **Noting failures** marks the ranks of the dead, and nothing else of the tables. -/
theorem Holds.noteFailures_eq {n : ℕ} {L : Layout n} {s : Process} {comm : Group} {p : ℕ}
    (h : s.Holds L comm p) (hn : comm.length = n) (acked : Group) :
    s.noteFailures acked = .ok (s.noted acked) := by
  have hlen : (s.rankFailedNodesInWorld acked).length = acked.length := by
    rw [rankFailedNodesInWorld, List.length_map, List.length_range]
  have hturn : ∀ i < acked.length, ∀ t,
      t = { s.noted acked with
        rankIgnoreList := s.rankIgnoreList.fill
          (((s.rankFailedNodesInWorld acked).take i).filterMap id) 1 } →
      ∃ t', noteTurn (s.rankFailedNodesInWorld acked) t i = .ok t' ∧
        t' = { s.noted acked with
          rankIgnoreList := s.rankIgnoreList.fill
            (((s.rankFailedNodesInWorld acked).take (i + 1)).filterMap id) 1 } := by
    rintro i hi t rfl
    refine ⟨_, ?_, rfl⟩
    have hi' : i < (s.rankFailedNodesInWorld acked).length := hlen.symm ▸ hi
    rw [noteTurn, readAt_of_lt hi', except_ok_bind, List.take_add_one,
      List.getElem?_eq_getElem hi', List.filterMap_append]
    cases hrank : (s.rankFailedNodesInWorld acked)[i] with
    | none => simp
    | some rank =>
      -- the rank is one of the world, so its job is in the tables
      have hmem : rank ∈ (s.rankFailedNodesInWorld acked).filterMap id :=
        List.mem_filterMap.mpr ⟨some rank, hrank ▸ List.getElem_mem hi', rfl⟩
      obtain ⟨q, -, hq, rfl⟩ := mem_rankFailedNodesInWorld.mp hmem
      rw [h.comm] at hq ⊢
      have hlt := hn ▸ List.idxOf_lt_length_of_mem hq
      obtain ⟨k, hk⟩ := L.exists_mem_workers hlt
      have hjob : k < s.jobList.length := h.length_jobList ▸ Layout.lt_length_of_mem_workers hk
      simp only [Table.write_fill (hlt.trans_le h.rankIgnoreList), except_ok_bind, noted,
        h.readRank2Job_eq hk, readAt_of_lt hjob, except_pure, Option.toList_some,
        List.filterMap_cons, id_eq, List.filterMap_nil]
  obtain ⟨t, ht, rfl⟩ := loop_rule_ok _ hturn (s := { s with
    lastGroupFailed := acked, processShrinkingPending := true }) (by simp [noted, Table.fill_nil])
  rw [noteFailures, ht, ← hlen, List.take_length]
  rfl

theorem Holds.noted {n : ℕ} {L : Layout n} {s : Process} {comm : Group} {p : ℕ}
    (h : s.Holds L comm p) (acked : Group) : (s.noted acked).Holds L comm p := { h with }

theorem Shares.noted {n : ℕ} {L : Layout n} {s : Process} {comm : Group} {p : ℕ}
    (h : s.Shares L comm p) (acked : Group) : (s.noted acked).Shares L comm p := { h with }

/-- A marked rank was marked before or is that of an acknowledged process. -/
theorem entry_noted {s : Process} {acked : Group} {r : ℕ}
    (h : (s.noted acked).rankIgnoreList.entry r = 1) : s.rankIgnoreList.entry r = 1 ∨
      ∃ q ∈ acked, q ∈ s.node.repMpiCommWorld ∧ s.node.repMpiCommWorld.idxOf q = r := by
  by_cases hr : r ∈ (s.rankFailedNodesInWorld acked).filterMap id
  · exact Or.inr (mem_rankFailedNodesInWorld.mp hr)
  · rw [Process.noted, Table.entry_fill_of_notMem _ hr] at h
    exact Or.inl h

/-! ## The sizes of the tables -/

/-- The tables have entries for `n` ranks. -/
structure Covers (s : Process) (n : ℕ) : Prop where
  rank2Job : ∃ table, s.rank2Job = some table ∧ n ≤ table.size
  rankIgnoreList : n ≤ s.rankIgnoreList.size

theorem Holds.covers {n : ℕ} {L : Layout n} {s : Process} {comm : Group} {p : ℕ}
    (h : s.Holds L comm p) : s.Covers n := by
  obtain ⟨table, htable, hsize, -⟩ := h.rank2Job
  exact ⟨⟨table, htable, hsize⟩, h.rankIgnoreList⟩

theorem Covers.noted {n : ℕ} {s : Process} (h : s.Covers n) (acked : Group) :
    (s.noted acked).Covers n := ⟨h.rank2Job, h.rankIgnoreList⟩

theorem size_rankIgnoreList_of_turn {size : ℕ} {translatedRanks : List (Option ℕ)} {i j : ℕ}
    {c c' : Compaction} (h : c.turn size translatedRanks i j = .ok c') :
    c'.rankIgnoreList.size = c.rankIgnoreList.size := by
  obtain ⟨rank, -, h⟩ := except_bind_eq_ok.mp h
  split at h
  next => exact absurd h (by simp)
  next =>
    obtain ⟨new, -, h⟩ := except_bind_eq_ok.mp h
    cases new with
    | none =>
      dsimp only at h
      split at h
      next => exact absurd h (by simp)
      next => rw [← Except.ok.inj h]
    | some new =>
      obtain ⟨rankList, -, h⟩ := except_bind_eq_ok.mp h
      obtain ⟨rank2Job, -, h⟩ := except_bind_eq_ok.mp h
      obtain ⟨rankIgnoreList, hwrite, h⟩ := except_bind_eq_ok.mp h
      obtain rfl := Except.ok.inj h
      exact Table.size_eq_of_write hwrite

theorem size_rankIgnoreList_of_shrink {s s' : Process} {worldShrinked acked : Group}
    (h : s.shrink worldShrinked acked = .ok s') :
    s'.rankIgnoreList.size = s.rankIgnoreList.size := by
  obtain ⟨s'', hupdate, h⟩ := except_bind_eq_ok.mp h
  obtain rfl := Except.ok.inj h
  obtain ⟨t, hloop, hupdate⟩ := except_bind_eq_ok.mp hupdate
  have hsize : t.rankIgnoreList.size = s.rankIgnoreList.size := by
    refine loop_rule_of_ok (fun _ t ↦ t.rankIgnoreList.size = s.rankIgnoreList.size) ?_ rfl hloop
    intro i _ t t' ht hturn
    obtain ⟨job, -, hturn⟩ := except_bind_eq_ok.mp hturn
    obtain ⟨c, hjob, hturn⟩ := except_bind_eq_ok.mp hturn
    obtain ⟨jobList, -, hturn⟩ := except_bind_eq_ok.mp hturn
    obtain rfl := Except.ok.inj hturn
    rw [← ht]
    exact loop_rule_of_ok (fun _ c ↦ c.rankIgnoreList.size = t.rankIgnoreList.size)
      (fun _ _ c c' hc hc' ↦ (size_rankIgnoreList_of_turn hc').trans hc) rfl hjob
  obtain ⟨rank, -, hupdate⟩ := except_bind_eq_ok.mp hupdate
  cases rank with
  | none => exact absurd hupdate (by simp)
  | some rank =>
    obtain ⟨job, -, hupdate⟩ := except_bind_eq_ok.mp hupdate
    obtain ⟨first, -, hupdate⟩ := except_bind_eq_ok.mp hupdate
    obtain rfl := Except.ok.inj hupdate
    exact hsize

end Process

/-! ## Runs of shrinks and notes -/

namespace World

/-- The world with another state of the process `p`. -/
def withProc (w : World) (p : ℕ) (s : Process) : World :=
  { w with proc := Function.update w.proc p s }

/-- What happens to the tables of the processes: a collective call shrinks the world, or a
point-to-point call notes failures. -/
inductive TablesStep : World → World → Prop
  | shrinks {w w' : World} (h : w.Shrinks w') : TablesStep w w'
  | notes {w : World} {p : ℕ} {acked : Group} {s : Process} (hp : p ∈ w.comm)
      (h : (w.proc p).noteFailures acked = .ok s) : TablesStep w (w.withProc p s)

/-- The processes hold one map of the world, and their tables are still of the size for `n`
ranks. -/
structure HoldsWithin (w : World) (n : ℕ) : Prop where
  nodup : w.comm.Nodup
  holds : w.comm ≠ [] → ∃ L : Layout w.comm.length, w.Holds L
  covers : ∀ p ∈ w.comm, (w.proc p).Covers n

theorem Holds.within {w : World} {L : Layout w.comm.length} (h : w.Holds L)
    (hcomm : w.comm.Nodup) : w.HoldsWithin w.comm.length :=
  ⟨hcomm, fun _ ↦ ⟨L, h⟩, fun p hp ↦ (h p hp).covers⟩

theorem Holds.withProc {w : World} {L : Layout w.comm.length} (h : w.Holds L) {p : ℕ}
    {s : Process} (hs : s.Holds L w.comm p) : (w.withProc p s).Holds L := by
  intro q hq
  change (Function.update w.proc p s q).Holds L w.comm q
  rw [Function.update_apply]
  split
  next heq =>
    obtain rfl := heq
    exact hs
  next => exact h q hq

theorem HoldsWithin.withProc {w : World} {n : ℕ} (h : w.HoldsWithin n) {p : ℕ} {s : Process}
    (hs : ∀ L : Layout w.comm.length, (w.proc p).Holds L w.comm p → s.Holds L w.comm p)
    (hcovers : (w.proc p).Covers n → s.Covers n) (hp : p ∈ w.comm) :
    (w.withProc p s).HoldsWithin n := by
  refine ⟨h.nodup, fun hne ↦ ?_, fun q hq ↦ ?_⟩
  · obtain ⟨L, hL⟩ := h.holds hne
    exact ⟨L, hL.withProc (hs L (hL p hp))⟩
  · change (Function.update w.proc p s q).Covers n
    rw [Function.update_apply]
    split
    next heq => exact hcovers (heq ▸ h.covers q hq)
    next => exact h.covers q hq

theorem HoldsWithin.step {w w' : World} {n : ℕ} (h : w.HoldsWithin n) (hstep : w.TablesStep w') :
    w'.HoldsWithin n := by
  cases hstep with
  | shrinks hshrinks =>
    obtain ⟨keep, acked, hret, rfl⟩ := hshrinks
    by_cases hne : w.comm.filter keep = []
    · refine ⟨h.nodup.filter _, fun hne' ↦ absurd hne hne', fun p hp ↦ ?_⟩
      exact absurd hp (by simp [World.shrink, World.updateComms, hne])
    · obtain ⟨L, hL⟩ := h.holds fun hnil ↦ hne (by rw [hnil, List.filter_nil])
      obtain ⟨hholds, hproc⟩ := hL.shrink h.nodup hret (hL.live_of_returns h.nodup hret hne)
      refine ⟨h.nodup.filter _, fun _ ↦ ⟨_, hholds⟩, fun p hp ↦ ⟨?_, ?_⟩⟩
      · obtain ⟨table, table', htable, htable', hsize⟩ := (hproc p hp).1.rank2Job
        obtain ⟨start, hstart, hle⟩ := (h.covers p (List.mem_of_mem_filter hp)).rank2Job
        obtain rfl := Option.some_inj.mp (hstart.symm.trans htable)
        exact ⟨table', htable', hsize ▸ hle⟩
      · obtain ⟨s, hs⟩ := hret p hp
        obtain ⟨activeComm, worldJobComm, heq⟩ := proc_shrink hs
        rw [heq]
        exact (Process.size_rankIgnoreList_of_shrink hs).symm ▸
          (h.covers p (List.mem_of_mem_filter hp)).rankIgnoreList
  | notes hp hnote =>
    obtain ⟨L, hL⟩ := h.holds (List.ne_nil_of_mem hp)
    obtain rfl := Except.ok.inj (((hL _ hp).noteFailures_eq rfl _).symm.trans hnote)
    exact h.withProc (fun L hs ↦ hs.noted _) (fun hs ↦ hs.noted _) hp

theorem HoldsWithin.run {w w' : World} {n : ℕ} (h : w.HoldsWithin n)
    (hrun : Relation.ReflTransGen TablesStep w w') : w'.HoldsWithin n := by
  induction hrun with
  | refl => exact h
  | tail _ hstep ih => exact ih.step hstep

end World

end EntangledMPI
