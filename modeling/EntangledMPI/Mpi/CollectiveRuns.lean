import EntangledMPI.Mpi.Collective

/-!
# Runs of a collective call

What holds in every state of a call, whichever processes die and whatever the PMPI calls return: the
survivors share one map with communicators that fit it, and a receive buffer whose last PMPI call
succeeded holds the result. The call returns right data as long as every broadcast has a root whose
last PMPI call succeeded. Nothing in the code checks that: a replica promoted between the operation
and the broadcast is a root like any other.

Two more things are asked of the arguments. The contributions do not come from the receive buffers,
where a repeated operation would find the result of the one before; and the number of elements is
an `int`.

## The world of a call

Shrinks keep the map of the jobs, so rank `i` of `active_comm` is the master of job `i` throughout.
-/

namespace EntangledMPI

open Renumbering

namespace World

theorem Shares.commsMatch_shrink {w : World} {L : Layout w.comm.length} (h : w.Shares L)
    (hcomm : w.comm.Nodup) {keep : ℕ → Bool} (acked : ℕ → Group)
    (hlive : ∀ i < L.jobs.length,
      (L.workers i).filterMap (translate w.comm (w.comm.filter keep)) ≠ []) :
    (w.shrink keep acked).CommsMatch
      (L.renumber hcomm keep (Layout.forall_jobs.mpr hlive)) := by
  obtain ⟨-, -, hshares⟩ := h.shrink hcomm acked hlive
  exact updateComms_commsMatch (hcomm.filter _) fun p hp ↦ { hshares.follows p hp with }

theorem Shares.repair {w : World} {L : Layout w.comm.length} (h : w.Shares L)
    (hcomm : w.comm.Nodup) {alive : ℕ → Bool} {acked : ℕ → Group}
    (hlive : w.comm.filter alive ≠ []) (hret : w.ShrinkReturns alive acked) :
    ∃ L' : Layout (w.comm.filter alive).length, L'.jobs.length = L.jobs.length ∧
      (w.shrink alive acked).clearPending.Shares L' ∧
      (w.shrink alive acked).clearPending.CommsMatch L' ∧
      ∀ p ∈ w.comm.filter alive,
        ((w.shrink alive acked).clearPending.node p).jobId = (w.node p).jobId ∧
          ((w.shrink alive acked).clearPending.node p).staticRank = (w.node p).staticRank := by
  have hworkers := h.holds.live_of_returns hcomm hret hlive
  obtain ⟨-, hfrom, hshares⟩ := h.shrink hcomm acked hworkers
  have hcomms := h.commsMatch_shrink hcomm acked hworkers
  refine ⟨L.renumber hcomm alive (Layout.forall_jobs.mpr hworkers), List.length_map _, ?_,
    { hcomms with }, fun p hp ↦ ⟨(hfrom p hp).jobId, (hfrom p hp).staticRank⟩⟩
  intro p hp
  exact { hshares p hp with }

variable {β : Type*}

/-- What a call finds: the processes share a map of `jobs` jobs, their communicators fit it, and the
workers of a job contribute the same. -/
structure CallReady (jobs : ℕ) (input jobInput : ℕ → β) (w : World) : Prop where
  nodup : w.comm.Nodup
  layout : ∃ L : Layout w.comm.length, L.jobs.length = jobs ∧ w.Shares L ∧ w.CommsMatch L
  input : ∀ p ∈ w.comm, ∀ i : ℕ, (w.node p).jobId = i → input p = jobInput i
  staticRank : ∀ p ∈ w.comm, (w.node p).staticRank < 2 ^ 31

theorem Shares.callReady {input jobInput : ℕ → β} {w : World} {L : Layout w.comm.length}
    (hshares : w.Shares L) (hcomm : w.comm.Nodup)
    (hinput : ∀ p ∈ w.comm, ∀ i : ℕ, (w.node p).jobId = i → input p = jobInput i)
    (hstaticRank : ∀ p ∈ w.comm, (w.node p).staticRank < 2 ^ 31) :
    w.updateComms.CallReady L.jobs.length input jobInput where
  nodup := hcomm
  layout := ⟨L, rfl, hshares.updateComms, World.updateComms_commsMatch hcomm hshares.follows⟩
  input := hinput
  staticRank := hstaticRank

namespace CallReady

variable {jobs : ℕ} {input jobInput : ℕ → β} {w : World}

theorem onBuffers {γ : Type*} {input : ℕ → γ → β}
    (h : w.CallReady jobs input fun i _ ↦ jobInput i) (recvbuf : ℕ → γ) :
    w.CallReady jobs (fun p ↦ input p (recvbuf p)) jobInput :=
  { h with input := fun p hp i hi ↦ congrFun (h.input p hp i hi) (recvbuf p) }

theorem jobsCount (h : w.CallReady jobs input jobInput) {p : ℕ} (hp : p ∈ w.comm) :
    (w.node p).jobsCount = jobs := by
  obtain ⟨L, rfl, hshares, -⟩ := h.layout
  exact (hshares.follows p hp).jobsCount

/-- The operation over `active_comm` is the operation over one process per job. -/
theorem active (h : w.CallReady jobs input jobInput) {p : ℕ} (hp : p ∈ w.comm) {group : Group}
    (hgroup : (w.node p).activeComm = some group) :
    ∃ i < jobs, (w.node p).jobId = (i : ℕ) ∧ (w.node p).nodeCheckpointMaster = .yes ∧
      group.idxOf p = i ∧ group.map input = (List.range jobs).map jobInput := by
  obtain ⟨L, rfl, hshares, hcomms⟩ := h.layout
  have hmem : p ∈ w.masters L := by
    by_contra hnot
    rw [hcomms.inactive p hp hnot] at hgroup
    exact Option.some_ne_none _ hgroup.symm
  obtain ⟨i, hi, rfl⟩ := List.mem_map.mp hmem
  rw [List.mem_range] at hi
  have hmaster := Layout.master_mem_workers hi
  rw [hcomms.active i hi, Option.some_inj] at hgroup
  have hjobId := fun k (hk : k < L.jobs.length) ↦
    jobId_procAt h.nodup hshares.follows (Layout.master_mem_workers hk)
  refine ⟨i, hi, hjobId i hi, (master_procAt_iff h.nodup hshares.follows hmaster).mpr rfl, ?_, ?_⟩
  · -- the masters stand in `active_comm` in the order of their jobs
    have hnodup : (w.masters L).Nodup := by
      refine List.Nodup.map_on ?_ List.nodup_range
      intro k hk k' hk' heq
      have hint := hjobId k (List.mem_range.mp hk)
      rw [heq, hjobId k' (List.mem_range.mp hk')] at hint
      exact_mod_cast hint.symm
    have hlt := (List.getElem?_eq_some_iff.mp (hcomms.root i hi)).1
    have hget := (List.getElem?_eq_some_iff.mp (hcomms.root i hi)).2
    rw [← hgroup, ← hget]
    exact hnodup.idxOf_getElem i hlt
  · rw [← hgroup, masters, List.map_map]
    apply List.map_congr_left
    intro k hk
    have hk' := List.mem_range.mp hk
    exact h.input _ (procAt_mem (Layout.lt_of_mem_workers (Layout.master_mem_workers hk'))) k
      (hjobId k hk')

theorem root (h : w.CallReady jobs input jobInput) {p i : ℕ} (hp : p ∈ w.comm)
    (hi : (w.node p).jobId = (i : ℕ)) :
    ∃ m ∈ w.comm, (w.node m).jobId = (i : ℕ) ∧
      (w.node p).worldJobComm.bind List.head? = some m ∧
      (w.node m).worldJobComm.bind List.head? = some m := by
  obtain ⟨L, -, hshares, hcomms⟩ := h.layout
  obtain ⟨k, hk, hr⟩ := (hshares.follows p hp).job
  obtain rfl : k = i := by exact_mod_cast hk.symm.trans hi
  have hmaster := Layout.master_mem_workers (Layout.lt_length_of_mem_workers hr)
  have hhead : ∀ r ∈ L.workers k, (w.node (w.procAt r)).worldJobComm.bind List.head?
      = some (w.procAt (L.master k)) := by
    intro r hr
    obtain ⟨group, hgroup, -, -, hhead⟩ := hcomms.job k r hr
    rw [hgroup, Option.bind_some, hhead]
  refine ⟨_, procAt_mem (Layout.lt_of_mem_workers hmaster),
    jobId_procAt h.nodup hshares.follows hmaster, ?_, hhead _ hmaster⟩
  rw [← hhead _ hr, procAt_rank hshares.follows hp]

theorem exists_master (h : w.CallReady jobs input jobInput) {i : ℕ} (hi : i < jobs) :
    ∃ m ∈ w.comm, (w.node m).jobId = (i : ℕ) ∧ (w.node m).nodeCheckpointMaster = .yes := by
  obtain ⟨L, rfl, hshares, -⟩ := h.layout
  have hmaster := Layout.master_mem_workers hi
  exact ⟨_, procAt_mem (Layout.lt_of_mem_workers hmaster),
    jobId_procAt h.nodup hshares.follows hmaster,
    (master_procAt_iff h.nodup hshares.follows hmaster).mpr rfl⟩

theorem master_unique (h : w.CallReady jobs input jobInput) {p m i : ℕ} (hp : p ∈ w.comm)
    (hm : m ∈ w.comm) (hpi : (w.node p).jobId = (i : ℕ)) (hmi : (w.node m).jobId = (i : ℕ))
    (hpyes : (w.node p).nodeCheckpointMaster = .yes)
    (hmyes : (w.node m).nodeCheckpointMaster = .yes) : m = p := by
  obtain ⟨L, -, hshares, -⟩ := h.layout
  have hprank := ((hshares.follows p hp).master i hpi).mp hpyes
  have hmrank := ((hshares.follows m hm).master i hmi).mp hmyes
  rw [← procAt_rank hshares.follows hm, hmrank, ← hprank, procAt_rank hshares.follows hp]

theorem repair (h : w.CallReady jobs input jobInput) {alive : ℕ → Bool} {acked : ℕ → Group}
    (hlive : w.comm.filter alive ≠ []) (hret : w.ShrinkReturns alive acked) :
    (w.shrink alive acked).clearPending.CallReady jobs input jobInput ∧
      ∀ p ∈ w.comm.filter alive,
        ((w.shrink alive acked).clearPending.node p).jobId = (w.node p).jobId := by
  obtain ⟨L, hjobs, hshares, -⟩ := h.layout
  obtain ⟨L', hjobs', hshares', hcomms', hnode⟩ := hshares.repair h.nodup hlive hret
  refine ⟨⟨h.nodup.filter _, ⟨L', hjobs'.trans hjobs, hshares', hcomms'⟩, ?_, ?_⟩,
    fun p hp ↦ (hnode p hp).1⟩
  · intro p hp i hi
    exact h.input p (List.mem_of_mem_filter hp) i ((hnode p hp).1.symm.trans hi)
  · intro p hp
    exact (hnode p hp).2.trans_lt (h.staticRank p (List.mem_of_mem_filter hp))

end CallReady

end World

theorem forall_of_foldl_and {n : ℕ} (P : BitVec n → Prop) (hP : ∀ a b, P (a &&& b) → P a ∧ P b)
    {b : BitVec n} {flags : List (BitVec n)} (h : P (flags.foldl (· &&& ·) b)) :
    P b ∧ ∀ a ∈ flags, P a := by
  induction flags generalizing b with
  | nil => exact ⟨h, fun a ha ↦ absurd ha List.not_mem_nil⟩
  | cons a flags ih =>
    obtain ⟨hand, hflags⟩ := ih h
    obtain ⟨hb, ha⟩ := hP b a hand
    exact ⟨hb, List.forall_mem_cons.mpr ⟨ha, hflags⟩⟩

/-! ## Start and end of a call -/

variable {α β : Type*}

/-- A call as it is entered. The flag, the buffers and the processes already dead are left open. -/
structure CallState.Starts (jobs : ℕ) (input : ℕ → (ℕ → α) → β) (jobInput : ℕ → β)
    (s : CallState α) : Prop where
  /-- The workers of a job contribute the same, and not from their receive buffers. -/
  ready : s.world.CallReady jobs input fun i _ ↦ jobInput i
  pc : s.pc = .main
  totalTrials : s.totalTrials = 0
  mpiStatus : ∀ p, s.mpiStatus p = true
  ckptMasterBackup : ∀ p ∈ s.world.comm, s.ckptMasterBackup p = (s.node p).nodeCheckpointMaster
  delivered : ∀ p, s.delivered p = false

namespace Collective

variable (c : Collective β α) (jobs : ℕ) (input : ℕ → (ℕ → α) → β) (jobInput : ℕ → β)

/-- Every living worker of a receiving job holds what the operation over one process per job
delivers to the job. -/
def Correct (s : CallState α) : Prop :=
  ∀ p ∈ s.world.comm, s.alive p = true → ∀ i : ℕ, (s.node p).jobId = i → c.receives i = true →
    ∀ k < c.count jobs, s.recvbuf p k = c.op ((List.range jobs).map jobInput) i k

/-- If the step is a broadcast: the last PMPI call of every living root of a receiving job
succeeded. -/
def RootsDelivered (s s' : CallState α) : Prop :=
  s.pc = .bcast → s'.pc = .bcastAgree → ∀ m ∈ s.world.comm, s.alive m = true →
    s.jobRoot m = some m → c.receives (s.node m).jobId.toNat = true → s.delivered m = true

/-- If the step is the operation or a broadcast: a failure at a living process shows in its flag. -/
def FailuresShow (s s' : CallState α) : Prop :=
  s.pc = .main ∨ s.pc = .bcast → s.pc ≠ s'.pc → ∀ p ∈ s.world.comm, s.alive p = true →
    s'.mpiStatus p = false → c.succeeded (c.setFlag false (s.flag p)) = false

variable {c jobs input jobInput}

theorem succeeded_of_foldl {b : BitVec 32} {flags : List (BitVec 32)}
    (h : c.succeeded (flags.foldl (· &&& ·) b) = true) :
    c.succeeded b = true ∧ ∀ a ∈ flags, c.succeeded a = true :=
  forall_of_foldl_and (fun a ↦ c.succeeded a = true) c.succeeded_and h

theorem succeeded_of_agreed {s : CallState α} (h : c.succeeded s.agreed = true) {p : ℕ}
    (hp : p ∈ s.world.comm) (halive : s.alive p = true) : c.succeeded (s.flag p) = true :=
  (succeeded_of_foldl h).2 _ (List.mem_map_of_mem (List.mem_filter.mpr ⟨hp, halive⟩))

/-- The count of the broadcast is that of the result, if an `int` can hold it. -/
theorem bcastCount_eq (hcount : c.count jobs < 2 ^ 31) : c.bcastCount jobs = c.count jobs := by
  rw [bcastCount, BitVec.toInt_eq_toNat_of_lt, BitVec.toNat_ofNat, Nat.mod_eq_of_lt]
  · omega
  · rw [BitVec.toNat_ofNat]
    omega

/-- A flag that shows success after a repair did so before, and is not that of a new master. -/
theorem succeeded_of_repair {γ : Type*} {input jobInput : ℕ → γ} {s : CallState α}
    (hready : s.world.CallReady jobs input jobInput) {written alive : ℕ → Bool}
    {acked : ℕ → Group} (halive : ∀ p, alive p = true → s.alive p = true)
    (hlive : s.world.comm.filter alive ≠ []) (hret : s.world.ShrinkReturns alive acked) {p : ℕ}
    (hp : p ∈ s.world.comm.filter alive)
    (h : c.succeeded ((c.repair written alive acked s).flag p) = true) :
    c.succeeded (s.flag p) = true ∧ (c.watchesMaster = true → s.ckptMasterBackup p
      = ((c.repair written alive acked s).node p).nodeCheckpointMaster) := by
  have hready' := (hready.repair hlive hret).1
  obtain ⟨hmem, hkeep⟩ := List.mem_filter.mp hp
  simp only [repair] at h
  split_ifs at h with hchanged hwritten
  · rw [Bool.and_eq_true] at hchanged
    rw [c.succeeded_staticRank hchanged.1 _ (hready'.staticRank p hp)] at h
    exact absurd h Bool.false_ne_true
  all_goals
    have hsame : c.watchesMaster = true → s.ckptMasterBackup p
        = ((c.repair written alive acked s).node p).nodeCheckpointMaster := by
      intro hwatches
      by_contra hne
      exact hchanged (by rw [hwatches, Bool.true_and]; exact decide_eq_true hne)
  · exact ⟨succeeded_of_agreed h hmem (halive p hkeep), hsame⟩
  · exact ⟨h, hsame⟩

/-! ## What a broadcast does at a process of a receiving job -/

section Broadcast

variable {s : CallState α} {ok : ℕ → Bool} {garbage : ℕ → ℕ → α} {p m i : ℕ}

theorem delivered_broadcast_root (hself : s.jobRoot p = some p) :
    (c.broadcast ok garbage s).delivered p = s.delivered p := by
  simp [broadcast, hself]

theorem recvbuf_broadcast_root (hself : s.jobRoot p = some p) :
    (c.broadcast ok garbage s).recvbuf p = s.recvbuf p := by
  funext k
  simp [broadcast, hself]

theorem mpiStatus_broadcast (hi : (s.node p).jobId = i) (hreceives : c.receives i = true) :
    (c.broadcast ok garbage s).mpiStatus p = ok p := by
  simp [broadcast, hi, c.broadcasts_of_receives i hreceives]

theorem flag_broadcast : (c.broadcast ok garbage s).flag p
    = c.setFlag ((c.broadcast ok garbage s).mpiStatus p) (s.flag p) := rfl

variable (hi : (s.node p).jobId = i) (hreceives : c.receives i = true)
  (hpm : s.jobRoot p = some m) (hne : m ≠ p)
include hi hreceives hpm hne

theorem delivered_broadcast : (c.broadcast ok garbage s).delivered p = ok p := by
  simp [broadcast, hi, hpm, hne, c.broadcasts_of_receives i hreceives]

theorem recvbuf_broadcast (hok : ok p = true) {k : ℕ}
    (hk : k < c.bcastCount (s.node p).jobsCount) :
    (c.broadcast ok garbage s).recvbuf p k = s.recvbuf m k := by
  simp [broadcast, hi, hpm, hne, hok, hk, c.broadcasts_of_receives i hreceives]

end Broadcast

/-! ## The invariant -/

/-- What holds in every state of a call. -/
structure Sound (c : Collective β α) (jobs : ℕ) (input : ℕ → (ℕ → α) → β) (jobInput : ℕ → β)
    (s : CallState α) : Prop where
  ready : s.world.CallReady jobs input fun i _ ↦ jobInput i
  /-- Where the last PMPI call succeeded, the buffer holds the result. -/
  data : ∀ p ∈ s.world.comm, s.delivered p = true → ∀ i : ℕ, (s.node p).jobId = i →
    c.receives i = true → ∀ k < c.count jobs,
      s.recvbuf p k = c.op ((List.range jobs).map jobInput) i k
  /-- A flag that shows success after a broadcast is right. -/
  flag : s.pc = .bcastAgree → ∀ p ∈ s.world.comm, s.alive p = true →
    c.succeeded (s.flag p) = true → ∀ i : ℕ, (s.node p).jobId = i → c.receives i = true →
      s.delivered p = true
  returned : s.pc = .returned → ∀ p ∈ s.world.comm, s.alive p = true → ∀ i : ℕ,
    (s.node p).jobId = i → c.receives i = true → s.delivered p = true

namespace Sound

variable {s : CallState α}

theorem start (h : s.Starts jobs input jobInput) : c.Sound jobs input jobInput s where
  ready := h.ready
  data p _ hdelivered := by
    rw [h.delivered p] at hdelivered
    exact absurd hdelivered Bool.false_ne_true
  flag hpc := by simp [h.pc] at hpc
  returned hpc := by simp [h.pc] at hpc

theorem die (h : c.Sound jobs input jobInput s) {alive : ℕ → Bool}
    (halive : ∀ p, alive p = true → s.alive p = true) :
    c.Sound jobs input jobInput { s with alive := alive } where
  ready := h.ready
  data := h.data
  flag hpc p hp hlive := h.flag hpc p hp (halive p hlive)
  returned hpc p hp hlive := h.returned hpc p hp (halive p hlive)

theorem call (h : c.Sound jobs input jobInput s) (ok : ℕ → Bool) (garbage : ℕ → ℕ → α) :
    c.Sound jobs input jobInput (c.call input ok garbage s) where
  ready := h.ready
  data p hp hdelivered i hi hreceives k hk := by
    cases hgroup : (s.node p).activeComm with
    | none =>
      simp only [Collective.call, hgroup, Option.isSome_none, Bool.false_eq_true, if_false]
        at hdelivered ⊢
      exact h.data p hp hdelivered i hi hreceives k hk
    | some group =>
      obtain ⟨i', -, hi', -, hidx, hmap⟩ := (h.ready.onBuffers s.recvbuf).active hp hgroup
      obtain rfl : i' = i := by exact_mod_cast hi'.symm.trans hi
      have hcount : k < c.count (s.node p).jobsCount := by
        rwa [CallState.node, h.ready.jobsCount hp]
      simp only [Collective.call, hgroup, Option.isSome_some, if_true] at hdelivered ⊢
      rw [if_pos hdelivered, hidx, if_pos ⟨hreceives, hcount⟩, hmap]
  flag hpc := by simp [Collective.call] at hpc
  returned hpc := by simp [Collective.call] at hpc

theorem repair (h : c.Sound jobs input jobInput s) {written alive : ℕ → Bool} {acked : ℕ → Group}
    (halive : ∀ p, alive p = true → s.alive p = true) (hlive : s.world.comm.filter alive ≠ [])
    (hret : s.world.ShrinkReturns alive acked) :
    c.Sound jobs input jobInput (c.repair written alive acked s) := by
  obtain ⟨hready, hjobId⟩ := h.ready.repair hlive hret
  refine ⟨hready, ?_, ?_, ?_⟩
  · intro p hp hdelivered i hi
    exact h.data p (List.mem_of_mem_filter hp) hdelivered i ((hjobId p hp).symm.trans hi)
  · intro hpc p hp _ hflag i hi
    obtain ⟨hmem, hkeep⟩ := List.mem_filter.mp hp
    exact h.flag hpc p hmem (halive p hkeep)
      (succeeded_of_repair h.ready halive hlive hret hp hflag).1 i ((hjobId p hp).symm.trans hi)
  · intro hpc p hp _ i hi
    obtain ⟨hmem, hkeep⟩ := List.mem_filter.mp hp
    exact h.returned hpc p hmem (halive p hkeep) i ((hjobId p hp).symm.trans hi)

theorem agreeMain (h : c.Sound jobs input jobInput s) :
    c.Sound jobs input jobInput (c.agreeMain s) where
  ready := h.ready
  data := h.data
  flag hpc := by
    simp only [Collective.agreeMain] at hpc
    split_ifs at hpc
  returned hpc := by
    simp only [Collective.agreeMain] at hpc
    split_ifs at hpc

/-- **The broadcast** spreads the result if its roots have it, and where it fails the flag says
so. -/
theorem broadcast (h : c.Sound jobs input jobInput s) (hcount : c.count jobs < 2 ^ 31)
    (hpc : s.pc = .bcast) {ok : ℕ → Bool} {garbage : ℕ → ℕ → α}
    (hok : ∀ p, ok p = true → ∀ m, s.jobRoot p = some m → s.alive m = true)
    (hroots : c.RootsDelivered s (c.broadcast ok garbage s))
    (hshow : c.FailuresShow s (c.broadcast ok garbage s)) :
    c.Sound jobs input jobInput (c.broadcast ok garbage s) := by
  have hroot : ∀ m ∈ s.world.comm, s.alive m = true → s.jobRoot m = some m → ∀ i : ℕ,
      (s.node m).jobId = i → c.receives i = true → s.delivered m = true := by
    intro m hm halive hself i hi hreceives
    exact hroots hpc rfl m hm halive hself (by rwa [hi, Int.toNat_natCast])
  refine ⟨h.ready, fun p (hp : p ∈ s.world.comm) hdelivered i
      (hi : (s.node p).jobId = i) hreceives k hk ↦ ?_,
    fun _ p (hp : p ∈ s.world.comm) (halive : s.alive p = true) hflag i
      (hi : (s.node p).jobId = i) hreceives ↦ ?_, fun hret ↦ by simp [Collective.broadcast] at hret⟩
  · obtain ⟨m, hm, hmi, hpm, hmm⟩ := h.ready.root hp hi
    by_cases hpm' : m = p
    · -- the root keeps its own buffer
      rw [hpm'] at hpm
      rw [delivered_broadcast_root hpm] at hdelivered
      rw [recvbuf_broadcast_root hpm]
      exact h.data p hp hdelivered i hi hreceives k hk
    · rw [delivered_broadcast hi hreceives hpm hpm'] at hdelivered
      have hcopied : k < c.bcastCount (s.node p).jobsCount := by
        rw [CallState.node, h.ready.jobsCount hp, bcastCount_eq hcount]
        exact_mod_cast hk
      rw [recvbuf_broadcast hi hreceives hpm hpm' hdelivered hcopied]
      have hmaster := hroot m hm (hok p hdelivered m hpm) hmm i hmi hreceives
      exact h.data m hm hmaster i hmi hreceives k hk
  · obtain ⟨m, hm, hmi, hpm, hmm⟩ := h.ready.root hp hi
    by_cases hpm' : m = p
    · rw [hpm'] at hpm
      rw [delivered_broadcast_root hpm]
      exact hroot p hp halive hpm i hi hreceives
    · -- where the copy failed, the status shows it, and so does the flag
      rw [delivered_broadcast hi hreceives hpm hpm']
      by_contra hfailed
      have hstatus : (c.broadcast ok garbage s).mpiStatus p = false := by
        rw [mpiStatus_broadcast hi hreceives]
        exact Bool.eq_false_of_not_eq_true hfailed
      have hmoves : s.pc ≠ CallPc.bcastAgree := by simp [hpc]
      rw [flag_broadcast, hstatus, hshow (Or.inr hpc) hmoves p hp halive hstatus] at hflag
      exact absurd hflag Bool.false_ne_true

theorem agreeBcast (h : c.Sound jobs input jobInput s) (hpc : s.pc = .bcastAgree)
    (failedRoot : Bool) : c.Sound jobs input jobInput (c.agreeBcast failedRoot s) := by
  refine ⟨h.ready, h.data, ?_, ?_⟩
  · intro hpc'
    simp only [Collective.agreeBcast] at hpc'
    split_ifs at hpc'
  · intro hret p hp halive i hi hreceives
    have hagreed : c.succeeded s.agreed = true := by
      by_contra hfailed
      simp only [Collective.agreeBcast, if_neg hfailed] at hret
      split_ifs at hret
    exact h.flag hpc p hp halive (succeeded_of_agreed hagreed hp halive) i hi hreceives

/-- **Every step keeps the invariant** under the two conditions. -/
theorem step {s' : CallState α} (h : c.Sound jobs input jobInput s)
    (hcount : c.count jobs < 2 ^ 31) (hstep : c.Step input s s')
    (hroots : c.RootsDelivered s s') (hshow : c.FailuresShow s s') :
    c.Sound jobs input jobInput s' := by
  cases hstep with
  | die alive halive => exact h.die halive
  | call hpc htrials ok garbage => exact h.call ok garbage
  | repair hpc hfail written alive acked hwritten halive hacked hlive hret =>
    exact h.repair halive hlive hret
  | agreeMain hpc hs => exact h.agreeMain
  | broadcast hpc ok garbage hok => exact h.broadcast hcount hpc hok hroots hshow
  | agreeBcast hpc hs failedRoot hroot => exact h.agreeBcast hpc failedRoot

theorem correct_of_returned (h : c.Sound jobs input jobInput s) (hpc : s.pc = .returned) :
    c.Correct jobs jobInput s := fun p hp halive i hi hreceives ↦
  h.data p hp (h.returned hpc p hp halive i hi hreceives) i hi hreceives

end Sound

theorem Sound.run {s₀ s : CallState α} (h₀ : c.Sound jobs input jobInput s₀)
    (hcount : c.count jobs < 2 ^ 31) {condition : CallState α → CallState α → Prop}
    (hrun : c.Run input condition s₀ s)
    (hroots : ∀ s s', condition s s' → c.RootsDelivered s s')
    (hshow : ∀ s s', condition s s' → c.FailuresShow s s') : c.Sound jobs input jobInput s := by
  induction hrun with
  | refl => exact h₀
  | tail _ hlast ih => exact ih.step hcount hlast.1 (hroots _ _ hlast.2) (hshow _ _ hlast.2)

end Collective

end EntangledMPI
