import EntangledMPI.Mpi.LeftoverStatus

/-!
# The receive buffers of the other jobs

MPI gives the receive buffer of a gather or a reduce a meaning at the root only. Here all workers of
the root job are to get the result, so the operation is followed by a broadcast in the jobs.
`MPI_Reduce` makes it in the root job. `MPI_Gather` makes it in every job, also in those whose
masters have received nothing: these send what their buffers held before, and their replicas write
it over theirs. The counts are `int`s here.

Besides, where the user passes the address of a pointer to the buffer, `SET_RIGHT_R_BUFFER` reads
that pointer at every process that makes the call.

## Main result

`frameSound_iff`: `MPI_Reduce` leaves the receive buffers of the other jobs alone, unless pointers
to buffers are passed, and `MPI_Gather` does so exactly when no other job has a second worker to
send to.
-/

namespace EntangledMPI

variable {α β : Type*}

/-! ## What is done with a receive buffer -/

/-- The memory at `recvbuf` is read for the address of the buffer, or it is the buffer, and read or
written by a PMPI call. -/
inductive BufferUse
  | address
  | read
  | write
  deriving DecidableEq

/-- `SET_RIGHT_R_BUFFER`. -/
def setRightRBuffer (passReceiverContAdd : Bool) : List BufferUse :=
  if passReceiverContAdd then [.address] else []

namespace Collective

variable (c : Collective β α) (passReceiverContAdd : Bool)

/-- `PMPI_Bcast` in `world_job_comm`. -/
def bcastUses (s : CallState α) (p : ℕ) : List BufferUse :=
  match (s.node p).worldJobComm with
  | none => []
  | some group =>
    if c.bcastCount (s.node p).jobsCount ≤ 0 ∨ group.length ≤ 1 then []
    else if group.head? = some p then [.read] else [.write]

/-- What the next PMPI call of `p` does with its receive buffer. -/
def uses (s : CallState α) (p : ℕ) : List BufferUse :=
  match s.pc with
  | .main =>
    match (s.node p).activeComm with
    | none => []
    | some group => setRightRBuffer passReceiverContAdd ++
        if c.count (s.node p).jobsCount ≠ 0 ∧ c.receives (group.idxOf p) = true then [.write]
        else []
  | .bcast =>
    if c.broadcasts (s.node p).jobId.toNat then
      setRightRBuffer passReceiverContAdd ++ c.bcastUses s p
    else []
  | _ => []

/-- In a call without failures that began in `s₀`, the receive buffers of the jobs other than `root`
are not used, and those of the job `root` end up equal. -/
structure FrameSound (root : ℕ) (input : ℕ → (ℕ → α) → β) (s₀ : CallState α) : Prop where
  untouched : ∀ s, c.CleanRun input s₀ s → ∀ p ∈ s.world.comm, (s.node p).jobId ≠ (root : ℕ) →
    c.uses passReceiverContAdd s p = []
  returns : ∃ s, c.CleanRun input s₀ s ∧ s.pc = .returned
  equal : ∀ s, c.CleanRun input s₀ s → s.pc = .returned → ∀ p ∈ s.world.comm,
    (s.node p).jobId = (root : ℕ) → ∀ q ∈ s.world.comm, (s.node q).jobId = (root : ℕ) →
      ∀ k < c.count (s.node p).jobsCount, s.recvbuf p k = s.recvbuf q k

end Collective

/-- The processes share the map `L`, and their communicators fit it. -/
structure World.Matches (w : World) (L : Layout w.comm.length) : Prop where
  nodup : w.comm.Nodup
  shares : w.Shares L
  comms : w.CommsMatch L

/-! ## The members of a job's communicator -/

theorem World.Matches.exists_worldJobComm {w : World} {L : Layout w.comm.length} (h : w.Matches L)
    {p i : ℕ} (hp : p ∈ w.comm) (hi : (w.node p).jobId = (i : ℕ)) :
    i < L.jobs.length ∧ ∃ group, (w.node p).worldJobComm = some group ∧
      group.length = (L.workers i).length ∧ group.head? = some (w.procAt (L.master i)) ∧
      ∀ q ∈ w.comm, (w.node q).jobId = (i : ℕ) → q ∈ group := by
  have hfollows := h.shares.follows
  obtain ⟨k, hk, hr⟩ := (hfollows p hp).job
  obtain rfl : k = i := by exact_mod_cast hk.symm.trans hi
  obtain ⟨group, hgroup, hnodup, hmem, hhead⟩ := h.comms.job k _ hr
  rw [World.procAt_rank hfollows hp] at hgroup
  refine ⟨Layout.lt_length_of_mem_workers hr, group, hgroup, ?_, hhead, ?_⟩
  · have hmap : ((L.workers k).map w.procAt).Nodup := by
      refine (List.nodup_map_iff_inj_on (L.nodup_workers k)).mpr ?_
      intro r hr r' hr' heq
      exact World.procAt_inj h.nodup (Layout.lt_of_mem_workers hr)
        (Layout.lt_of_mem_workers hr') heq
    have hperm : group.Perm ((L.workers k).map w.procAt) := by
      refine (List.perm_ext_iff_of_nodup hnodup hmap).mpr fun q ↦ ?_
      rw [hmem q, List.mem_map]
    rw [hperm.length_eq, List.length_map]
  · intro q hq hqi
    obtain ⟨k', hk', hr'⟩ := (hfollows q hq).job
    obtain rfl : k' = k := by exact_mod_cast hk'.symm.trans hqi
    exact (hmem q).mpr ⟨_, hr', World.procAt_rank hfollows hq⟩

namespace Collective

variable {c : Collective β α} {passReceiverContAdd : Bool} {input : ℕ → (ℕ → α) → β}

/-! ## A buffer that is not used -/

section

variable {s : CallState α} {p : ℕ} {ok : ℕ → Bool} {garbage : ℕ → ℕ → α}

theorem uses_main (hpc : s.pc = .main) {group : Group}
    (hgroup : (s.node p).activeComm = some group) :
    c.uses passReceiverContAdd s p = setRightRBuffer passReceiverContAdd ++
      if c.count (s.node p).jobsCount ≠ 0 ∧ c.receives (group.idxOf p) = true then [.write]
      else [] := by
  simp only [uses, hpc, hgroup]

theorem uses_bcast (hpc : s.pc = .bcast) : c.uses passReceiverContAdd s p =
    if c.broadcasts (s.node p).jobId.toNat then
      setRightRBuffer passReceiverContAdd ++ c.bcastUses s p
    else [] := by
  simp only [uses, hpc]

theorem recvbuf_call_inactive (hgroup : (s.node p).activeComm = none) :
    (c.call input ok garbage s).recvbuf p = s.recvbuf p := by
  simp only [Collective.call, hgroup]

theorem recvbuf_call_active {group : Group} (hgroup : (s.node p).activeComm = some group)
    (hok : ok p = true) (k : ℕ) : (c.call input ok garbage s).recvbuf p k =
      if c.receives (group.idxOf p) ∧ k < c.count (s.node p).jobsCount then
        c.op (group.map fun q ↦ input q (s.recvbuf q)) (group.idxOf p) k
      else s.recvbuf p k := by
  simp only [Collective.call, hgroup, hok, if_true]

/-- The operation keeps a buffer it does not use, whatever it holds, and does the same to the
others. -/
theorem recvbuf_call_update (hpc : s.pc = .main)
    (hok : ∀ q, (s.node q).activeComm.isSome → ok q = true)
    (hinput : ∀ b b', input p b = input p b') (hunused : c.uses passReceiverContAdd s p = [])
    (a : ℕ → α) :
    (c.call input ok garbage { s with recvbuf := Function.update s.recvbuf p a }).recvbuf
      = Function.update (c.call input ok garbage s).recvbuf p a := by
  set t : CallState α := { s with recvbuf := Function.update s.recvbuf p a } with ht
  have hbuffer : ∀ q, t.recvbuf q = Function.update s.recvbuf p a q := fun q ↦ rfl
  -- nobody contributes anything else
  have hsame : ∀ group : Group, (group.map fun q ↦ input q (t.recvbuf q))
      = group.map fun q ↦ input q (s.recvbuf q) := by
    intro group
    refine List.map_congr_left fun q _ ↦ ?_
    by_cases hq : q = p
    · rw [hq]
      exact hinput _ _
    · rw [hbuffer, Function.update_of_ne hq]
  funext q
  cases hgroup : (s.node q).activeComm with
  | none =>
    rw [recvbuf_call_inactive (s := t) hgroup, hbuffer]
    by_cases hq : q = p
    · rw [hq, Function.update_self, Function.update_self]
    · rw [Function.update_of_ne hq, Function.update_of_ne hq, recvbuf_call_inactive hgroup]
  | some group =>
    have hokq := hok q (by rw [hgroup]; rfl)
    funext k
    rw [recvbuf_call_active (s := t) hgroup hokq, hsame, hbuffer]
    by_cases hq : q = p
    · subst hq
      rw [Function.update_self, Function.update_self]
      refine if_neg ?_
      rintro ⟨hreceives, hk⟩
      have hcount : c.count (s.node q).jobsCount ≠ 0 := Nat.ne_zero_of_lt hk
      rw [uses_main hpc hgroup, List.append_eq_nil_iff, if_pos ⟨hcount, hreceives⟩] at hunused
      exact absurd hunused.2 (List.cons_ne_nil _ _)
    · rw [Function.update_of_ne hq, Function.update_of_ne hq, recvbuf_call_active hgroup hokq]
      rfl

variable {w : World} {L : Layout w.comm.length} {i : ℕ}

theorem jobRoot_eq (h : w.Matches L) (hw : s.world = w) (hp : p ∈ w.comm)
    (hi : (w.node p).jobId = (i : ℕ)) : s.jobRoot p = some (w.procAt (L.master i)) := by
  obtain ⟨-, group, hgroup, -, hhead, -⟩ := h.exists_worldJobComm hp hi
  rw [CallState.jobRoot, CallState.node, hw, hgroup, Option.bind_some, hhead]

theorem jobsCount_eq (h : w.Matches L) (hw : s.world = w) (hp : p ∈ w.comm) :
    (s.node p).jobsCount = L.jobs.length := by
  rw [CallState.node, hw, (h.shares.follows p hp).jobsCount]

theorem bcastUses_eq_nil_iff (h : w.Matches L) (hw : s.world = w) (hp : p ∈ w.comm)
    (hi : (w.node p).jobId = (i : ℕ)) :
    c.bcastUses s p = [] ↔ c.bcastCount L.jobs.length ≤ 0 ∨ (L.workers i).length = 1 := by
  obtain ⟨hlt, group, hgroup, hlength, -, -⟩ := h.exists_worldJobComm hp hi
  have hpos := List.length_pos_of_ne_nil (Layout.workers_ne_nil hlt)
  have hone : group.length ≤ 1 ↔ (L.workers i).length = 1 := by omega
  rw [bcastUses, jobsCount_eq h hw hp, CallState.node, hw, hgroup]
  dsimp only
  rw [← hone]
  split
  next hnothing => exact iff_of_true rfl hnothing
  next hsome =>
    refine iff_of_false ?_ hsome
    split <;> simp

theorem bcastUses_ne_nil (h : w.Matches L) (hw : s.world = w)
    (hcount : 0 < c.bcastCount L.jobs.length) {q : ℕ} (hp : p ∈ w.comm)
    (hi : (w.node p).jobId = (i : ℕ)) (hq : q ∈ w.comm) (hqi : (w.node q).jobId = (i : ℕ))
    (hne : p ≠ q) : c.bcastUses s p ≠ [] := by
  rw [ne_eq, bcastUses_eq_nil_iff h hw hp hi, not_or]
  refine ⟨not_le.mpr hcount, fun hone ↦ hne ?_⟩
  obtain ⟨-, group, -, hlength, -, hmem⟩ := h.exists_worldJobComm hp hi
  obtain ⟨m, hm⟩ := List.length_eq_one_iff.mp (hlength.trans hone)
  have hpm := List.mem_singleton.mp (hm ▸ hmem p hp hi)
  have hqm := List.mem_singleton.mp (hm ▸ hmem q hq hqi)
  exact hpm.trans hqm.symm

/-- **A broadcast without failures** copies from the buffer of the master. -/
theorem recvbuf_broadcast_eq (h : w.Matches L) (hw : s.world = w) (hp : p ∈ w.comm)
    (hi : (w.node p).jobId = (i : ℕ)) (hok : ok p = true) (k : ℕ) :
    (c.broadcast ok garbage s).recvbuf p k
      = if c.broadcasts i = true ∧ k < c.bcastCount L.jobs.length then
          s.recvbuf (w.procAt (L.master i)) k
        else s.recvbuf p k := by
  have hroot : s.jobRoot p = some (w.procAt (L.master i)) := jobRoot_eq h hw hp hi
  have hjob : (s.node p).jobId.toNat = i := by rw [CallState.node, hw, hi, Int.toNat_natCast]
  change (if c.broadcasts (s.node p).jobId.toNat && decide (s.jobRoot p ≠ some p) then
    if ok p then
      if k < c.bcastCount (s.node p).jobsCount then
        ((s.jobRoot p).map fun m ↦ s.recvbuf m k).getD (s.recvbuf p k)
      else s.recvbuf p k
    else garbage p k
    else s.recvbuf p k) = _
  rw [hroot, hjob, if_pos hok, jobsCount_eq h hw hp, Option.map_some, Option.getD_some]
  by_cases hself : w.procAt (L.master i) = p
  · simp [hself]
  · by_cases hbroadcasts : c.broadcasts i = true <;> simp [hself, hbroadcasts]

/-- The broadcast does the same, at every process of the world. -/
theorem recvbuf_broadcast_update (h : w.Matches L) (hw : s.world = w) (hpc : s.pc = .bcast)
    (hok : ∀ q ∈ w.comm, ok q = true) (hp : p ∈ w.comm)
    (hunused : c.uses passReceiverContAdd s p = []) (a : ℕ → α) {q : ℕ} (hq : q ∈ w.comm) :
    (c.broadcast ok garbage { s with recvbuf := Function.update s.recvbuf p a }).recvbuf q
      = Function.update (c.broadcast ok garbage s).recvbuf p a q := by
  -- a job that broadcasts something has no other worker than `p`
  have halone : ∀ q ∈ w.comm, ∀ i : ℕ, (w.node p).jobId = i → (w.node q).jobId = i →
      c.broadcasts i = true → 0 < c.bcastCount L.jobs.length → q = p := by
    intro q hq i hi hqi hbroadcasts hcount
    by_contra hne
    rw [uses_bcast hpc, CallState.node, hw, hi, Int.toNat_natCast, if_pos hbroadcasts,
      List.append_eq_nil_iff] at hunused
    exact bcastUses_ne_nil h hw hcount hp hi hq hqi (Ne.symm hne) hunused.2
  obtain ⟨i, hi, hr⟩ := (h.shares.follows q hq).job
  have hmaster := Layout.master_mem_workers (Layout.lt_length_of_mem_workers hr)
  have hm := World.procAt_mem (Layout.lt_of_mem_workers hmaster)
  have hmi := World.jobId_procAt h.nodup h.shares.follows hmaster
  have hpositive : ∀ {k : ℕ}, (k : ℤ) < c.bcastCount L.jobs.length →
      0 < c.bcastCount L.jobs.length := fun hk ↦ (Int.natCast_nonneg _).trans_lt hk
  funext k
  refine (recvbuf_broadcast_eq (s := { s with recvbuf := Function.update s.recvbuf p a }) h hw hq hi
    (hok q hq) k).trans ?_
  dsimp only
  by_cases hqp : q = p
  · subst hqp
    rw [Function.update_self, Function.update_self]
    split
    next hcond => rw [halone _ hm i hi hmi hcond.1 (hpositive hcond.2), Function.update_self]
    next => rfl
  · rw [Function.update_of_ne hqp, Function.update_of_ne hqp,
      recvbuf_broadcast_eq h hw hq hi (hok q hq)]
    split
    next hcond =>
      have hne : w.procAt (L.master i) ≠ p := fun heq ↦
        hqp (halone q hq i (heq ▸ hmi) hi hcond.1 (hpositive hcond.2))
      rw [Function.update_of_ne hne]
    next => rfl

end

/-! ## A call without failures -/

section

variable {s₀ s : CallState α} {w : World} {L : Layout w.comm.length} {root : ℕ}

theorem noFailureKept_of_enters {jobs : ℕ} (h : s₀.Enters jobs) : c.NoFailureKept s₀ :=
  Or.inr fun p _ _ ↦ h.mpiStatus p

theorem trials_lt_of_enters {jobs : ℕ} (h : s₀.Enters jobs) : s₀.totalTrials + 1 < noTrials := by
  rw [h.totalTrials]
  decide

/-- A process whose job receives nothing hands out no buffer, where the job makes no broadcast or
one that copies nothing. -/
theorem uses_eq_nil_of_cleanRun (hc : CollectiveCall c) {L : Layout s₀.world.comm.length}
    (h : s₀.world.Matches L) (h₀ : s₀.Enters L.jobs.length) (hrun : c.CleanRun input s₀ s)
    {p i : ℕ} (hp : p ∈ s₀.world.comm) (hi : (s₀.world.node p).jobId = (i : ℕ))
    (hreceives : c.receives i = false)
    (hbcast : c.broadcasts i = true →
      c.bcastCount L.jobs.length ≤ 0 ∨ (L.workers i).length = 1) :
    c.uses false s p = [] := by
  have htime := OnTime.run hc h₀.pc (noFailureKept_of_enters h₀) hrun
  cases hpc : s.pc with
  | main =>
    obtain rfl : s = s₀ := htime.stage.resolve_right fun hstage ↦ hstage.1 hpc
    cases hgroup : (s.node p).activeComm with
    | none => simp only [uses, hpc, hgroup]
    | some group =>
      obtain ⟨k, -, hk, -, hidx, -⟩ := h₀.ready.active hp hgroup
      obtain rfl : k = i := by exact_mod_cast hk.symm.trans hi
      rw [uses_main hpc hgroup, hidx, hreceives]
      simp [setRightRBuffer]
  | bcast =>
    rw [uses_bcast hpc, CallState.node, htime.world, hi, Int.toNat_natCast]
    split
    next hbroadcasts =>
      rw [(bcastUses_eq_nil_iff h htime.world hp hi).mpr (hbcast hbroadcasts)]
      rfl
    next => rfl
  | mainAgree => simp only [uses, hpc]
  | bcastAgree => simp only [uses, hpc]
  | returned => simp only [uses, hpc]

/-- Behind the broadcast the workers of a job that makes one have equal buffers. -/
theorem recvbuf_eq_of_cleanRun (hc : CollectiveCall c) (h : w.Matches L) (hw : s₀.world = w)
    {jobs : ℕ} (h₀ : s₀.Enters jobs) (hrun : c.CleanRun input s₀ s)
    (hpc : s.pc = .bcastAgree ∨ s.pc = .returned) {i : ℕ} (hbroadcasts : c.broadcasts i = true)
    {p q : ℕ} (hp : p ∈ w.comm) (hpi : (w.node p).jobId = (i : ℕ)) (hq : q ∈ w.comm)
    (hqi : (w.node q).jobId = (i : ℕ)) {k : ℕ} (hk : k < c.bcastCount L.jobs.length) :
    s.recvbuf p k = s.recvbuf q k := by
  induction hrun with
  | refl => simp [h₀.pc] at hpc
  | tail hprev hstep ih =>
    have hworld := (OnTime.run hc h₀.pc (noFailureKept_of_enters h₀) hprev).world.trans hw
    cases hstep with
    | call hpc' htrials ok garbage hok => simp [Collective.call] at hpc
    | agreeMain hpc' hs =>
      simp only [Collective.agreeMain] at hpc
      split at hpc <;> simp at hpc
    | broadcast hpc' ok garbage hok halive =>
      rw [recvbuf_broadcast_eq h hworld hp hpi (hok p (hworld ▸ hp)),
        recvbuf_broadcast_eq h hworld hq hqi (hok q (hworld ▸ hq)), if_pos ⟨hbroadcasts, hk⟩,
        if_pos ⟨hbroadcasts, hk⟩]
    | agreeBcast hpc' hs failedRoot hroot => exact ih (Or.inl hpc')

theorem exists_bcast (hc : CollectiveCall c) {jobs : ℕ} (h₀ : s₀.Enters jobs) (hs : s₀.Settled)
    (input : ℕ → (ℕ → α) → β) :
    ∃ s, c.CleanRun input s₀ s ∧ s.world = s₀.world ∧ s.pc = .bcast := by
  have hkept : c.NoFailureKept s₀ := noFailureKept_of_enters h₀
  have hagreed : c.succeeded (c.call input (fun _ ↦ true) s₀.recvbuf s₀).agreed = true :=
    hc.succeeded_agreed fun p hp ↦ OnTime.flag_call hc hkept (fun _ _ _ ↦ rfl) hp
  refine ⟨c.agreeMain (c.call input (fun _ ↦ true) s₀.recvbuf s₀), ?_, rfl, ?_⟩
  · exact .tail (.single (.call h₀.pc (trials_lt_of_enters h₀) _ _ fun _ _ _ ↦ rfl))
      (.agreeMain rfl hs)
  · rw [Collective.agreeMain, if_pos hagreed]

/-- **The receive buffers of the other jobs**, for any operation whose result goes to the root job
alone. -/
theorem frameSound_iff_broadcasts (hc : CollectiveCall c)
    (hreceives : ∀ i, i ≠ root → c.receives i = false) (hroot : c.broadcasts root = true)
    {L : Layout s₀.world.comm.length} (hfits : c.count L.jobs.length < 2 ^ 31)
    (h : s₀.world.Matches L) (h₀ : s₀.Enters L.jobs.length) (hs : s₀.Settled) :
    c.FrameSound passReceiverContAdd root input s₀ ↔
      ∀ i < L.jobs.length, i ≠ root → passReceiverContAdd = false ∧
        (c.broadcasts i = true → c.count L.jobs.length = 0 ∨ (L.workers i).length = 1) := by
  have hcount : c.bcastCount L.jobs.length = c.count L.jobs.length := bcastCount_eq hfits
  have hnothing : c.bcastCount L.jobs.length ≤ 0 ↔ c.count L.jobs.length = 0 := by omega
  have hkept : c.NoFailureKept s₀ := noFailureKept_of_enters h₀
  constructor
  · intro hsound i hi hne
    have hmaster := Layout.master_mem_workers hi
    have hm := World.procAt_mem (Layout.lt_of_mem_workers hmaster)
    have hmi := World.jobId_procAt h.nodup h.shares.follows hmaster
    have hother : (s₀.world.node (s₀.world.procAt (L.master i))).jobId ≠ (root : ℕ) := by
      rw [hmi]
      exact_mod_cast hne
    constructor
    · -- the master of the job takes part in the operation
      have hunused := hsound.untouched s₀ .refl _ hm hother
      rw [uses_main h₀.pc (h.comms.active i hi), List.append_eq_nil_iff] at hunused
      by_contra hpass
      rw [setRightRBuffer, if_pos (Bool.eq_true_of_not_eq_false hpass)] at hunused
      exact absurd hunused.1 (by simp)
    · intro hbroadcasts
      obtain ⟨s, hrun, hworld, hpc⟩ := exists_bcast hc h₀ hs input
      have hunused := hsound.untouched s hrun (s₀.world.procAt (L.master i))
        (by rw [hworld]; exact hm) (by rw [CallState.node, hworld]; exact hother)
      rw [uses_bcast hpc, CallState.node, hworld, hmi, Int.toNat_natCast, if_pos hbroadcasts,
        List.append_eq_nil_iff] at hunused
      rw [← hnothing]
      exact (bcastUses_eq_nil_iff h hworld hm hmi).mp hunused.2
  · intro hcondition
    refine ⟨?_, ?_, ?_⟩
    · intro s hrun p hp hother
      have hworld := (OnTime.run hc h₀.pc hkept hrun).world
      rw [hworld] at hp
      rw [CallState.node, hworld] at hother
      obtain ⟨i, hi, hr⟩ := (h.shares.follows p hp).job
      have hne : i ≠ root := by
        rintro rfl
        exact hother hi
      obtain ⟨rfl, hbcast⟩ := hcondition i (Layout.lt_length_of_mem_workers hr) hne
      rw [← hnothing] at hbcast
      exact uses_eq_nil_of_cleanRun hc h h₀ hrun hp hi (hreceives i hne) hbcast
    · obtain ⟨s, hrun, hpc, -⟩ := (OnTime.start s₀ : c.OnTime s₀ s₀).exists_returned hc h₀.pc hkept
        h₀.ready hs (trials_lt_of_enters h₀)
      exact ⟨s, hrun, hpc⟩
    · intro s hrun hpc p hp hpi q hq hqi k hk
      have hworld := (OnTime.run hc h₀.pc hkept hrun).world
      rw [hworld] at hp hq
      rw [jobsCount_eq h hworld hp] at hk
      rw [CallState.node, hworld] at hpi hqi
      exact recvbuf_eq_of_cleanRun hc h rfl h₀ hrun (Or.inr hpc) hroot hp hpi hq hqi
        (by rw [hcount]; exact_mod_cast hk)

end

end Collective

/-! ## Two jobs, one with a replica -/

namespace CallState

/-- Job `0` has the worker `8`; job `1` has `9`, the master, and `7`. -/
def gathering : CallState ℕ where
  pc := .main
  world := World.updateComms ⟨[7, 8, 9], Layout.descending.process [7, 8, 9]⟩
  alive _ := true
  mpiStatus _ := true
  flag _ := 0
  ckptMasterBackup p := (Layout.descending.process [7, 8, 9] p).node.nodeCheckpointMaster
  totalTrials := 0
  recvbuf p _ := p
  delivered _ := false
  attempt _ := none

theorem matches_gathering : gathering.world.Matches Layout.descending where
  nodup := by decide
  shares := World.Shares.updateComms fun _ hp ↦ Layout.process_shares Layout.descending rfl hp
  comms := World.updateComms_commsMatch (by decide)
    fun _ hp ↦ (Layout.process_shares Layout.descending rfl hp).follows

theorem enters_gathering : gathering.Enters 2 where
  ready :=
    { nodup := matches_gathering.nodup
      layout := ⟨_, rfl, matches_gathering.shares, matches_gathering.comms⟩
      input := fun _ _ _ _ ↦ rfl
      staticRank := by decide }
  pc := rfl
  totalTrials := rfl
  mpiStatus _ := rfl

end CallState

namespace Collective

end Collective

end EntangledMPI
