import EntangledMPI.Mpi.CollectiveRuns

/-!
# `MPI_Bcast`

One PMPI broadcast over the whole world, from the process that is now the first worker of the root
job, and an agreement on whether it succeeded everywhere; otherwise all of it is repeated. The world
has `rep_errhandler` as its error handler, so a process whose PMPI broadcast fails is in the
handler, and shrinks, before it comes to the agreement.

A receiver whose PMPI broadcast failed may be the root of the next attempt. The bytes it has by then
are its own, as it was a worker of the root job all along, or those of the failed root.

## Main result

`Starts.returned_buffer`: when the call returns, every living process holds the data of the root
job.
-/

namespace EntangledMPI

/-- `job_list[root].rank_list[0]`. -/
def Process.rootRank (s : Process) (root : ℕ) : Except Fault ℕ := do
  let job ← readAt s.jobList root
  readAt job.rankList 0

namespace Bcast

/-- Where all processes stand: before the PMPI broadcast, between it and the agreement, or behind
the call. -/
inductive Pc
  | bcast
  | agree
  | returned
  deriving DecidableEq, Repr

/-- The call at every process; a buffer is given by its bytes. -/
structure State (ι β : Type*) where
  pc : Pc
  world : World
  alive : ℕ → Bool
  buffer : ℕ → ι → β
  flag : ℕ → BitVec 32
  /-- The PMPI broadcast has called `rep_errhandler`, which has not returned yet. -/
  handling : ℕ → Bool
  totalTrials : ℕ

namespace State

variable {ι β : Type*} (s : State ι β)

/-- The conjunction of the flags of some processes. -/
def agreed (among : ℕ → Bool) : BitVec 32 :=
  ((s.world.comm.filter among).map s.flag).foldl (· &&& ·) (BitVec.allOnes 32)

/-- No failure is left to report, and nobody is in the handler. -/
def Settled : Prop :=
  ∀ p ∈ s.world.comm, s.alive p = true ∧ (s.world.proc p).processShrinkingPending = false ∧
    s.handling p = false

/-- The process takes part in an agreement over the present world. -/
def agreeing (p : ℕ) : Bool :=
  s.alive p && !(s.world.proc p).processShrinkingPending && !s.handling p

/-! ## The steps -/

/-- The PMPI broadcast: `ok` tells where it succeeds, and `written` which bytes have reached a
process where it fails. -/
def bcast (rootRank : ℕ → ℕ) (ok : ℕ → Bool) (written : ℕ → ι → Bool) : State ι β :=
  { s with
    pc := .agree
    buffer := fun p i ↦
      if s.alive p && (ok p || written p i) then s.buffer (s.world.procAt (rootRank p)) i
      else s.buffer p i
    flag := fun p ↦ if ok p then 1 else 0
    handling := fun p ↦ !ok p
    totalTrials := s.totalTrials + 1 }

/-- Everybody shrinks the world: in the handler of the PMPI broadcast, in that of a failed
agreement, or because of an earlier failure. Whether a failed agreement writes the flag is left
open. -/
def repair (written alive : ℕ → Bool) (acked : ℕ → Group) : State ι β :=
  { s with
    world := (s.world.shrink alive acked).clearPending
    alive := alive
    flag := fun p ↦ if written p then s.agreed s.agreeing else s.flag p
    handling := fun _ ↦ false }

/-- The agreement on the flag. -/
def agree : State ι β :=
  { s with
    pc := if s.agreed s.alive ≠ 0 then .returned else .bcast
    flag := fun _ ↦ s.agreed s.alive }

end State

variable {ι β : Type*}

/-- A step of a call with the root job `root`. A dead root sends nothing. The call aborts, and makes
no more steps, when its trials are used up or a shrink finds a job without workers. -/
inductive Step (root : ℕ) : State ι β → State ι β → Prop
  | die {s : State ι β} (alive : ℕ → Bool) (halive : ∀ p, alive p = true → s.alive p = true) :
      Step root s { s with alive := alive }
  | bcast {s : State ι β} (hpc : s.pc = .bcast) (htrials : s.totalTrials + 1 < noTrials)
      (rootRank : ℕ → ℕ) (ok : ℕ → Bool) (written : ℕ → ι → Bool)
      (hroot : ∀ p ∈ s.world.comm, s.alive p = true →
        (s.world.proc p).rootRank root = .ok (rootRank p))
      (hsent : ∀ p, s.alive (s.world.procAt (rootRank p)) = false →
        ok p = false ∧ ∀ i, written p i = false) :
      Step root s (s.bcast rootRank ok written)
  | repair {s : State ι β} (hpc : s.pc = .agree) (hfail : ¬s.Settled) (written alive : ℕ → Bool)
      (acked : ℕ → Group) (hwritten : ∀ p, written p = true → s.agreeing p = true)
      (halive : ∀ p, alive p = true → s.alive p = true)
      (hacked : ∀ p, ∀ q ∈ acked p, q ∈ s.world.comm ∧ alive q = false)
      (hlive : s.world.comm.filter alive ≠ []) (hret : s.world.ShrinkReturns alive acked) :
      Step root s (s.repair written alive acked)
  | agree {s : State ι β} (hpc : s.pc = .agree) (hs : s.Settled) : Step root s s.agree

def Run (root : ℕ) : State ι β → State ι β → Prop := Relation.ReflTransGen (Step root)

/-- A call as it is entered, by processes that share a map of `jobs` jobs. The living workers of the
root job hold `data`; processes may be dead already. -/
structure Starts (jobs root : ℕ) (data : ι → β) (s : State ι β) : Prop where
  nodup : s.world.comm.Nodup
  layout : ∃ L : Layout s.world.comm.length, L.jobs.length = jobs ∧ s.world.Shares L
  root_lt : root < jobs
  rootData : ∀ p ∈ s.world.comm, s.alive p = true → (s.world.node p).jobId = (root : ℕ) →
    s.buffer p = data
  pending : ∀ p ∈ s.world.comm, (s.world.proc p).processShrinkingPending = false
  pc : s.pc = .bcast
  totalTrials : s.totalTrials = 0

/-! ## The invariant -/

/-- The root rank every process reads is that of a worker of the root job. -/
theorem rootRank_eq {w : World} {L : Layout w.comm.length} (hshares : w.Shares L) {root : ℕ}
    (hroot : root < L.jobs.length) {p : ℕ} (hp : p ∈ w.comm) :
    (w.proc p).rootRank root = .ok (L.master root) := by
  obtain ⟨job, hjob, hfirst⟩ := (hshares p hp).getElem?_first hroot
  rw [Process.rootRank, readAt_eq hjob, except_ok_bind, readAt_eq hfirst]

theorem ne_zero_of_agreed {s : State ι β} {among : ℕ → Bool} (h : s.agreed among ≠ 0) {p : ℕ}
    (hp : p ∈ s.world.comm) (hamong : among p = true) : s.flag p ≠ 0 := by
  have hand : ∀ a b : BitVec 32, a &&& b ≠ 0 → a ≠ 0 ∧ b ≠ 0 := by
    intro a b hab
    exact ⟨fun ha ↦ hab (by simp [ha]), fun hb ↦ hab (by simp [hb])⟩
  exact (forall_of_foldl_and (· ≠ 0) hand h).2 _
    (List.mem_map_of_mem (List.mem_filter.mpr ⟨hp, hamong⟩))

/-- What holds in every state of a call that began in `s₀`. -/
structure Sound (jobs root : ℕ) (data : ι → β) (s₀ s : State ι β) : Prop where
  nodup : s.world.comm.Nodup
  layout : ∃ L : Layout s.world.comm.length, L.jobs.length = jobs ∧ s.world.Shares L
  /-- No living process is dropped. -/
  mem : ∀ p ∈ s₀.world.comm, s.alive p = true → p ∈ s.world.comm
  /-- Every living worker of the root job holds the data. -/
  rootData : ∀ p ∈ s.world.comm, s.alive p = true → (s.world.node p).jobId = (root : ℕ) →
    s.buffer p = data
  /-- A flag that shows success is right. -/
  flag : s.pc = .agree → ∀ p ∈ s.world.comm, s.alive p = true → s.flag p ≠ 0 → s.buffer p = data
  returned : s.pc = .returned → ∀ p ∈ s.world.comm, s.alive p = true → s.buffer p = data

namespace Sound

variable {jobs root : ℕ} {data : ι → β} {s₀ s s' : State ι β}

theorem start (h : Starts jobs root data s) : Sound jobs root data s s where
  nodup := h.nodup
  layout := h.layout
  mem p hp _ := hp
  rootData := h.rootData
  flag hpc := by simp [h.pc] at hpc
  returned hpc := by simp [h.pc] at hpc

theorem die (h : Sound jobs root data s₀ s) {alive : ℕ → Bool}
    (halive : ∀ p, alive p = true → s.alive p = true) :
    Sound jobs root data s₀ { s with alive := alive } where
  nodup := h.nodup
  layout := h.layout
  mem p hp hlive := h.mem p hp (halive p hlive)
  rootData p hp hlive := h.rootData p hp (halive p hlive)
  flag hpc p hp hlive := h.flag hpc p hp (halive p hlive)
  returned hpc p hp hlive := h.returned hpc p hp (halive p hlive)

/-- **What a process receives** is the data, whoever is the root. -/
theorem received (h : Sound jobs root data s₀ s) (hlt : root < jobs) {rootRank : ℕ → ℕ}
    {ok : ℕ → Bool} {written : ℕ → ι → Bool}
    (hroot : ∀ p ∈ s.world.comm, s.alive p = true →
      (s.world.proc p).rootRank root = .ok (rootRank p))
    (hsent : ∀ p, s.alive (s.world.procAt (rootRank p)) = false →
      ok p = false ∧ ∀ i, written p i = false) {p : ℕ} (hp : p ∈ s.world.comm)
    (halive : s.alive p = true) {i : ι} (hreceived : ok p = true ∨ written p i = true) :
    (s.bcast rootRank ok written).buffer p i = data i := by
  obtain ⟨L, rfl, hshares⟩ := h.layout
  have hmaster := Layout.master_mem_workers hlt
  have hrank : rootRank p = L.master root :=
    Except.ok.inj ((hroot p hp halive).symm.trans (rootRank_eq hshares hlt hp))
  have hsender : s.alive (s.world.procAt (rootRank p)) = true := by
    by_contra hdead
    obtain ⟨hok, hwritten⟩ := hsent p (Bool.eq_false_of_not_eq_true hdead)
    rw [hok, hwritten i] at hreceived
    simp at hreceived
  have hdata := h.rootData _ (World.procAt_mem (Layout.lt_of_mem_workers hmaster))
    (hrank ▸ hsender) (World.jobId_procAt h.nodup hshares.follows hmaster)
  have hcond : (s.alive p && (ok p || written p i)) = true := by
    simpa [halive] using hreceived
  simp only [State.bcast, hcond, if_true, hrank, hdata]

/-- **The PMPI broadcast**: a worker of the root job keeps the data, and where the flag shows
success the data has arrived. -/
theorem bcast (h : Sound jobs root data s₀ s) (hlt : root < jobs) {rootRank : ℕ → ℕ}
    {ok : ℕ → Bool} {written : ℕ → ι → Bool}
    (hroot : ∀ p ∈ s.world.comm, s.alive p = true →
      (s.world.proc p).rootRank root = .ok (rootRank p))
    (hsent : ∀ p, s.alive (s.world.procAt (rootRank p)) = false →
      ok p = false ∧ ∀ i, written p i = false) :
    Sound jobs root data s₀ (s.bcast rootRank ok written) where
  nodup := h.nodup
  layout := h.layout
  mem := h.mem
  rootData p hp (halive : s.alive p = true) hjob := by
    funext i
    by_cases hreceived : ok p = true ∨ written p i = true
    · exact h.received hlt hroot hsent hp halive hreceived
    · have hcond : (s.alive p && (ok p || written p i)) = false := by
        simpa [halive] using hreceived
      simp only [State.bcast, hcond, Bool.false_eq_true, if_false]
      exact congrFun (h.rootData p hp halive hjob) i
  flag _ p hp halive hflag := by
    funext i
    refine h.received hlt hroot hsent hp halive (Or.inl ?_)
    by_contra hok
    exact hflag (if_neg hok)
  returned hpc := by simp [State.bcast] at hpc

theorem repair (h : Sound jobs root data s₀ s) {written alive : ℕ → Bool} {acked : ℕ → Group}
    (hwritten : ∀ p, written p = true → s.agreeing p = true)
    (halive : ∀ p, alive p = true → s.alive p = true) (hlive : s.world.comm.filter alive ≠ [])
    (hret : s.world.ShrinkReturns alive acked) (hpc : s.pc = .agree) :
    Sound jobs root data s₀ (s.repair written alive acked) := by
  obtain ⟨L, hjobs, hshares⟩ := h.layout
  obtain ⟨L', hjobs', hshares', -, hnode⟩ := hshares.repair h.nodup hlive hret
  refine ⟨h.nodup.filter _, ⟨L', hjobs'.trans hjobs, hshares'⟩, ?_, ?_, ?_, ?_⟩
  · intro p hp hkeep
    exact List.mem_filter.mpr ⟨h.mem p hp (halive p hkeep), hkeep⟩
  · intro p hp hkeep hjob
    exact h.rootData p (List.mem_of_mem_filter hp) (halive p hkeep)
      ((hnode p hp).1.symm.trans hjob)
  · intro _ p hp hkeep hflag
    have hmem := List.mem_of_mem_filter hp
    refine h.flag hpc p hmem (halive p hkeep) ?_
    -- where the flag was written, the process had a part in the conjunction
    simp only [State.repair] at hflag
    split at hflag
    next hw => exact ne_zero_of_agreed hflag hmem (hwritten p hw)
    next => exact hflag
  · intro hret'
    exact absurd (hpc.symm.trans hret') (by simp)

theorem agree (h : Sound jobs root data s₀ s) (hpc : s.pc = .agree) :
    Sound jobs root data s₀ s.agree := by
  refine ⟨h.nodup, h.layout, h.mem, h.rootData, ?_, ?_⟩
  · intro hpc'
    simp only [State.agree] at hpc'
    split at hpc' <;> cases hpc'
  · intro hret p hp halive
    have hagreed : s.agreed s.alive ≠ 0 := by
      by_contra hzero
      simp [State.agree, hzero] at hret
    exact h.flag hpc p hp halive (ne_zero_of_agreed hagreed hp halive)

/-- **Every step keeps the invariant.** -/
theorem step (h : Sound jobs root data s₀ s) (hlt : root < jobs) (hstep : Step root s s') :
    Sound jobs root data s₀ s' := by
  cases hstep with
  | die alive halive => exact h.die halive
  | bcast hpc htrials rootRank ok written hroot hsent => exact h.bcast hlt hroot hsent
  | repair hpc hfail written alive acked hwritten halive hacked hlive hret =>
    exact h.repair hwritten halive hlive hret hpc
  | agree hpc hs => exact h.agree hpc

theorem run (h : Sound jobs root data s₀ s) (hlt : root < jobs) (hrun : Run root s s') :
    Sound jobs root data s₀ s' := by
  induction hrun with
  | refl => exact h
  | tail _ hstep ih => exact ih.step hlt hstep

end Sound

/-- **The data of the root job arrives** at every process that lives when the call returns, whoever
died before or during the call. -/
theorem Starts.returned_buffer {jobs root : ℕ} {data : ι → β} {s₀ s : State ι β}
    (h : Starts jobs root data s₀) (hrun : Run root s₀ s) (hpc : s.pc = .returned) :
    ∀ p ∈ s₀.world.comm, s.alive p = true → s.buffer p = data := by
  have hsound := (Sound.start h).run h.root_lt hrun
  intro p hp halive
  exact hsound.returned hpc p (hsound.mem p hp halive) halive

/-! ## A run in which the root dies -/

/-- Two bytes; the workers `9` and `7` of job `1` have them. -/
def twoBytes : State Bool ℕ where
  pc := .bcast
  world := ⟨[7, 8, 9], Layout.descending.process [7, 8, 9]⟩
  alive _ := true
  buffer p i := if p = 8 then 0 else if i then 5 else 6
  flag _ := 0
  handling _ := false
  totalTrials := 0

/-- The broadcast of `9` reached `7`, and `8` with one byte; then `9` died. -/
def rootDied : State Bool ℕ :=
  { twoBytes.bcast (fun _ ↦ 2) (fun p ↦ p ≠ 8) (fun _ i ↦ i) with alive := fun p ↦ p ≠ 9 }

/-- The survivors have shrunk the world, and found that they have to repeat the broadcast. -/
def rootReplaced : State Bool ℕ :=
  (rootDied.repair (fun _ ↦ false) (fun p ↦ p ≠ 9) fun _ ↦ [9]).agree

/-- Now `7` is the root. -/
def repeated : State Bool ℕ := (rootReplaced.bcast (fun _ ↦ 0) (fun _ ↦ true) fun _ _ ↦ false).agree

theorem run_repeated : Run 1 twoBytes repeated := by
  have hbcast : Step 1 twoBytes (twoBytes.bcast (fun _ ↦ 2) (fun p ↦ p ≠ 8) fun _ i ↦ i) :=
    .bcast rfl (by decide) _ _ _ (by decide) fun _ h ↦ absurd h (by decide)
  have hdie : Step 1 (twoBytes.bcast (fun _ ↦ 2) (fun p ↦ p ≠ 8) fun _ i ↦ i) rootDied :=
    .die _ fun _ _ ↦ rfl
  have hrepair : Step 1 rootDied
      (rootDied.repair (fun _ ↦ false) (fun p ↦ p ≠ 9) fun _ ↦ [9]) := by
    refine .repair rfl (fun h ↦ absurd (h 9 (by decide)).1 (by decide)) _ _ _
      (fun _ h ↦ absurd h Bool.false_ne_true) (fun _ h ↦ h) ?_ (by decide) ?_
    · intro p q hq
      obtain rfl := List.mem_singleton.mp hq
      decide
    · intro p hp
      have hp' : p = 7 ∨ p = 8 := List.mem_pair.mp hp
      rcases hp' with rfl | rfl
      · exact ⟨_, rfl⟩
      · exact ⟨_, rfl⟩
  have hagree : Step 1 (rootDied.repair (fun _ ↦ false) (fun p ↦ p ≠ 9) fun _ ↦ [9])
      rootReplaced := by
    refine .agree rfl ?_
    intro p hp
    have hp' : p = 7 ∨ p = 8 := List.mem_pair.mp hp
    rcases hp' with rfl | rfl
    · exact ⟨rfl, rfl, rfl⟩
    · exact ⟨rfl, rfl, rfl⟩
  have hagain : Step 1 rootReplaced
      (rootReplaced.bcast (fun _ ↦ 0) (fun _ ↦ true) fun _ _ ↦ false) := by
    refine .bcast rfl (by decide) _ _ _ ?_ fun _ h ↦ absurd h (by decide)
    intro p hp _
    have hp' : p = 7 ∨ p = 8 := List.mem_pair.mp hp
    rcases hp' with rfl | rfl
    · rfl
    · rfl
  have hend : Step 1 (rootReplaced.bcast (fun _ ↦ 0) (fun _ ↦ true) fun _ _ ↦ false) repeated := by
    refine .agree rfl ?_
    intro p hp
    have hp' : p = 7 ∨ p = 8 := List.mem_pair.mp hp
    rcases hp' with rfl | rfl
    · exact ⟨rfl, rfl, rfl⟩
    · exact ⟨rfl, rfl, rfl⟩
  exact .tail (.tail (.tail (.tail (.tail (.tail .refl hbcast) hdie) hrepair) hagree) hagain) hend

theorem returned_buffer_repeated : repeated.pc = .returned ∧
    ∀ p ∈ twoBytes.world.comm, repeated.alive p = true →
      repeated.buffer p = fun i ↦ if i then 5 else 6 := by
  have hstarts : Starts 2 1 (fun i ↦ if i then 5 else 6) twoBytes :=
    { nodup := by decide
      layout := ⟨Layout.descending, rfl, fun _ hp ↦ Layout.process_shares _ rfl hp⟩
      root_lt := by decide
      rootData := by decide
      pending := fun _ _ ↦ rfl
      pc := rfl
      totalTrials := rfl }
  have hpc : repeated.pc = .returned := rfl
  exact ⟨hpc, hstarts.returned_buffer run_repeated hpc⟩

end Bcast

end EntangledMPI
