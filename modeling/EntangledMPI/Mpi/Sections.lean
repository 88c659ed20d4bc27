import EntangledMPI.Mpi.FaultyRuns

/-!
# From one collective call to the next

Inside the point-to-point calls a process only notes who has died. The next collective call finds
the failures, and the survivors shrink the world: the lists are renumbered and the marks cleared,
and the point-to-point calls that follow use a new communicator, in which no old message is left.

So a program is cut into sections, each up to the next collective call. What a collective call
computes is a parameter here. Replicas that begin a section in the state of their job end it in the
state of their job, and with a world that is as good as the one they began with.
-/

namespace EntangledMPI

open Streams Relation Renumbering

variable {α : Type} {σ : Type*}

/-- Between two sections, or at the collective call that ends one. -/
inductive Moment
  | between
  | atCall

/-- A deterministic program. Where `call` is `finalize` it makes no point-to-point call but a
collective one, and goes on from what `collective` leaves: from the states of all jobs, the job and
its own state. -/
structure Application (J : ℕ) (α : Type) (σ : Type*) where
  start : Fin J → σ
  call : σ → AsyncCall J α σ
  collective : (Fin J → σ) → Fin J → σ → σ

/-- Everything that was sent has been received, and every receive that was posted has been waited
for. -/
structure AllReceived {J : ℕ} (P : AsyncConfig J α σ) : Prop where
  received : ∀ source d tag,
    (P.stream (source, d, tag)).length = (P.state d).posted (source, tag)
  waited : ∀ d request, (P.state d).requests request = none

namespace Application

variable {J : ℕ} [NeZero J] (app : Application J α σ)

/-- The program of one section, when the jobs begin it in the states `S`. -/
def programFrom (S : Fin J → σ) : AsyncProgram J α σ := ⟨fun k ↦ S (Fin.ofNat J k), app.call⟩

@[simp] theorem programFrom_start (S : Fin J → σ) (k : Fin J) : (app.programFrom S).start k = S k :=
  congrArg S (Fin.ofNat_val_eq_self k)

/-- The states of the jobs on plain MPI, where nobody dies. A section leaves no message behind. -/
inductive Plain : Moment → (Fin J → σ) → Prop
  | start : Plain .between app.start
  | arrive {S : Fin J → σ} {P : AsyncConfig J α σ} (h : Plain .between S)
      (hP : (app.programFrom S).plain.Runs (app.programFrom S).plainInitial P)
      (hends : ∀ d, app.call (P.state d).state = .finalize) (hreceived : AllReceived P) :
      Plain .atCall fun d ↦ (P.state d).state
  | collective {S : Fin J → σ} (h : Plain .atCall S) :
      Plain .between fun d ↦ app.collective S d (S d)

end Application

/-! ## A section -/

namespace World

/-- Everybody begins a section, process `p` in the state `s p`. -/
def sectionStart {J : ℕ} (w : World) (s : ℕ → σ) : FaultyConfig J α σ where
  replica r := w.freshReplica r (s (w.procAt r))
  failed _ := false
  channel _ := []

/-- Every survivor has come to its next collective call, process `p` in the state `s p`. It has
received what survivors have sent to it, and waited for what it has posted. -/
structure Arrived {J : ℕ} (w : World) (call : σ → AsyncCall J α σ) (x : FaultyConfig J α σ)
    (s : ℕ → σ) : Prop where
  phase : ∀ r < w.comm.length, x.failed (w.procAt r) = false →
    (x.replica r).phase = .running (s (w.procAt r)) ∧ call (s (w.procAt r)) = .finalize
  received : ∀ r < w.comm.length, ∀ q < w.comm.length, x.failed (w.procAt r) = false →
    x.failed (w.procAt q) = false → ∀ tag,
      (x.channel (q, r, tag)).length = (x.replica r).posted (q, tag)
  waited : ∀ r < w.comm.length, x.failed (w.procAt r) = false →
    ∀ request, (x.replica r).requests request = none

variable {w : World} {L : Layout w.comm.length} {torn : α → α → α → Prop}
  {x : FaultyConfig L.jobs.length α σ}

theorem Arrived.stuck {call : σ → AsyncCall L.jobs.length α σ} {s : ℕ → σ}
    (h : w.Arrived call x s) : w.Stuck call torn x :=
  fun p hp hlive _ _ ↦ not_does_of_finalize (h.phase p hp hlive).1 (h.phase p hp hlive).2

/-- **A section**, with any failures that leave every job a worker, ends where plain MPI ends it. -/
theorem section_ends [NeZero L.jobs.length] (hw : w.FailureFree L)
    (htorn : ∀ a b, torn a a b → b = a) {app : Application L.jobs.length α σ}
    {S : Fin L.jobs.length → σ} {s s' : ℕ → σ}
    (hs : ∀ d : Fin L.jobs.length, ∀ r ∈ L.workers d, s (w.procAt r) = S d)
    (hrun : ReflTransGen (w.FaultyStep app.call torn) (w.sectionStart s) x)
    (hlives : w.EveryJobLives L x.failed) (harrived : w.Arrived app.call x s') :
    ∃ H h P, w.OneHistory L (app.programFrom S) H h x ∧
      (app.programFrom S).plain.Runs (app.programFrom S).plainInitial P ∧
      (∀ d, app.call (P.state d).state = .finalize) ∧ AllReceived P ∧
      ∀ d : Fin L.jobs.length, ∀ r ∈ L.workers d, x.failed (w.procAt r) = false →
        s' (w.procAt r) = (P.state d).state := by
  have hstart : w.OneHistory L (app.programFrom S) (fun _ ↦ []) (fun _ ↦ [])
      (w.sectionStart s : FaultyConfig L.jobs.length α σ) := by
    refine .start hw (fun _ ↦ rfl) fun d p hp ↦ ?_
    rw [Application.programFrom_start, ← hs d p hp]
    rfl
  obtain ⟨H, h, hx⟩ := hstart.run hw htorn hrun hlives
  have hstuck : w.Stuck app.call torn x := harrived.stuck
  obtain ⟨heq, P, hP, -, hafter⟩ := Stuck.ends hstuck hx hlives
  -- a survivor is where its job has ended
  have htracks : ∀ d : Fin L.jobs.length, ∀ r ∈ L.workers d, x.failed (w.procAt r) = false →
      (x.replica r).phase = .running (s' (w.procAt r)) ∧ app.call (s' (w.procAt r)) = .finalize ∧
        w.Tracks L (app.programFrom S) x.failed h d r (H r) (x.replica r) (P.state d) := by
    intro d r hr hlive
    obtain ⟨hphase, hcall⟩ := harrived.phase r (Layout.lt_of_mem_workers hr) hlive
    obtain ⟨t, ht⟩ := hx.tracks d r hr
    have hd := hafter.state d
    rw [heq d r hr hlive] at hd
    exact ⟨hphase, hcall, hd.unique ht.follows ▸ ht⟩
  have hstate : ∀ d : Fin L.jobs.length, ∀ r ∈ L.workers d, x.failed (w.procAt r) = false →
      s' (w.procAt r) = (P.state d).state := by
    intro d r hr hlive
    obtain ⟨hphase, -, ht⟩ := htracks d r hr hlive
    have hcall := ht.call
    rwa [hphase] at hcall
  refine ⟨H, h, P, hx, hP, fun d ↦ ?_, ⟨fun source d tag ↦ ?_, fun d request ↦ ?_⟩, hstate⟩
  · obtain ⟨r, hr, hlive⟩ := hlives d
    rw [← hstate d r hr hlive]
    exact (htracks d r hr hlive).2.1
  · obtain ⟨q, hq, hqlive⟩ := hlives source
    obtain ⟨r, hr, hlive⟩ := hlives d
    obtain ⟨hphase, -, ht⟩ := htracks d r hr hlive
    have hqlt := Layout.lt_of_mem_workers hq
    have hposted := ht.posted source q hq (ht.knows.unmarked hqlt hqlive) tag
    rw [hphase, ← harrived.received r (Layout.lt_of_mem_workers hr) q hqlt hlive hqlive,
      hx.channel source d q hq r hr tag hlive, (htracks source q hq hqlive).1,
      pushed_running] at hposted
    rw [hafter.stream]
    change (written (source, d, tag) (h source)).length = _
    rw [heq source q hq hqlive]
    exact hposted
  · obtain ⟨r, hr, hlive⟩ := hlives d
    have hrequest := (htracks d r hr hlive).2.2.requests request
    rw [harrived.waited r (Layout.lt_of_mem_workers hr) hlive] at hrequest
    generalize (P.state d).requests request = o at hrequest
    obtain _ | _ := hrequest
    rfl

/-! ## The collective call after it -/

/-- The processes at the end of a section. -/
def atEnd {J : ℕ} (w : World) (x : FaultyConfig J α σ) : World where
  comm := w.comm
  proc p := if p ∈ w.comm then (x.replica (w.comm.idxOf p)).process else w.proc p

/-- What the next collective call makes of the world: if anybody has died, the survivors shrink
it. -/
inductive Repairs {J : ℕ} (w : World) (x : FaultyConfig J α σ) : World → Prop
  | none (hnobody : ∀ p, x.failed p = false) : Repairs w x (w.atEnd x)
  | shrink {p : ℕ} (hp : p ∈ w.comm) (hdead : x.failed p = true) (acked : ℕ → Group) :
      Repairs w x ((w.atEnd x).shrink (fun q ↦ !x.failed q) acked)

theorem Completes.someFailed_eq_false {failed : ℕ → Bool} {channel : ℕ × ℕ × ℤ → List α} {p : ℕ}
    {pending : Pending α} {completion : ℕ → Completion α} {noted : List Group}
    (h : w.Completes failed channel p pending completion noted)
    (hnobody : ∀ q, failed q = false) : pending.agg.someFailed completion = false := by
  rw [AggregateRequest.someFailed, List.any_eq_false]
  intro status hstatus
  obtain ⟨k, hk, rfl⟩ := List.mem_mapIdx.mp hstatus
  obtain hrequest | ⟨q, hrequest⟩ := Option.eq_none_or_eq_some pending.agg.reqArray[k]
  · rw [hrequest]
    exact Bool.false_ne_true
  · rw [hrequest]
    obtain ⟨a, ha, -⟩ | ⟨_, _, -, acked, hacked, hq⟩ := h.request k q
      (hrequest ▸ List.getElem?_eq_getElem hk)
    · rw [ha]
      exact Bool.false_ne_true
    · exact absurd ((h.failed acked hacked _ hq).symm.trans (hnobody _)) (by simp)

theorem Does.process_eq {J : ℕ} {call : σ → AsyncCall J α σ} {failed : ℕ → Bool}
    {channel channel' : ℕ × ℕ × ℤ → List α} {p : ℕ} {r r' : Replica J α σ}
    (h : w.Does call torn failed channel p r r' channel') (hnobody : ∀ q, failed q = false) :
    r'.process = r.process := by
  have hnone : ∀ {q acked}, ¬w.Acks failed q acked := fun hacks ↦
    absurd ((hacks.failed _ hacks.mem).symm.trans (hnobody _)) (by simp)
  cases h with
  | sendFails _ _ _ hacked => exact absurd hacked hnone
  | recvFails _ _ _ hacked => exact absurd hacked hnone
  | irecv _ _ hacked hirecv =>
    refine AggregateRequest.process_of_mpiIrecv (fun i ↦ ?_) hirecv
    refine List.eq_nil_iff_forall_not_mem.mpr fun acked hmem ↦ ?_
    obtain ⟨q, hacks⟩ := hacked i acked hmem
    exact hnone hacks
  | wait _ _ _ hcompletes hwait =>
    exact AggregateRequest.process_of_mpiWait (hcompletes.someFailed_eq_false hnobody) hwait
  | _ => rfl

theorem process_eq_of_run {J : ℕ} {call : σ → AsyncCall J α σ} {x y : FaultyConfig J α σ}
    (hrun : ReflTransGen (w.FaultyStep call torn) x y) (hnobody : ∀ q, y.failed q = false) (r : ℕ) :
    (y.replica r).process = (x.replica r).process := by
  induction hrun with
  | refl => rfl
  | @tail y z _ hstep ih =>
    have hbefore : ∀ q, y.failed q = false := by
      intro q
      by_contra hdead
      have hz := hstep.failed_mono (Bool.not_eq_false _ ▸ hdead)
      exact absurd (hz.symm.trans (hnobody q)) (by simp)
    refine Eq.trans ?_ (ih hbefore)
    obtain @⟨p, hp, hlive⟩ | @⟨p, r', channel, hp, hlive, hdoes⟩ := hstep
    · rfl
    · dsimp only
      by_cases hrp : r = p
      · subst hrp
        rw [Function.update_self]
        exact hdoes.process_eq hbefore
      · rw [Function.update_of_ne hrp]

theorem procAt_idxOf {p : ℕ} (hp : p ∈ w.comm) : w.procAt (w.comm.idxOf p) = p :=
  Option.some_inj.mp ((getElem?_comm (List.idxOf_lt_length_of_mem hp)).symm.trans
    (List.getElem?_idxOf hp))

theorem proc_atEnd {J : ℕ} {x : FaultyConfig J α σ} {p : ℕ} (hp : p ∈ w.comm) :
    (w.atEnd x).proc p = (x.replica (w.comm.idxOf p)).process := if_pos hp

theorem atEnd_eq_self {J : ℕ} {call : σ → AsyncCall J α σ} {s : ℕ → σ} {x : FaultyConfig J α σ}
    (hrun : ReflTransGen (w.FaultyStep call torn) (w.sectionStart s) x)
    (hnobody : ∀ q, x.failed q = false) : w.atEnd x = w := by
  have hproc : (w.atEnd x).proc = w.proc := by
    funext p
    by_cases hp : p ∈ w.comm
    · have hprocess : (x.replica (w.comm.idxOf p)).process
          = w.proc (w.procAt (w.comm.idxOf p)) := process_eq_of_run hrun hnobody _
      rw [proc_atEnd hp, hprocess, procAt_idxOf hp]
    · exact if_neg hp
  exact congrArg (World.mk w.comm) hproc

theorem OneHistory.tracks_atEnd {program : AsyncProgram L.jobs.length α σ}
    {H : ℕ → History L.jobs.length α} {h : Fin L.jobs.length → History L.jobs.length α}
    (hx : w.OneHistory L program H h x) (hw : w.FailureFree L) {p : ℕ} (hp : p ∈ w.comm) :
    ((w.atEnd x).proc p).Shares L w.comm p ∧ ((w.atEnd x).node p).jobId = (w.node p).jobId := by
  have hlt := List.idxOf_lt_length_of_mem hp
  obtain ⟨k, hk⟩ := L.exists_mem_workers hlt
  obtain ⟨t, ht⟩ := hx.tracks ⟨k, Layout.lt_length_of_mem_workers hk⟩ _ hk
  have hshares := ht.knows.shares
  rw [procAt_idxOf hp] at hshares
  rw [World.node, proc_atEnd hp]
  refine ⟨hshares, ?_⟩
  obtain ⟨i, hi, hmem⟩ := hshares.job
  rw [ht.knows.rank_eq hw.nodup hlt] at hmem
  have hjob := jobId_procAt hw.nodup hw.shares.follows hk
  rw [procAt_idxOf hp] at hjob
  rw [hi, Layout.eq_of_mem_workers hmem hk, hjob]

/-- A shrink that leaves every job a worker leaves a world without failures. -/
theorem Shares.failureFree_shrink (h : w.Shares L) (hnodup : w.comm.Nodup) (keep : ℕ → Bool)
    (acked : ℕ → Group)
    (hlives : ∀ d : Fin L.jobs.length, ∃ r ∈ L.workers d, keep (w.procAt r) = true) :
    ∃ L' : Layout (w.shrink keep acked).comm.length, (w.shrink keep acked).FailureFree L' ∧
      L'.jobs.length = L.jobs.length ∧
        ∀ p ∈ w.comm.filter keep, ((w.shrink keep acked).node p).jobId = (w.node p).jobId := by
  have hlive : ∀ i < L.jobs.length,
      (L.workers i).filterMap (translate w.comm (w.comm.filter keep)) ≠ [] := by
    intro i hi hnil
    obtain ⟨r, hr, hrlive⟩ := hlives ⟨i, hi⟩
    exact filterMap_translate_eq_nil_iff.mp hnil r hr
      (List.mem_filter.mpr ⟨procAt_mem (Layout.lt_of_mem_workers hr), hrlive⟩)
  obtain ⟨hreturns, hfrom, hshares⟩ := h.shrink hnodup acked hlive
  refine ⟨_, ⟨hnodup.filter _, hshares, fun p hp r hr ↦ ?_⟩, List.length_map _,
    fun p hp ↦ (hfrom p hp).jobId⟩
  exact ((h.holds.shrink hnodup hreturns hlive).2 p hp).2 r hr

/-- **The next section** finds a world without failures, with the same jobs. -/
theorem Repairs.failureFree {program : AsyncProgram L.jobs.length α σ}
    {call : σ → AsyncCall L.jobs.length α σ} {s : ℕ → σ} {H : ℕ → History L.jobs.length α}
    {h : Fin L.jobs.length → History L.jobs.length α} {w' : World} (hw : w.FailureFree L)
    (hrun : ReflTransGen (w.FaultyStep call torn) (w.sectionStart s) x)
    (hx : w.OneHistory L program H h x) (hlives : w.EveryJobLives L x.failed)
    (hrepairs : w.Repairs x w') :
    ∃ L' : Layout w'.comm.length, w'.FailureFree L' ∧ L'.jobs.length = L.jobs.length ∧
      ∀ p ∈ w'.comm, p ∈ w.comm ∧ x.failed p = false ∧
        (w'.node p).jobId = (w.node p).jobId := by
  have hshares : (w.atEnd x).Shares L := fun p hp ↦ (hx.tracks_atEnd hw hp).1
  obtain hnobody | ⟨hp, hdead, acked⟩ := hrepairs
  · refine ⟨L, ⟨hw.nodup, hshares, fun p hp r hr ↦ ?_⟩, rfl,
      fun p hp ↦ ⟨hp, hnobody p, (hx.tracks_atEnd hw hp).2⟩⟩
    rw [atEnd_eq_self hrun hnobody]
    exact hw.notIgnored p hp r hr
  · have hlive : ∀ d : Fin L.jobs.length, ∃ r ∈ L.workers d,
        (!x.failed ((w.atEnd x).procAt r)) = true := fun d ↦
      (hlives d).imp fun r hr ↦ ⟨hr.1, congrArg not hr.2⟩
    obtain ⟨L', hw', hL', hjob⟩ :=
      hshares.failureFree_shrink hw.nodup (fun q ↦ !x.failed q) acked hlive
    refine ⟨L', hw', hL', fun p hp ↦ ?_⟩
    obtain ⟨hmem, hplive⟩ := List.mem_filter.mp hp
    exact ⟨hmem, by simpa using hplive, (hjob p hp).trans (hx.tracks_atEnd hw hmem).2⟩

/-! ## All processes in the states of their jobs -/

/-- The world is without failures, and every process is in the state that its job has in `S`. -/
structure InStates {J : ℕ} (w : World) (S : Fin J → σ) (s : ℕ → σ) : Prop where
  layout : ∃ L : Layout w.comm.length, w.FailureFree L ∧ L.jobs.length = J
  state : ∀ p ∈ w.comm, ∀ k : Fin J, (w.node p).jobId = (k : ℕ) → s p = S k

theorem FailureFree.jobId_eq_iff (hw : w.FailureFree L) {p : ℕ} (hp : p ∈ w.comm) {k : ℕ} :
    (w.node p).jobId = k ↔ w.comm.idxOf p ∈ L.workers k := by
  obtain ⟨i, hi⟩ := L.exists_mem_workers (List.idxOf_lt_length_of_mem hp)
  have hjob := jobId_procAt hw.nodup hw.shares.follows hi
  rw [procAt_idxOf hp] at hjob
  rw [hjob, Nat.cast_inj]
  exact ⟨fun hik ↦ hik ▸ hi, fun hk ↦ Layout.eq_of_mem_workers hi hk⟩

variable {J : ℕ} {S : Fin J → σ} {s : ℕ → σ}

theorem InStates.exists_worker (h : w.InStates S s) (k : Fin J) :
    ∃ p ∈ w.comm, (w.node p).jobId = (k : ℕ) := by
  obtain ⟨L, hw, hL⟩ := h.layout
  have hmem := Layout.master_mem_workers (hL.symm ▸ k.isLt : (k : ℕ) < L.jobs.length)
  exact ⟨_, procAt_mem (Layout.lt_of_mem_workers hmem),
    jobId_procAt hw.nodup hw.shares.follows hmem⟩

theorem InStates.exists_job (h : w.InStates S s) {p : ℕ} (hp : p ∈ w.comm) :
    ∃ k : Fin J, (w.node p).jobId = (k : ℕ) ∧ s p = S k := by
  obtain ⟨L, hw, hL⟩ := h.layout
  obtain ⟨i, hi⟩ := L.exists_mem_workers (List.idxOf_lt_length_of_mem hp)
  have hjob := (hw.jobId_eq_iff hp).mpr hi
  exact ⟨⟨i, hL ▸ Layout.lt_length_of_mem_workers hi⟩, hjob, h.state p hp _ hjob⟩

/-- **From one call to the next**, the replicas get to where plain MPI gets. -/
theorem InStates.arrive [NeZero J] {app : Application J α σ} {x : FaultyConfig J α σ} {s' : ℕ → σ}
    {w' : World} (h : w.InStates S s) (hplain : app.Plain .between S)
    (htorn : ∀ a b, torn a a b → b = a)
    (hrun : ReflTransGen (w.FaultyStep app.call torn) (w.sectionStart s) x)
    (hlives : ∀ k : Fin J, ∃ p ∈ w.comm, (w.node p).jobId = (k : ℕ) ∧ x.failed p = false)
    (harrived : w.Arrived app.call x s') (hrepairs : w.Repairs x w') :
    ∃ S', app.Plain .atCall S' ∧ w'.InStates S' s' := by
  obtain ⟨L, hw, rfl⟩ := h.layout
  have hworkers : w.EveryJobLives L x.failed := by
    intro d
    obtain ⟨p, hp, hjob, hlive⟩ := hlives d
    exact ⟨_, (hw.jobId_eq_iff hp).mp hjob, (procAt_idxOf hp).symm ▸ hlive⟩
  have hs : ∀ d : Fin L.jobs.length, ∀ r ∈ L.workers d, s (w.procAt r) = S d := fun d r hr ↦
    h.state _ (procAt_mem (Layout.lt_of_mem_workers hr)) d
      (jobId_procAt hw.nodup hw.shares.follows hr)
  obtain ⟨H, g, P, hx, hP, hends, hreceived, hstate⟩ :=
    section_ends hw htorn hs hrun hworkers harrived
  obtain ⟨L', hw', hL', hsurvivors⟩ := hrepairs.failureFree hw hrun hx hworkers
  refine ⟨_, .arrive hplain hP hends hreceived, ⟨L', hw', hL'⟩, fun p hp k hjob ↦ ?_⟩
  obtain ⟨hmem, hlive, hsame⟩ := hsurvivors p hp
  have hk := (hw.jobId_eq_iff hmem).mp (hsame.symm.trans hjob)
  have hend := hstate k _ hk ((procAt_idxOf hmem).symm ▸ hlive)
  rwa [procAt_idxOf hmem] at hend

/-- **A collective call** takes all replicas of a job to one state, whichever worker a job is
represented by. -/
theorem InStates.collective [NeZero J] {app : Application J α σ} (h : w.InStates S s)
    {lead : Fin J → ℕ} (hlead : ∀ d, lead d ∈ w.comm ∧ (w.node (lead d)).jobId = (d : ℕ)) :
    w.InStates (fun d ↦ app.collective S d (S d)) fun p ↦
      app.collective (fun d ↦ s (lead d)) (Fin.ofNat J (w.node p).jobId.toNat) (s p) where
  layout := h.layout
  state p hp k hjob := by
    have hleads : (fun d ↦ s (lead d)) = S := funext fun d ↦ h.state _ (hlead d).1 d (hlead d).2
    rw [hleads, hjob, Int.toNat_natCast, Fin.ofNat_val_eq_self, h.state p hp k hjob]

/-- **A shrink** leaves the survivors as they are, if every job has one. -/
theorem InStates.shrink (h : w.InStates S s) {keep : ℕ → Bool} (acked : ℕ → Group)
    (hlives : ∀ k : Fin J, ∃ p ∈ w.comm, (w.node p).jobId = (k : ℕ) ∧ keep p = true) :
    (w.shrink keep acked).InStates S s := by
  obtain ⟨L, hw, rfl⟩ := h.layout
  have hlive : ∀ d : Fin L.jobs.length, ∃ r ∈ L.workers d, keep (w.procAt r) = true := by
    intro d
    obtain ⟨p, hp, hjob, hlive⟩ := hlives d
    exact ⟨_, (hw.jobId_eq_iff hp).mp hjob, (procAt_idxOf hp).symm ▸ hlive⟩
  obtain ⟨L', hw', hL', hsame⟩ := hw.shares.failureFree_shrink hw.nodup keep acked hlive
  exact ⟨⟨L', hw', hL'⟩, fun p hp k hjob ↦
    h.state p (List.mem_of_mem_filter hp) k ((hsame p hp).symm.trans hjob)⟩

end World

end EntangledMPI
