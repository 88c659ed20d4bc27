import EntangledMPI.Mpi.PointToPoint

/-!
# Every interleaving of the replicas is a run on plain MPI

A replicated configuration lifts a plain one when every worker stands where its job stands and every
message of the plain queue from job `s` to job `d` is in the queue from every worker of `s` to every
worker of `d`. A step of a job is made by its workers one after the other, each of them running a
whole call, and any single step out of a lifted configuration starts such a call. As steps of
different processes commute, every run of the replicas can be completed to a lifted one.

## Main results

- `replicated_matchesPlain`: what the workers receive is what their job receives on plain MPI, and
  what is left over at the end is what is left over there, once for each pair of workers, as long as
  elements have no gaps and sizes and tags do not overflow
- `not_matchesPlain_oneMessage`: otherwise it need not be
-/

namespace EntangledMPI

open MessageNetwork Relation

variable {β σ : Type*}

/-! ## One worker runs a call -/

section

variable {w : World} {J : ℕ} {stale : ℕ × ℕ × ℤ → ℕ → β} {program : Program J β σ}
  {x : RankConfig β σ} {p : ℕ} {received : List (List β)}

variable (w stale program) in
theorem run_sending {calls : List (ℕ × ℤ)} {buf : SendBuffer β} {next : σ}
    (hx : x.state p = ⟨.sending calls buf next, received⟩) (hnodup : calls.Nodup)
    (htags : ∀ call ∈ calls, 0 ≤ call.2) (hbuf : buf.datatype.Contiguous) :
    ReflTransGen ((w.replicated stale program).Step p) x
      ⟨Function.update x.state p ⟨.sending [] buf next, received⟩,
        fun c ↦ if c.1 = p ∧ c.2 ∈ calls then x.queue c ++ [buf.data] else x.queue c⟩ := by
  induction calls generalizing x with
  | nil =>
    rw [← hx, Function.update_eq_self]
    simp only [List.not_mem_nil, and_false, ↓reduceIte]
    exact .refl
  | cons call calls ih =>
    obtain ⟨hnew, hnodup⟩ := List.nodup_cons.mp hnodup
    obtain ⟨htag, htags⟩ := List.forall_mem_cons.mp htags
    have hact : (w.replicated stale program).act p (x.state p)
        = .send (p, call) buf.data ⟨.sending calls buf next, received⟩ := by
      rw [hx, ← SendBuffer.staged_eq hbuf (stale (p, call))]
      exact w.workerAct_sending stale program htag
    have hstep : (w.replicated stale program).Step p x
        ⟨Function.update x.state p ⟨.sending calls buf next, received⟩,
          Function.update x.queue (p, call) (x.queue (p, call) ++ [buf.data])⟩ :=
      ⟨_, .send hact, rfl⟩
    have hqueue : (fun c ↦ if c.1 = p ∧ c.2 ∈ calls then
          Function.update x.queue (p, call) (x.queue (p, call) ++ [buf.data]) c ++ [buf.data]
        else Function.update x.queue (p, call) (x.queue (p, call) ++ [buf.data]) c)
        = fun c ↦ if c.1 = p ∧ c.2 ∈ call :: calls then x.queue c ++ [buf.data]
          else x.queue c := by
      -- only this turn writes to the channel of `call`, since no call is made twice
      funext c
      by_cases hc : c = (p, call)
      · subst hc
        rw [if_neg fun h ↦ hnew h.2, Function.update_self, if_pos ⟨rfl, List.mem_cons_self⟩]
      · have hiff : c.1 = p ∧ c.2 ∈ call :: calls ↔ c.1 = p ∧ c.2 ∈ calls := by
          apply and_congr_right
          intro hp
          rw [List.mem_cons, or_iff_right fun h ↦ hc (Prod.ext hp h)]
        simp only [Function.update_of_ne hc, hiff]
    have hrest := ih (x := ⟨Function.update x.state p ⟨.sending calls buf next, received⟩,
      Function.update x.queue (p, call) (x.queue (p, call) ++ [buf.data])⟩)
      (Function.update_self ..) hnodup htags
    rw [hqueue, Function.update_idem] at hrest
    exact hrest.head hstep

variable (w stale program) in
theorem run_receiving {calls : List (ℕ × ℤ)} {buf a : List β} {next : List β → σ}
    (hx : x.state p = ⟨.receiving calls buf next, received⟩) (hnodup : calls.Nodup)
    (htags : ∀ call ∈ calls, 0 ≤ call.2)
    (hmessages : ∀ call ∈ calls, ∃ rest, x.queue (call.1, p, call.2) = a :: rest) :
    ReflTransGen ((w.replicated stale program).Step p) x
      ⟨Function.update x.state p
          ⟨.receiving [] (if calls = [] then buf else a) next, received⟩,
        fun c ↦ if c.2.1 = p ∧ (c.1, c.2.2) ∈ calls then (x.queue c).tail else x.queue c⟩ := by
  induction calls generalizing x buf with
  | nil =>
    rw [if_pos rfl, ← hx, Function.update_eq_self]
    simp only [List.not_mem_nil, and_false, ↓reduceIte]
    exact .refl
  | cons call calls ih =>
    obtain ⟨hnew, hnodup⟩ := List.nodup_cons.mp hnodup
    obtain ⟨htag, htags⟩ := List.forall_mem_cons.mp htags
    obtain ⟨rest, hrest⟩ := hmessages call List.mem_cons_self
    have hact : (w.replicated stale program).act p (x.state p)
        = .recv (call.1, p, call.2) fun a ↦ ⟨.receiving calls a next, received⟩ := by
      rw [hx]
      exact w.workerAct_receiving stale program htag
    have hstep : (w.replicated stale program).Step p x
        ⟨Function.update x.state p ⟨.receiving calls a next, received⟩,
          Function.update x.queue (call.1, p, call.2) rest⟩ :=
      ⟨_, .recv hact hrest, rfl⟩
    have hother : ∀ c, c ≠ (call.1, p, call.2) →
        (c.2.1 = p ∧ (c.1, c.2.2) ∈ call :: calls ↔ c.2.1 = p ∧ (c.1, c.2.2) ∈ calls) := by
      intro c hc
      apply and_congr_right
      intro hp
      rw [List.mem_cons, or_iff_right]
      rintro h
      apply hc
      rw [← h, ← hp]
    have hqueue : (fun c ↦ if c.2.1 = p ∧ (c.1, c.2.2) ∈ calls then
          (Function.update x.queue (call.1, p, call.2) rest c).tail
        else Function.update x.queue (call.1, p, call.2) rest c)
        = fun c ↦ if c.2.1 = p ∧ (c.1, c.2.2) ∈ call :: calls then (x.queue c).tail
          else x.queue c := by
      funext c
      by_cases hc : c = (call.1, p, call.2)
      · subst hc
        rw [if_neg fun h ↦ hnew h.2, Function.update_self, if_pos ⟨rfl, List.mem_cons_self⟩, hrest,
          List.tail_cons]
      · simp only [Function.update_of_ne hc, hother c hc]
    -- the messages of the other calls still wait: their channels are different ones
    have hstill : ∀ call' ∈ calls, ∃ rest', Function.update x.queue (call.1, p, call.2) rest
        (call'.1, p, call'.2) = a :: rest' := by
      intro call' hcall'
      obtain ⟨rest', hrest'⟩ := hmessages call' (List.mem_cons_of_mem _ hcall')
      refine ⟨rest', ?_⟩
      rw [Function.update_of_ne, hrest']
      intro h
      obtain ⟨hsource, htag⟩ := Prod.mk.inj h
      have hcall : call' = call := Prod.ext hsource (Prod.mk.inj htag).2
      exact hnew (hcall ▸ hcall')
    have hlast := ih (x := ⟨Function.update x.state p ⟨.receiving calls a next, received⟩,
      Function.update x.queue (call.1, p, call.2) rest⟩) (Function.update_self ..) hnodup htags
      hstill
    rw [ite_self, hqueue, Function.update_idem] at hlast
    rw [if_neg (List.cons_ne_nil _ _)]
    exact hlast.head hstep

/-- Between two calls, or right after the next one has begun. -/
def World.AtCall (w : World) (stale : ℕ × ℕ × ℤ → ℕ → β)
    (program : Program J β σ) (p : ℕ) (s : JobState (List β) σ)
    (x : Worker β σ) : Prop :=
  x = ⟨.running s.state, s.received⟩ ∨
    w.workerAct stale program p ⟨.running s.state, s.received⟩ = .internal x

theorem run_entry {s : JobState (List β) σ} {y : Worker β σ}
    (hx : w.AtCall stale program p s (x.state p))
    (hact : w.workerAct stale program p ⟨.running s.state, s.received⟩ = .internal y) :
    ReflTransGen ((w.replicated stale program).Step p) x
      ⟨Function.update x.state p y, x.queue⟩ := by
  rcases hx with hx | hx
  · exact .single ⟨y, .internal (by rw [hx]; exact hact), rfl⟩
  · rw [← Action.internal.inj (hx.symm.trans hact), Function.update_eq_self]

/-- **A whole `MPI_Send`.** -/
theorem run_send {s : JobState (List β) σ} {calls : List (ℕ × ℤ)} {buf : SendBuffer β} {next : σ}
    (hx : w.AtCall stale program p s (x.state p))
    (hact : w.workerAct stale program p ⟨.running s.state, s.received⟩
      = .internal ⟨.sending calls buf next, s.received⟩) (hnodup : calls.Nodup)
    (htags : ∀ call ∈ calls, 0 ≤ call.2) (hbuf : buf.datatype.Contiguous) :
    TransGen ((w.replicated stale program).Step p) x
      ⟨Function.update x.state p ⟨.running next, s.received⟩,
        fun c ↦ if c.1 = p ∧ c.2 ∈ calls then x.queue c ++ [buf.data] else x.queue c⟩ := by
  have hentry := run_entry hx hact
  have hsend := run_sending w stale program
    (x := ⟨Function.update x.state p ⟨.sending calls buf next, s.received⟩, x.queue⟩)
    (Function.update_self ..) hnodup htags hbuf
  refine TransGen.tail' (hentry.trans hsend) ⟨⟨.running next, s.received⟩, .internal ?_, ?_⟩
  · dsimp only
    rw [Function.update_self]
    rfl
  · rw [Function.update_idem, Function.update_idem]

/-- **A whole `MPI_Recv`.** -/
theorem run_recv {s : JobState (List β) σ} {calls : List (ℕ × ℤ)} {buf a : List β}
    {next : List β → σ} (hx : w.AtCall stale program p s (x.state p))
    (hact : w.workerAct stale program p ⟨.running s.state, s.received⟩
      = .internal ⟨.receiving calls buf next, s.received⟩) (hnodup : calls.Nodup)
    (htags : ∀ call ∈ calls, 0 ≤ call.2) (hne : calls ≠ [])
    (hmessages : ∀ call ∈ calls, ∃ rest, x.queue (call.1, p, call.2) = a :: rest) :
    TransGen ((w.replicated stale program).Step p) x
      ⟨Function.update x.state p ⟨.running (next a), s.received ++ [a]⟩,
        fun c ↦ if c.2.1 = p ∧ (c.1, c.2.2) ∈ calls then (x.queue c).tail else x.queue c⟩ := by
  have hentry := run_entry hx hact
  have hrecv := run_receiving w stale program
    (x := ⟨Function.update x.state p ⟨.receiving calls buf next, s.received⟩, x.queue⟩)
    (Function.update_self ..) hnodup htags hmessages
  rw [if_neg hne] at hrecv
  refine TransGen.tail' (hentry.trans hrecv)
    ⟨⟨.running (next a), s.received ++ [a]⟩, .internal ?_, ?_⟩
  · dsimp only
    rw [Function.update_self]
    rfl
  · rw [Function.update_idem, Function.update_idem]

end

/-! ## Lifted configurations -/

/-- Among the ranks of a layout: elements without gaps, whose copies for all workers of a job fit an
`int`, and tags that do not overflow to negative ones. -/
structure Program.Fits {n : ℕ} (L : Layout n) (program : Program L.jobs.length β σ) : Prop where
  contiguous : ∀ {state dest tag buf next}, program.call state = .send dest tag buf next →
    buf.datatype.Contiguous
  size : ∀ {state dest tag buf next}, program.call state = .send dest tag buf next →
    buf.size * (L.workers dest).length < 2 ^ 31
  sendTag : ∀ {state dest} {tag : UserTag} {buf next},
    program.call state = .send dest tag buf next → ∀ rank < n, 0 ≤ setTag rank tag
  recvTag : ∀ {state source} {tag : UserTag} {buf next},
    program.call state = .recv source tag buf next → ∀ rank < n, 0 ≤ setTag rank tag

/-- Every process holds the map, and nobody is ignored. -/
structure World.FailureFree (w : World) (L : Layout w.comm.length) : Prop where
  nodup : w.comm.Nodup
  shares : w.Shares L
  notIgnored : ∀ p ∈ w.comm, ∀ r < w.comm.length, (w.proc p).rankIgnoreList.entry r = 0

section

variable {w : World} {L : Layout w.comm.length} {stale : ℕ × ℕ × ℤ → ℕ → β}
  {program : Program L.jobs.length β σ}
  {P P' : JobConfig L.jobs.length (List β) σ} {x y : RankConfig β σ} {i : Fin L.jobs.length} {p : ℕ}

/-- The replicas lift plain configurations: `states p` for the state of the worker at rank `p`, and
`queues p q` for the channels from rank `p` to rank `q`. -/
structure World.Lifts (w : World) (L : Layout w.comm.length) (stale : ℕ × ℕ × ℤ → ℕ → β)
    (program : Program L.jobs.length β σ)
    (states : ℕ → JobConfig L.jobs.length (List β) σ)
    (queues : ℕ → ℕ → JobConfig L.jobs.length (List β) σ) (x : RankConfig β σ) : Prop where
  worker : ∀ d : Fin L.jobs.length, ∀ p ∈ L.workers d,
    w.AtCall stale program p ((states p).state d) (x.state p)
  outside : ∀ p, w.comm.length ≤ p → (x.state p).progress = .stopped
  queue : ∀ s d : Fin L.jobs.length, ∀ p ∈ L.workers s, ∀ q ∈ L.workers d, ∀ tag : UserTag,
    x.queue (p, q, setTag p tag) = (queues p q).queue (s, d, tag)
  rest : ∀ c, x.queue c ≠ [] → ∃ s d : Fin L.jobs.length, ∃ p ∈ L.workers s, ∃ q ∈ L.workers d,
    ∃ tag : UserTag, c = (p, q, setTag p tag)

theorem nodup_calls (d : ℕ) (tagOf : ℕ → ℤ) : ((L.workers d).map fun r ↦ (r, tagOf r)).Nodup :=
  (L.nodup_workers d).map fun _ _ h ↦ (Prod.mk.inj h).1

/-- Which of them goes to a given worker under a given tag; `sender` is whose rank is in the tag. -/
theorem mem_calls (sender : ℕ → ℕ) {d e : Fin L.jobs.length} {q : ℕ} (hq : q ∈ L.workers d)
    (tag t : UserTag) :
    ((q, setTag (sender q) t) : ℕ × ℤ) ∈ (L.workers e).map (fun r ↦ (r, setTag (sender r) tag)) ↔
      d = e ∧ t = tag := by
  rw [List.mem_map]
  constructor
  · rintro ⟨r, hr, hcall⟩
    obtain ⟨rfl, htag⟩ := Prod.mk.inj hcall
    exact ⟨Fin.ext (Layout.eq_of_mem_workers hq hr), (setTag_injective _ htag).symm⟩
  · rintro ⟨rfl, rfl⟩
    exact ⟨q, hq, rfl⟩

theorem workerAct_send (hw : w.FailureFree L) (hp : p ∈ L.workers i) {s : JobState (List β) σ}
    {dest : Fin L.jobs.length} {tag : UserTag} {buf : SendBuffer β} {next : σ}
    (hcall : program.call s.state = .send dest tag buf next)
    (hsize : buf.size * (L.workers dest).length < 2 ^ 31) :
    w.workerAct stale program p ⟨.running s.state, s.received⟩
      = .internal ⟨.sending ((L.workers dest).map fun r ↦ (r, setTag p tag)) buf next,
          s.received⟩ := by
  have hlt := Layout.lt_of_mem_workers hp
  have hmem := World.procAt_mem hlt
  have hrank : (w.proc (w.procAt p)).node.rank = p :=
    World.rank_procAt hw.nodup hw.shares.follows hlt
  have hcalls : (w.proc (w.procAt p)).mpiSend dest tag buf.size
      = .ok ((L.workers dest).map fun r ↦ (r, setTag p tag)) := by
    obtain ⟨target, htarget, hcount, -⟩ := (hw.shares _ hmem).exists_job dest.isLt
    rw [Process.mpiSend, htarget, except_ok_bind, hcount, if_neg (not_le.mpr hsize),
      (hw.shares _ hmem).workerCalls_eq (hw.notIgnored _ hmem) dest.isLt, hrank]
  simp only [World.workerAct, hcall, hcalls]

theorem workerAct_recv (hw : w.FailureFree L) (hp : p ∈ L.workers i) {s : JobState (List β) σ}
    {source : Fin L.jobs.length} {tag : UserTag} {buf : List β} {next : List β → σ}
    (hcall : program.call s.state = .recv source tag buf next) :
    w.workerAct stale program p ⟨.running s.state, s.received⟩
      = .internal ⟨.receiving ((L.workers source).map fun r ↦ (r, setTag r tag)) buf next,
          s.received⟩ := by
  have hmem := World.procAt_mem (Layout.lt_of_mem_workers hp)
  have hcalls : (w.proc (w.procAt p)).mpiRecv source tag
      = .ok ((L.workers source).map fun r ↦ (r, setTag r tag)) := by
    rw [Process.mpiRecv, (hw.shares _ hmem).workerCalls_eq (hw.notIgnored _ hmem) source.isLt]
  simp only [World.workerAct, hcall, hcalls]

/-! ## The workers of a job make its step one after the other -/

/-- The workers in `done` have made the step from `P` to `P'`; `own p q` is the one of the two ranks
that uses the channel. -/
def Stage (w : World) (L : Layout w.comm.length) (stale : ℕ × ℕ × ℤ → ℕ → β)
    (program : Program L.jobs.length β σ)
    (P P' : JobConfig L.jobs.length (List β) σ) (own : ℕ → ℕ → ℕ) (done : List ℕ)
    (x : RankConfig β σ) : Prop :=
  w.Lifts L stale program (fun p ↦ if p ∈ done then P' else P)
    (fun p q ↦ if own p q ∈ done then P' else P) x

variable {done : List ℕ} {own : ℕ → ℕ → ℕ}

theorem Stage.worker_update (hx : Stage w L stale program P P' own done x) (hp : p ∈ L.workers i)
    {s : JobState (List β) σ} (hs : P'.state i = s) (d : Fin L.jobs.length) {q : ℕ}
    (hq : q ∈ L.workers d) : w.AtCall stale program q ((if q ∈ p :: done then P' else P).state d)
      (Function.update x.state p ⟨.running s.state, s.received⟩ q) := by
  by_cases hqp : q = p
  · subst hqp
    obtain rfl : d = i := Fin.ext (Layout.eq_of_mem_workers hq hp)
    rw [Function.update_self, if_pos List.mem_cons_self, hs]
    exact Or.inl rfl
  · rw [Function.update_of_ne hqp]
    simp only [List.mem_cons, hqp, false_or]
    exact hx.worker d q hq

theorem Stage.outside_update (hx : Stage w L stale program P P' own done x) (hp : p ∈ L.workers i)
    (z : Worker β σ) {q : ℕ} (hq : w.comm.length ≤ q) :
    (Function.update x.state p z q).progress = .stopped := by
  rw [Function.update_of_ne (Nat.ne_of_gt ((Layout.lt_of_mem_workers hp).trans_le hq))]
  exact hx.outside q hq

theorem Stage.send (hw : w.FailureFree L) (hfits : program.Fits L) {dest : Fin L.jobs.length}
    {tag : UserTag} {buf : SendBuffer β} {next : σ}
    (hcall : program.call (P.state i).state = .send dest tag buf next)
    (hstate : P'.state = Function.update P.state i ⟨next, (P.state i).received⟩)
    (hqueue : P'.queue
      = Function.update P.queue (i, dest, tag) (P.queue (i, dest, tag) ++ [buf.data]))
    (hp : p ∈ L.workers i) (hdone : p ∉ done)
    (hx : Stage w L stale program P P' (fun p _ ↦ p) done x) :
    ∃ y, TransGen ((w.replicated stale program).Step p) x y ∧
      Stage w L stale program P P' (fun p _ ↦ p) (p :: done) y := by
  have hat := hx.worker i p hp
  rw [if_neg hdone] at hat
  have htags : ∀ call ∈ (L.workers dest).map fun r ↦ ((r, setTag p tag) : ℕ × ℤ), 0 ≤ call.2 := by
    intro call hmem
    obtain ⟨r, -, rfl⟩ := List.mem_map.mp hmem
    dsimp only
    exact hfits.sendTag hcall p (Layout.lt_of_mem_workers hp)
  refine ⟨_, run_send hat (workerAct_send hw hp hcall (hfits.size hcall)) (nodup_calls dest _) htags
    (hfits.contiguous hcall), ?_⟩
  refine ⟨fun d q hq ↦ hx.worker_update hp (by rw [hstate, Function.update_self]) d hq,
    fun q hq ↦ hx.outside_update hp _ hq, ?_, ?_⟩
  · -- only the channels that `p` sends on have moved, and `p` alone uses them at this end
    intro s d q hq q' hq' t
    have hold := hx.queue s d q hq q' hq' t
    have hkey := mem_calls (fun _ ↦ p) (e := dest) hq' tag t
    dsimp only at hkey hold ⊢
    by_cases hqp : q = p
    · subst hqp
      obtain rfl : s = i := Fin.ext (Layout.eq_of_mem_workers hq hp)
      rw [if_neg hdone] at hold
      simp only [true_and, hkey, hold, if_pos List.mem_cons_self, hqueue]
      split
      next h => rw [h.1, h.2, Function.update_self]
      next h =>
        rw [Function.update_of_ne fun hc ↦ h (Prod.mk.inj (Prod.mk.inj hc).2)]
    · simp only [hqp, false_and, ↓reduceIte, List.mem_cons, false_or]
      exact hold
  · intro c hc
    dsimp only at hc
    split at hc
    next hkey =>
      obtain ⟨hcp, hcalls⟩ := hkey
      obtain ⟨q, hq, hcq⟩ := List.mem_map.mp hcalls
      exact ⟨i, dest, p, hp, q, hq, tag, Prod.ext hcp hcq.symm⟩
    next => exact hx.rest c hc

theorem Stage.recv (hw : w.FailureFree L) (hfits : program.Fits L) {source : Fin L.jobs.length}
    {tag : UserTag} {buf a : List β} {next : List β → σ} {rest : List (List β)}
    (hcall : program.call (P.state i).state = .recv source tag buf next)
    (hmessage : P.queue (source, i, tag) = a :: rest)
    (hstate : P'.state = Function.update P.state i ⟨next a, (P.state i).received ++ [a]⟩)
    (hqueue : P'.queue = Function.update P.queue (source, i, tag) rest)
    (hp : p ∈ L.workers i) (hdone : p ∉ done)
    (hx : Stage w L stale program P P' (fun _ q ↦ q) done x) :
    ∃ y, TransGen ((w.replicated stale program).Step p) x y ∧
      Stage w L stale program P P' (fun _ q ↦ q) (p :: done) y := by
  have hat := hx.worker i p hp
  rw [if_neg hdone] at hat
  have hmessages : ∀ call ∈ (L.workers source).map fun r ↦ ((r, setTag r tag) : ℕ × ℤ),
      ∃ rest, x.queue (call.1, p, call.2) = a :: rest := by
    intro call hcall
    obtain ⟨r, hr, rfl⟩ := List.mem_map.mp hcall
    have hold := hx.queue source i r hr p hp tag
    rw [if_neg hdone, hmessage] at hold
    dsimp only
    exact ⟨rest, hold⟩
  have hne : (L.workers source).map (fun r ↦ ((r, setTag r tag) : ℕ × ℤ)) ≠ [] := by
    simpa using Layout.workers_ne_nil source.isLt
  have htags : ∀ call ∈ (L.workers source).map fun r ↦ ((r, setTag r tag) : ℕ × ℤ),
      0 ≤ call.2 := by
    intro call hmem
    obtain ⟨r, hr, rfl⟩ := List.mem_map.mp hmem
    dsimp only
    exact hfits.recvTag hcall r (Layout.lt_of_mem_workers hr)
  refine ⟨_, run_recv hat (workerAct_recv hw hp hcall) (nodup_calls source _) htags hne hmessages,
    ?_⟩
  refine ⟨fun d q hq ↦ hx.worker_update hp (by rw [hstate, Function.update_self]) d hq,
    fun q hq ↦ hx.outside_update hp _ hq, ?_, fun c hc ↦ hx.rest c ?_⟩
  · -- only the channels into `p` have moved, each by the one message it has taken
    intro s d q hq q' hq' t
    have hold := hx.queue s d q hq q' hq' t
    have hkey := mem_calls (fun r ↦ r) (e := source) hq tag t
    dsimp only at hkey hold ⊢
    by_cases hqp : q' = p
    · subst hqp
      have hdi : d = i := Fin.ext (Layout.eq_of_mem_workers hq' hp)
      subst hdi
      rw [if_neg hdone] at hold
      simp only [true_and, hkey, hold, if_pos List.mem_cons_self, hqueue]
      split
      next h => rw [h.1, h.2, Function.update_self, hmessage, List.tail_cons]
      next h =>
        rw [Function.update_of_ne fun hc ↦ h ⟨(Prod.mk.inj hc).1,
          (Prod.mk.inj (Prod.mk.inj hc).2).2⟩]
    · simp only [hqp, false_and, ↓reduceIte, List.mem_cons, false_or]
      exact hold
  · dsimp only at hc
    split at hc
    next => exact fun h ↦ hc (by rw [h, List.tail_nil])
    next => exact hc

/-- All workers stand where `P` has their jobs, and all channels hold what `P` has between them. -/
def World.Lifted (w : World) (L : Layout w.comm.length) (stale : ℕ × ℕ × ℤ → ℕ → β)
    (program : Program L.jobs.length β σ)
    (P : JobConfig L.jobs.length (List β) σ) (x : RankConfig β σ) : Prop :=
  w.Lifts L stale program (fun _ ↦ P) (fun _ _ ↦ P) x

theorem Stage.start (hx : w.Lifted L stale program P x) :
    Stage w L stale program P P' own [] x := by
  simp only [Stage, List.not_mem_nil, ↓reduceIte]
  exact hx

theorem Stage.finish (hx : Stage w L stale program P P' own done x)
    (hdone : ∀ p, p ∈ done ↔ p ∈ L.workers i) (hstate : ∀ d ≠ i, P'.state d = P.state d)
    (hqueue : ∀ s d : Fin L.jobs.length, ∀ p ∈ L.workers s, ∀ q ∈ L.workers d,
      own p q ∉ L.workers i → ∀ tag, P'.queue (s, d, tag) = P.queue (s, d, tag)) :
    w.Lifted L stale program P' x := by
  refine ⟨?_, hx.outside, ?_, hx.rest⟩
  · intro d p hp
    have h := hx.worker d p hp
    by_cases hd : d = i
    · rwa [if_pos ((hdone p).mpr (hd ▸ hp))] at h
    · have hnot : p ∉ done := fun hmem ↦
        hd (Fin.ext (Layout.eq_of_mem_workers hp ((hdone p).mp hmem)))
      rwa [if_neg hnot, ← hstate d hd] at h
  · intro s d p hp q hq tag
    have h := hx.queue s d p hp q hq tag
    by_cases hown : own p q ∈ done
    · rwa [if_pos hown] at h
    · rwa [if_neg hown, ← hqueue s d p hp q hq (fun hmem ↦ hown ((hdone _).mpr hmem)) tag] at h

/-- The workers that are left make the step in any order. -/
theorem Stage.rest_of_job
    (hone : ∀ done p x, p ∈ L.workers i → p ∉ done → Stage w L stale program P P' own done x →
      ∃ y, TransGen ((w.replicated stale program).Step p) x y ∧
        Stage w L stale program P P' own (p :: done) y)
    {todo : List ℕ} (hnodup : todo.Nodup) (htodo : ∀ p ∈ todo, p ∈ L.workers i ∧ p ∉ done)
    (hx : Stage w L stale program P P' own done x) :
    ∃ y, (w.replicated stale program).Runs x y ∧
      Stage w L stale program P P' own (todo.reverse ++ done) y := by
  induction todo generalizing done x with
  | nil => exact ⟨x, .refl, hx⟩
  | cons p todo ih =>
    obtain ⟨hnew, hnodup⟩ := List.nodup_cons.mp hnodup
    obtain ⟨hp, hpdone⟩ := htodo p List.mem_cons_self
    obtain ⟨y, hxy, hy⟩ := hone done p x hp hpdone hx
    have htodo' : ∀ q ∈ todo, q ∈ L.workers i ∧ q ∉ p :: done := by
      intro q hq
      obtain ⟨hqi, hqdone⟩ := htodo q (List.mem_cons_of_mem p hq)
      refine ⟨hqi, ?_⟩
      intro hmem
      rcases List.mem_cons.mp hmem with rfl | hmem
      · exact hnew hq
      · exact hqdone hmem
    obtain ⟨z, hyz, hz⟩ := ih hnodup htodo' hy
    refine ⟨z, (Network.runs_of_transGen hxy).trans hyz, ?_⟩
    rwa [List.reverse_cons, List.append_assoc, List.singleton_append]

theorem Stage.job
    (hone : ∀ done p x, p ∈ L.workers i → p ∉ done → Stage w L stale program P P' own done x →
      ∃ y, TransGen ((w.replicated stale program).Step p) x y ∧
        Stage w L stale program P P' own (p :: done) y)
    (hstate : ∀ d ≠ i, P'.state d = P.state d)
    (hqueue : ∀ s d : Fin L.jobs.length, ∀ p ∈ L.workers s, ∀ q ∈ L.workers d,
      own p q ∉ L.workers i → ∀ tag, P'.queue (s, d, tag) = P.queue (s, d, tag))
    (hp : p ∈ L.workers i) (hx : w.Lifted L stale program P x) :
    ∃ y z, TransGen ((w.replicated stale program).Step p) x y ∧
      (w.replicated stale program).Runs y z ∧ w.Lifted L stale program P' z := by
  obtain ⟨y, hxy, hy⟩ := hone [] p x hp List.not_mem_nil (.start hx)
  have htodo : ∀ q ∈ (L.workers i).filter (· ≠ p), q ∈ L.workers i ∧ q ∉ [p] := by simp
  obtain ⟨z, hyz, hz⟩ := Stage.rest_of_job hone ((L.nodup_workers i).filter _) htodo hy
  refine ⟨y, z, hxy, hyz, hz.finish ?_ hstate hqueue⟩
  intro q
  by_cases hqp : q = p
  · simp [hqp, hp]
  · simp [hqp]

/-! ## Steps of jobs and steps of workers -/

theorem plain_step_cases (h : program.plain.Step i P P') :
    (∃ dest tag buf next, program.call (P.state i).state = .send dest tag buf next ∧
      P'.state = Function.update P.state i ⟨next, (P.state i).received⟩ ∧
      P'.queue = Function.update P.queue (i, dest, tag) (P.queue (i, dest, tag) ++ [buf.data])) ∨
    ∃ source tag buf next a rest, program.call (P.state i).state = .recv source tag buf next ∧
      P.queue (source, i, tag) = a :: rest ∧
      P'.state = Function.update P.state i ⟨next a, (P.state i).received ++ [a]⟩ ∧
      P'.queue = Function.update P.queue (source, i, tag) rest := by
  obtain ⟨t, heffect, hstate⟩ := h
  have hact : program.plain.act i (P.state i) = program.plainAct i (P.state i) := rfl
  rw [Program.plainAct] at hact
  cases hcall : program.call (P.state i).state with
  | send dest tag buf next =>
    rw [hcall] at hact
    obtain ⟨rfl, hqueue⟩ := heffect.of_send hact
    exact Or.inl ⟨dest, tag, buf, next, rfl, hstate, hqueue⟩
  | recv source tag buf next =>
    rw [hcall] at hact
    obtain ⟨a, rest, hmessage, rfl, hqueue⟩ := heffect.of_recv hact
    exact Or.inr ⟨source, tag, buf, next, a, rest, rfl, hmessage, hstate, hqueue⟩
  | finalize =>
    rw [hcall] at hact
    exact absurd hact heffect.ne_halt

/-- **A step of a job**, with any of its workers going first. -/
theorem World.Lifted.step (hw : w.FailureFree L) (hfits : program.Fits L)
    (hx : w.Lifted L stale program P x)
    (hP : program.plain.Step i P P') (hp : p ∈ L.workers i) :
    ∃ y z, TransGen ((w.replicated stale program).Step p) x y ∧
      (w.replicated stale program).Runs y z ∧ w.Lifted L stale program P' z := by
  rcases plain_step_cases hP with ⟨dest, tag, buf, next, hcall, hstate, hqueue⟩ |
    ⟨source, tag, buf, next, a, rest, hcall, hmessage, hstate, hqueue⟩
  · refine Stage.job (fun done p x hp hdone ↦ Stage.send hw hfits hcall hstate hqueue hp hdone)
      ?_ ?_ hp hx
    · intro d hd
      rw [hstate, Function.update_of_ne hd]
    · intro s d p hps q hq hnot t
      rw [hqueue, Function.update_of_ne]
      intro hc
      exact hnot ((Prod.mk.inj hc).1 ▸ hps)
  · refine Stage.job (fun done p x hp hdone ↦
      Stage.recv hw hfits hcall hmessage hstate hqueue hp hdone) ?_ ?_ hp hx
    · intro d hd
      rw [hstate, Function.update_of_ne hd]
    · intro s d p hps q hq hnot t
      rw [hqueue, Function.update_of_ne]
      intro hc
      exact hnot ((Prod.mk.inj (Prod.mk.inj hc).2).1 ▸ hq)

/-- A worker between two calls can only begin the next one. -/
theorem World.Lifted.step_running (hx : w.Lifted L stale program P x) (hp : p ∈ L.workers i)
    (hrunning : x.state p = ⟨.running (P.state i).state, (P.state i).received⟩)
    (hstep : (w.replicated stale program).Step p x y) :
    w.Lifted L stale program P y ∧ (x.state p).progress.isRunning = true ∧
      (y.state p).progress.isRunning = false ∧ ∀ q ≠ p, y.state q = x.state q := by
  obtain ⟨t, heffect, hstate⟩ := hstep
  rw [hrunning] at heffect
  obtain ⟨z, hz, hprogress, -⟩ | hhalt := w.workerAct_running stale program p
    (P.state i).state (P.state i).received
  · obtain ⟨rfl, hqueue⟩ := heffect.of_internal hz
    refine ⟨⟨?_, ?_, hqueue ▸ hx.queue, hqueue ▸ hx.rest⟩, by rw [hrunning]; rfl, ?_, ?_⟩
    · intro d q hq
      rw [hstate]
      by_cases hqp : q = p
      · subst hqp
        obtain rfl : d = i := Fin.ext (Layout.eq_of_mem_workers hq hp)
        rw [Function.update_self]
        exact Or.inr hz
      · rw [Function.update_of_ne hqp]
        exact hx.worker d q hq
    · intro q hq
      rw [hstate, Function.update_of_ne
        (Nat.ne_of_gt ((Layout.lt_of_mem_workers hp).trans_le hq))]
      exact hx.outside q hq
    · rw [hstate, Function.update_self]
      exact hprogress
    · intro q hqp
      rw [hstate, Function.update_of_ne hqp]
  · exact absurd hhalt heffect.ne_halt

/-- A worker that has begun a call can go on only where its job can. -/
theorem World.Lifted.job_enabled (hw : w.FailureFree L) (hfits : program.Fits L)
    (hx : w.Lifted L stale program P x)
    (hp : p ∈ L.workers i)
    (hbegun : w.workerAct stale program p ⟨.running (P.state i).state, (P.state i).received⟩
      = .internal (x.state p)) (hstep : (w.replicated stale program).Step p x y) :
    ∃ P', program.plain.Step i P P' := by
  have hplain : program.plain.act i (P.state i) = program.plainAct i (P.state i) := rfl
  rw [Program.plainAct] at hplain
  cases hcall : program.call (P.state i).state with
  | send dest tag buf next =>
    rw [hcall] at hplain
    exact ⟨⟨_, _⟩, _, .send hplain, rfl⟩
  | recv source tag buf next =>
    rw [hcall] at hplain
    rw [workerAct_recv hw hp hcall] at hbegun
    have hstate := Action.internal.inj hbegun
    obtain ⟨r, rest, hworkers⟩ := List.exists_cons_of_ne_nil (Layout.workers_ne_nil source.isLt)
    have hqueue := hx.queue source i r (hworkers ▸ List.mem_cons_self) p hp tag
    have htag : 0 ≤ setTag r tag :=
      hfits.recvTag hcall r (Layout.lt_of_mem_workers (hworkers ▸ List.mem_cons_self))
    have hact : (w.replicated stale program).act p (x.state p) = .recv (r, p, setTag r tag) fun a ↦
        ⟨.receiving (rest.map fun r ↦ (r, setTag r tag)) a next, (P.state i).received⟩ := by
      change w.workerAct stale program p (x.state p) = _
      rw [← hstate, hworkers, List.map_cons]
      exact w.workerAct_receiving stale program htag
    obtain ⟨t, heffect, -⟩ := hstep
    obtain ⟨a, rest, hmessage, -, -⟩ := heffect.of_recv hact
    exact ⟨⟨_, _⟩, _, .recv hplain (hqueue.symm.trans hmessage), rfl⟩
  | finalize =>
    simp only [World.workerAct, hcall] at hbegun
    exact absurd hbegun (by simp)

theorem World.Lifted.step_blocked (hw : w.FailureFree L) (hfits : program.Fits L)
    (hx : w.Lifted L stale program P x)
    (hblocked : ∀ P', ¬program.plain.Step i P P') (hp : p ∈ L.workers i)
    (hstep : (w.replicated stale program).Step p x y) :
    w.Lifted L stale program P y ∧ (x.state p).progress.isRunning = true ∧
      (y.state p).progress.isRunning = false ∧ ∀ q ≠ p, y.state q = x.state q := by
  rcases hx.worker i p hp with hrunning | hbegun
  · exact hx.step_running hp hrunning hstep
  · obtain ⟨P', hP'⟩ := hx.job_enabled hw hfits hp hbegun hstep
    exact absurd hP' (hblocked P')

theorem World.Lifted.exists_job (hx : w.Lifted L stale program P x)
    (hstep : (w.replicated stale program).Step p x y) :
    ∃ i : Fin L.jobs.length, p ∈ L.workers i := by
  by_cases hlt : p < w.comm.length
  · obtain ⟨k, hk⟩ := L.exists_mem_workers hlt
    exact ⟨⟨k, Layout.lt_length_of_mem_workers hk⟩, hk⟩
  · have hact : (w.replicated stale program).act p (x.state p) = .halt := by
      have hstopped := hx.outside p (not_lt.mp hlt)
      change w.workerAct stale program p (x.state p) = .halt
      rw [World.workerAct.eq_def, hstopped]
    obtain ⟨t, heffect, -⟩ := hstep
    exact absurd hact heffect.ne_halt

/-! ## Runs -/

/-- **Any step out of a lifted configuration leads back to one.** -/
theorem World.Lifted.return (hw : w.FailureFree L) (hfits : program.Fits L)
    (hx : w.Lifted L stale program P x)
    (hstep : (w.replicated stale program).Step p x y) :
    ∃ P' z, program.plain.Runs P P' ∧ (w.replicated stale program).Runs y z ∧
      w.Lifted L stale program P' z := by
  obtain ⟨i, hp⟩ := hx.exists_job hstep
  by_cases hblocked : ∀ P', ¬program.plain.Step i P P'
  · exact ⟨P, y, .refl, .refl, (hx.step_blocked hw hfits hblocked hp hstep).1⟩
  · push Not at hblocked
    obtain ⟨P', hP'⟩ := hblocked
    obtain ⟨y', z, hxy', hy'z, hz⟩ := hx.step hw hfits hP' hp
    exact ⟨P', z, .single ⟨i, hP'⟩, (hstep.mem_run hxy').trans hy'z, hz⟩

theorem World.Lifted.runs (hw : w.FailureFree L) (hfits : program.Fits L)
    (hx : w.Lifted L stale program P x)
    (hP : program.plain.Runs P P') :
    ∃ y, (w.replicated stale program).Runs x y ∧ w.Lifted L stale program P' y := by
  induction hP with
  | refl => exact ⟨x, .refl, hx⟩
  | tail _ hmove ih =>
    obtain ⟨i, hi⟩ := hmove
    obtain ⟨y, hxy, hy⟩ := ih
    obtain ⟨p, hp⟩ := List.exists_mem_of_ne_nil _ (Layout.workers_ne_nil i.isLt)
    obtain ⟨y', z, hyy', hy'z, hz⟩ := hy.step hw hfits hi hp
    exact ⟨z, hxy.trans ((Network.runs_of_transGen hyy').trans hy'z), hz⟩

variable (program) in
theorem World.lifted_initial (hw : w.FailureFree L) :
    w.Lifted L stale program program.plainInitial (w.replicatedInitial program) where
  worker d p hp := by
    apply Or.inl
    have hjob := World.jobId_procAt hw.nodup hw.shares.follows hp
    simp only [World.replicatedInitial, if_pos (Layout.lt_of_mem_workers hp), hjob,
      Int.toNat_natCast, Program.plainInitial]
  outside p hp := by
    simp only [World.replicatedInitial, if_neg (not_lt.mpr hp)]
  queue _ _ _ _ _ _ _ := rfl
  rest _ hc := absurd rfl hc

/-- The ranks that stand between two calls. -/
def between (w : World) (x : RankConfig β σ) : Finset ℕ :=
  (Finset.range w.comm.length).filter fun p ↦ (x.state p).progress.isRunning

theorem mem_between {p : ℕ} : p ∈ between w x ↔
    p < w.comm.length ∧ (x.state p).progress.isRunning = true := by
  rw [between, Finset.mem_filter, Finset.mem_range]

/-- Where the jobs can go no further, the workers can only begin their last calls. -/
theorem World.Lifted.exists_terminal (hw : w.FailureFree L) (hfits : program.Fits L)
    (hP : program.plain.Terminal P) (hx : w.Lifted L stale program P x) :
    ∃ y, (w.replicated stale program).Runs x y ∧ (w.replicated stale program).Terminal y := by
  induction hcard : (between w x).card using Nat.strong_induction_on generalizing x with
  | h count ih =>
    by_cases hterminal : (w.replicated stale program).Terminal x
    · exact ⟨x, .refl, hterminal⟩
    · simp only [Network.Terminal, not_forall, not_not] at hterminal
      obtain ⟨y, p, hstep⟩ := hterminal
      obtain ⟨i, hp⟩ := hx.exists_job hstep
      have hblocked : ∀ P', ¬program.plain.Step i P P' := fun P' hP' ↦ hP P' ⟨i, hP'⟩
      obtain ⟨hy, hrunning, hbegun, hsame⟩ := hx.step_blocked hw hfits hblocked hp hstep
      have hnot : p ∉ between w y := fun hmem ↦ by
        exact absurd (hbegun.symm.trans (mem_between.mp hmem).2) (by simp)
      have hsubset : between w y ⊆ between w x := by
        intro q hq
        have hqp : q ≠ p := fun h ↦ hnot (h ▸ hq)
        obtain ⟨hlt, hq⟩ := mem_between.mp hq
        exact mem_between.mpr ⟨hlt, hsame q hqp ▸ hq⟩
      have hmem : p ∈ between w x := mem_between.mpr ⟨Layout.lt_of_mem_workers hp, hrunning⟩
      have hless : (between w y).card < count :=
        hcard ▸ Finset.card_lt_card ((Finset.ssubset_iff_of_subset hsubset).mpr ⟨p, hmem, hnot⟩)
      obtain ⟨z, hyz, hz⟩ := ih _ hless hy rfl
      exact ⟨z, .head ⟨p, hstep⟩ hyz, hz⟩

/-! ## The result -/

/-- What the workers have received and what is left in the channels is that of `P`, each message
once for every pair of a sender and a receiver, and nothing else. -/
structure World.EndsAs (w : World) (L : Layout w.comm.length)
    (P : JobConfig L.jobs.length (List β) σ) (x : RankConfig β σ) : Prop where
  received : ∀ d : Fin L.jobs.length, ∀ p ∈ L.workers d, (x.state p).received = (P.state d).received
  unmatched : ∀ s d : Fin L.jobs.length, ∀ p ∈ L.workers s, ∀ q ∈ L.workers d, ∀ tag : UserTag,
    x.queue (p, q, setTag p tag) = P.queue (s, d, tag)
  count : ∀ (s d : Fin L.jobs.length) (tag : UserTag),
    ((L.workers s ×ˢ L.workers d).map fun c ↦ (x.queue (c.1, c.2, setTag c.1 tag)).length).sum
      = (L.workers s).length * (L.workers d).length * (P.queue (s, d, tag)).length
  others : ∀ c, x.queue c ≠ [] → ∃ s d : Fin L.jobs.length, ∃ p ∈ L.workers s, ∃ q ∈ L.workers d,
    ∃ tag : UserTag, c = (p, q, setTag p tag)

/-- Every interleaving of the replicas against every run on plain MPI. -/
structure World.MatchesPlain (w : World) (L : Layout w.comm.length)
    (stale : ℕ × ℕ × ℤ → ℕ → β) (program : Program L.jobs.length β σ) : Prop where
  /-- The workers receive nothing but what their job receives in some plain run. -/
  received : ∀ x, (w.replicated stale program).Runs (w.replicatedInitial program) x →
    ∃ P, program.plain.Runs program.plainInitial P ∧ ∀ d : Fin L.jobs.length, ∀ p ∈ L.workers d,
      (x.state p).received <+: (P.state d).received
  /-- And in every plain run, receive by receive. -/
  same : ∀ x P, (w.replicated stale program).Runs (w.replicatedInitial program) x →
    program.plain.Runs program.plainInitial P → ∀ d : Fin L.jobs.length, ∀ p ∈ L.workers d,
      ∀ (k : ℕ) (a b : List β), (x.state p).received[k]? = some a →
        (P.state d).received[k]? = some b → a = b
  /-- Whatever ends on plain MPI can still end at the workers. -/
  ends : ∀ x P, (w.replicated stale program).Runs (w.replicatedInitial program) x →
    program.plain.Runs program.plainInitial P → ∃ y, (w.replicated stale program).Runs x y ∧
      ∀ d : Fin L.jobs.length, ∀ p ∈ L.workers d, (P.state d).received <+: (y.state p).received
  /-- If a plain run comes to an end, every interleaving can. -/
  stops : ∀ x P, (w.replicated stale program).Runs (w.replicatedInitial program) x →
    program.plain.Runs program.plainInitial P → program.plain.Terminal P →
      ∃ y, (w.replicated stale program).Runs x y ∧ (w.replicated stale program).Terminal y
  /-- And where one has, it ends as the plain runs do. -/
  finished : ∀ x, (w.replicated stale program).Runs (w.replicatedInitial program) x →
    (w.replicated stale program).Terminal x →
      (∃ P, program.plain.Runs program.plainInitial P ∧ program.plain.Terminal P) ∧
        ∀ P, program.plain.Runs program.plainInitial P → program.plain.Terminal P → w.EndsAs L P x

theorem World.Lifted.received_eq (hx : w.Lifted L stale program P x) (hp : p ∈ L.workers i) :
    (x.state p).received = (P.state i).received := by
  rcases hx.worker i p hp with hrunning | hbegun
  · rw [hrunning]
  · obtain ⟨z, hz, -, hreceived⟩ | hhalt := w.workerAct_running stale program p
      (P.state i).state (P.state i).received
    · rw [Action.internal.inj (hbegun.symm.trans hz), hreceived]
    · exact absurd (hbegun.symm.trans hhalt) (by simp)

theorem prefix_received (hrun : (w.replicated stale program).Runs x y) (p : ℕ) :
    (x.state p).received <+: (y.state p).received := by
  refine Network.state_rule (fun s t : Worker β σ ↦ s.received <+: t.received)
    (fun s ↦ List.prefix_refl _) List.IsPrefix.trans (fun {q s _ t _} heffect ↦ ?_) hrun p
  obtain ⟨progress, received⟩ := s
  cases progress with
  | running state =>
    obtain ⟨z, hz, -, hreceived⟩ | hhalt := w.workerAct_running stale program q
      state received
    · rw [(heffect.of_internal hz).1, hreceived]
    · exact absurd hhalt heffect.ne_halt
  | sending calls buf next =>
    cases calls with
    | nil => rw [(heffect.of_internal rfl).1]
    | cons call calls =>
      by_cases htag : call.2 < 0
      · exact absurd (if_pos htag) heffect.ne_halt
      · rw [(heffect.of_send (if_neg htag)).1]
  | receiving calls buf next =>
    cases calls with
    | nil =>
      rw [(heffect.of_internal rfl).1]
      exact List.prefix_append _ _
    | cons call calls =>
      by_cases htag : call.2 < 0
      · exact absurd (if_pos htag) heffect.ne_halt
      · obtain ⟨a, rest, -, rfl, -⟩ := heffect.of_recv (if_neg htag)
        exact List.prefix_refl _
  | stopped => exact absurd rfl heffect.ne_halt

theorem World.Lifted.endsAs (hx : w.Lifted L stale program P x) : w.EndsAs L P x where
  received _ _ hp := hx.received_eq hp
  unmatched := hx.queue
  count s d tag := by
    have hpair : ∀ c ∈ L.workers s ×ˢ L.workers d,
        (x.queue (c.1, c.2, setTag c.1 tag)).length = (P.queue (s, d, tag)).length := by
      intro c hc
      obtain ⟨hp, hq⟩ := List.mem_product.mp hc
      rw [hx.queue s d c.1 hp c.2 hq tag]
    rw [List.map_congr_left hpair, List.map_const', List.sum_replicate, List.length_product,
      smul_eq_mul]
  others := hx.rest

theorem World.exists_lifted (hw : w.FailureFree L) (hfits : program.Fits L)
    (hrun : (w.replicated stale program).Runs (w.replicatedInitial program) x) :
    ∃ P z, program.plain.Runs program.plainInitial P ∧ (w.replicated stale program).Runs x z ∧
      w.Lifted L stale program P z :=
  Network.simulation_rule (fun _ _ _ _ hx hstep ↦ hx.return hw hfits hstep)
    (World.lifted_initial program hw) hrun

theorem World.exists_received (hw : w.FailureFree L) (hfits : program.Fits L)
    (hx : (w.replicated stale program).Runs (w.replicatedInitial program) x)
    (hP : program.plain.Runs program.plainInitial P) :
    ∃ y, (w.replicated stale program).Runs x y ∧ ∀ d : Fin L.jobs.length, ∀ p ∈ L.workers d,
      (P.state d).received <+: (y.state p).received := by
  obtain ⟨z, hz, hlifted⟩ := (World.lifted_initial program hw).runs hw hfits hP
  obtain ⟨y, hxy, hzy⟩ := Network.confluent hx hz
  refine ⟨y, hxy, ?_⟩
  intro d p hp
  rw [← hlifted.received_eq hp]
  exact prefix_received hzy p

/-- **The replicas match plain MPI**, for every layout and every program whose elements and tags
fit. -/
theorem World.replicated_matchesPlain (hw : w.FailureFree L)
    (program : Program L.jobs.length β σ) (hfits : program.Fits L)
    (stale : ℕ × ℕ × ℤ → ℕ → β) : w.MatchesPlain L stale program := by
  refine ⟨?_, ?_, fun x P hx hP ↦ World.exists_received hw hfits hx hP, ?_, ?_⟩
  · intro x hx
    obtain ⟨P, z, hP, hxz, hz⟩ := World.exists_lifted hw hfits hx
    refine ⟨P, hP, ?_⟩
    intro d p hp
    rw [← hz.received_eq hp]
    exact prefix_received hxz p
  · -- both lists begin one that the worker can still come to have
    intro x P hx hP d p hp k a b ha hb
    obtain ⟨y, hxy, hy⟩ := World.exists_received hw hfits hx hP
    obtain ⟨hka, rfl⟩ := List.getElem?_eq_some_iff.mp ha
    obtain ⟨hkb, rfl⟩ := List.getElem?_eq_some_iff.mp hb
    rw [(prefix_received hxy p).getElem hka, (hy d p hp).getElem hkb]
  · intro x P hx hP hstop
    obtain ⟨z, hz, hlifted⟩ := (World.lifted_initial program hw).runs hw hfits hP
    obtain ⟨y, hzy, hy⟩ := hlifted.exists_terminal hw hfits hstop
    obtain ⟨v, hxv, hyv⟩ := Network.confluent hx (hz.trans hzy)
    rw [hy.eq hyv] at hxv
    exact ⟨y, hxv, hy⟩
  · intro x hx hstop
    obtain ⟨P, z, hP, hxz, hz⟩ := World.exists_lifted hw hfits hx
    obtain rfl := hstop.eq hxz
    -- a job that could step would let one of its workers step
    have hPstop : program.plain.Terminal P := by
      rintro P' ⟨i, hi⟩
      obtain ⟨p, hp⟩ := List.exists_mem_of_ne_nil _ (Layout.workers_ne_nil i.isLt)
      obtain ⟨y, -, hxy, -, -⟩ := hz.step hw hfits hi hp
      obtain ⟨y', hstep, -⟩ := TransGen.head'_iff.mp hxy
      exact hstop y' ⟨p, hstep⟩
    refine ⟨⟨P, hP, hPstop⟩, ?_⟩
    intro P' hP' hPstop'
    rw [Network.terminal_unique hP' hP hPstop' hPstop]
    exact hz.endsAs

end

/-! ## One message -/

abbrev descendingWorld : World := ⟨[7, 8, 9], Layout.descending.process [7, 8, 9]⟩

theorem descendingWorld_failureFree : descendingWorld.FailureFree Layout.descending where
  nodup := by decide
  shares _ hp := Layout.process_shares Layout.descending rfl hp
  notIgnored _ _ _ _ := rfl

/-- One job sends one message to another. -/
def messageFrom (source dest : Fin 2) (buf : SendBuffer ℕ) (tag : UserTag) : Program 2 ℕ ℕ where
  start job := job
  call state :=
    if state = source then .send dest tag buf 2
    else if state = dest then .recv source tag [] fun _ ↦ 3
    else .finalize

/-- Job `0` sends one message to job `1`. -/
abbrev oneMessage (buf : SendBuffer ℕ) (tag : UserTag) : Program 2 ℕ ℕ :=
  messageFrom ⟨0, Nat.two_pos⟩ ⟨1, Nat.one_lt_two⟩ buf tag

section

variable {buf : SendBuffer ℕ} {tag : UserTag} {stale : ℕ × ℕ × ℤ → ℕ → ℕ}

/-- The PMPI tag of the message. -/
abbrev messageTag (tag : UserTag) : ℤ := setTag (1 : ℕ) tag

theorem plain_oneMessage (buf : SendBuffer ℕ) (tag : UserTag) :
    ∃ P, (oneMessage buf tag).plain.Runs (oneMessage buf tag).plainInitial P ∧
      (oneMessage buf tag).plain.Terminal P ∧
      (P.state ⟨1, Nat.one_lt_two⟩).received = [buf.data] := by
  let sender : Fin 2 := ⟨0, Nat.two_pos⟩
  let receiver : Fin 2 := ⟨1, Nat.one_lt_two⟩
  let start := (oneMessage buf tag).plainInitial
  let sent : JobConfig 2 (List ℕ) ℕ := ⟨Function.update start.state sender ⟨2, []⟩,
    Function.update start.queue (sender, receiver, tag) [buf.data]⟩
  have hsend : (oneMessage buf tag).plain.Step sender start sent := ⟨_, .send rfl, rfl⟩
  have hrecv : (oneMessage buf tag).plain.Step receiver sent
      ⟨Function.update sent.state receiver ⟨3, [buf.data]⟩,
        Function.update sent.queue (sender, receiver, tag) []⟩ :=
    ⟨_, .recv (k := fun a ↦ ⟨3, [a]⟩) rfl (Function.update_self ..), rfl⟩
  refine ⟨_, (ReflTransGen.single ⟨_, hsend⟩).tail ⟨_, hrecv⟩, ?_, rfl⟩
  rintro P ⟨d, t, heffect, -⟩
  match d, heffect with
  | ⟨0, _⟩, heffect | ⟨1, _⟩, heffect => exact heffect.ne_halt rfl

theorem workerAct_sender (stale : ℕ × ℕ × ℤ → ℕ → ℕ) (tag : UserTag)
    (hsize : buf.size * 2 < 2 ^ 31) :
    descendingWorld.workerAct stale (oneMessage buf tag) 1 ⟨.running 0, []⟩
      = .internal ⟨.sending [(2, messageTag tag), (0, messageTag tag)] buf 2, []⟩ :=
  @workerAct_send _ _ descendingWorld Layout.descending stale (oneMessage buf tag)
    ⟨0, Nat.two_pos⟩ 1 descendingWorld_failureFree (by decide) ⟨0, []⟩ ⟨1, Nat.one_lt_two⟩ tag buf 2
    rfl hsize

theorem workerAct_receiver (stale : ℕ × ℕ × ℤ → ℕ → ℕ) (buf : SendBuffer ℕ) (tag : UserTag)
    {p : ℕ} (hp : p ∈ [2, 0]) :
    descendingWorld.workerAct stale (oneMessage buf tag) p ⟨.running 1, []⟩
      = .internal ⟨.receiving [(1, messageTag tag)] [] fun _ ↦ 3, []⟩ :=
  @workerAct_recv _ _ descendingWorld Layout.descending stale (oneMessage buf tag)
    ⟨1, Nat.one_lt_two⟩ p descendingWorld_failureFree hp ⟨1, []⟩ ⟨0, Nat.two_pos⟩ tag [] (fun _ ↦ 3)
    rfl

theorem exists_received_oneMessage (stale : ℕ × ℕ × ℤ → ℕ → ℕ) (hsize : buf.size * 2 < 2 ^ 31)
    (htag : 0 ≤ messageTag tag) :
    ∃ x, (descendingWorld.replicated stale (oneMessage buf tag)).Runs
        (descendingWorld.replicatedInitial (oneMessage buf tag)) x ∧
      (x.state 2).received = [buf.staged (stale (1, 2, messageTag tag))] := by
  have hsender := workerAct_sender stale tag hsize
  have hreceiver := workerAct_receiver stale buf tag (p := 2) (by decide)
  generalize messageTag tag = t at htag hsender hreceiver ⊢
  have hsend := @World.workerAct_sending _ _ _ descendingWorld stale (oneMessage buf tag) 1 2 t
    [(0, t)] buf 2 [] htag
  have hrecv := @World.workerAct_receiving _ _ _ descendingWorld stale (oneMessage buf tag) 2 1 t
    [] [] (fun _ ↦ 3) [] htag
  have hstart : (descendingWorld.replicated stale (oneMessage buf tag)).Runs
    (descendingWorld.replicatedInitial (oneMessage buf tag)) _ := .refl
  have hbegun := hstart.act 1 (.internal hsender)
  have hsent := hbegun.act 1 (.send hsend)
  have hwaits := hsent.act 2 (.internal hreceiver)
  have hgot := hwaits.act 2 (.recv hrecv (Function.update_self ..))
  exact ⟨_, hgot.act 2 (.internal rfl), rfl⟩

/-- A copy that lacks some of the elements arrives without them. -/
theorem not_matchesPlain_of_staged_ne (hsize : buf.size * 2 < 2 ^ 31) (htag : 0 ≤ messageTag tag)
    (hne : buf.staged (stale (1, 2, messageTag tag)) ≠ buf.data) :
    ¬descendingWorld.MatchesPlain Layout.descending stale (oneMessage buf tag) := by
  intro h
  obtain ⟨x, hx, hreceived⟩ := exists_received_oneMessage stale hsize htag
  obtain ⟨P, hP, -, hdata⟩ := plain_oneMessage buf tag
  have hgot : (x.state 2).received[0]? = some (buf.staged (stale (1, 2, messageTag tag))) := by
    rw [hreceived, List.getElem?_cons_zero]
  have hplain : (P.state ⟨1, Nat.one_lt_two⟩).received[0]? = some buf.data := by
    rw [hdata, List.getElem?_cons_zero]
  exact hne (h.same x P hx hP ⟨1, Nat.one_lt_two⟩ 2 (by decide) 0 _ _ hgot hplain)

/-- Nothing is under way, and nobody has received anything; `t` is the PMPI tag. -/
structure Unsent (buf : SendBuffer ℕ) (t : ℤ) (x : RankConfig ℕ ℕ) : Prop where
  queue : ∀ c, x.queue c = []
  sender : x.state 1 = ⟨.running 0, []⟩ ∨
    t < 0 ∧ x.state 1 = ⟨.sending [(2, t), (0, t)] buf 2, []⟩
  others : ∀ p, p ≠ 1 → (x.state p = ⟨.running 1, []⟩ ∧ p ∈ [2, 0]) ∨
    x.state p = ⟨.receiving [(1, t)] [] fun _ ↦ 3, []⟩ ∨ x.state p = ⟨.stopped, []⟩

theorem Unsent.received {t : ℤ} {x : RankConfig ℕ ℕ} (hx : Unsent buf t x) :
    (x.state 2).received = [] := by
  rcases hx.others 2 (by decide) with ⟨h, -⟩ | h | h <;> rw [h]

theorem workerAct_sender_overflow (hsize : 2 ^ 31 ≤ buf.size * 2) :
    descendingWorld.workerAct stale (oneMessage buf tag) 1 ⟨.running 0, []⟩ = .halt := by
  have hmem := @World.procAt_mem descendingWorld 1 (by decide)
  have hcalls : (descendingWorld.proc (descendingWorld.procAt 1)).mpiSend 1 tag buf.size
      = .error .outOfBounds := by
    obtain ⟨target, htarget, hcount, -⟩ :=
      (descendingWorld_failureFree.shares _ hmem).exists_job (show 1 < 2 from Nat.one_lt_two)
    rw [Process.mpiSend, htarget, except_ok_bind, hcount]
    exact if_pos hsize
  have hcall : (oneMessage buf tag).call 0 = .send ⟨1, Nat.one_lt_two⟩ tag buf 2 := rfl
  simp only [World.workerAct, hcall, hcalls]

theorem unsent_initial (t : ℤ) :
    Unsent buf t (descendingWorld.replicatedInitial (oneMessage buf tag)) where
  queue _ := rfl
  sender := Or.inl rfl
  others
    | 0, _ => Or.inl ⟨rfl, by decide⟩
    | 1, h => absurd rfl h
    | 2, _ => Or.inl ⟨rfl, by decide⟩
    | _ + 3, _ => Or.inr (Or.inr rfl)

theorem Unsent.move (hrefused : 2 ^ 31 ≤ buf.size * 2 ∨ messageTag tag < 0)
    {x y : RankConfig ℕ ℕ} (hx : Unsent buf (messageTag tag) x)
    (hmove : (descendingWorld.replicated stale (oneMessage buf tag)).Moves x y) :
    Unsent buf (messageTag tag) y := by
  have hoverflow := @workerAct_sender_overflow buf tag stale
  have hsender := @workerAct_sender buf stale tag
  have hreceiver := fun p ↦ @workerAct_receiver stale buf tag p
  generalize messageTag tag = t at *
  generalize oneMessage buf tag = program at *
  obtain ⟨p, s, heffect, hstate⟩ := hmove
  by_cases hp : p = 1
  · -- the sender begins its call at most
    subst hp
    obtain ⟨htag, hsending, hqueue⟩ :
        t < 0 ∧ s = ⟨.sending [(2, t), (0, t)] buf 2, []⟩ ∧ y.queue = x.queue := by
      rcases hx.sender with h | ⟨htag, h⟩
      · rw [h] at heffect
        by_cases hsize : 2 ^ 31 ≤ buf.size * 2
        · exact absurd (hoverflow hsize) heffect.ne_halt
        · exact ⟨hrefused.resolve_left hsize, heffect.of_internal (hsender (not_le.mp hsize))⟩
      · rw [h] at heffect
        exact (heffect.ne_halt
          (World.workerAct_sending_neg descendingWorld stale program htag)).elim
    refine ⟨fun c ↦ hqueue ▸ hx.queue c, Or.inr ⟨htag, ?_⟩, ?_⟩
    · rw [hstate, Function.update_self, hsending]
    · intro q hq
      rw [hstate, Function.update_of_ne hq]
      exact hx.others q hq
  · -- a receiver begins its call, and then waits for a message that nobody sends
    obtain ⟨hreceiving, hqueue⟩ :
        s = ⟨.receiving [(1, t)] [] fun _ ↦ 3, []⟩ ∧ y.queue = x.queue := by
      rcases hx.others p hp with ⟨h, hmem⟩ | h | h
      · rw [h] at heffect
        exact heffect.of_internal (hreceiver p hmem)
      · rw [h] at heffect
        by_cases htag : t < 0
        · exact (heffect.ne_halt
            (World.workerAct_receiving_neg descendingWorld stale program htag)).elim
        · obtain ⟨a, rest, hmessage, -⟩ := heffect.of_recv
            (World.workerAct_receiving descendingWorld stale program (not_lt.mp htag))
          exact absurd (hmessage.symm.trans (hx.queue _)) (List.cons_ne_nil _ _)
      · rw [h] at heffect
        exact absurd rfl heffect.ne_halt
    refine ⟨fun c ↦ hqueue ▸ hx.queue c, ?_, ?_⟩
    · rw [hstate, Function.update_of_ne (Ne.symm hp)]
      exact hx.sender
    · intro q hq
      rw [hstate]
      by_cases hqp : q = p
      · rw [hqp, Function.update_self]
        exact Or.inr (Or.inl hreceiving)
      · rw [Function.update_of_ne hqp]
        exact hx.others q hq

/-- What the sender cannot send, no worker of the receiver ever gets. -/
theorem not_matchesPlain_of_refused (hrefused : 2 ^ 31 ≤ buf.size * 2 ∨ messageTag tag < 0) :
    ¬descendingWorld.MatchesPlain Layout.descending stale (oneMessage buf tag) := by
  intro h
  obtain ⟨P, hP, -, hdata⟩ := plain_oneMessage buf tag
  obtain ⟨y, hy, hreceived⟩ := h.ends _ P .refl hP
  have hunsent : Unsent buf (messageTag tag) y := by
    clear hreceived
    induction hy with
    | refl => exact unsent_initial _
    | tail _ hmove ih => exact ih.move hrefused hmove
  have hlast : [buf.data] <+: (y.state 2).received :=
    List.IsPrefix.trans ⟨[], hdata.symm⟩ (hreceived ⟨1, Nat.one_lt_two⟩ 2 (by decide))
  rw [hunsent.received] at hlast
  exact absurd hlast.length_le (by simp)

end

/-- Two bytes with a gap between them. -/
abbrev gapBuffer : SendBuffer ℕ := ⟨fun k ↦ k + 1, ⟨[0, 2], 3⟩, 1⟩

/-- Four bytes, some number of times. -/
abbrev wordsBuffer (count : ℕ) : SendBuffer ℕ := ⟨fun k ↦ k + 1, .ofBytes 4, count⟩

/-- **Where the replicas do not match plain MPI**: elements with gaps, sizes that do not fit an
`int`, and tags that overflow. -/
theorem not_matchesPlain_oneMessage :
    (¬descendingWorld.MatchesPlain Layout.descending (fun _ _ ↦ 0)
      (oneMessage gapBuffer ⟨5, by decide⟩)) ∧
    (¬descendingWorld.MatchesPlain Layout.descending (fun _ _ ↦ 0)
      (oneMessage (wordsBuffer (2 ^ 28)) ⟨5, by decide⟩)) ∧
    ¬descendingWorld.MatchesPlain Layout.descending (fun _ _ ↦ 0)
      (oneMessage (wordsBuffer 1) (Fin.last _)) :=
  ⟨not_matchesPlain_of_staged_ne (by decide) (by decide) (by decide),
    not_matchesPlain_of_refused (Or.inl (by decide)),
    not_matchesPlain_of_refused (Or.inr (by decide))⟩

theorem of_call_send {source dest dest' : Fin 2} {buf buf' : SendBuffer ℕ} {tag tag' : UserTag}
    {state next : ℕ}
    (h : (messageFrom source dest buf tag).call state = .send dest' tag' buf' next) :
    tag' = tag ∧ buf' = buf := by
  simp only [messageFrom] at h
  split at h
  next =>
    obtain ⟨-, rfl, rfl, -⟩ := Call.send.inj h
    exact ⟨rfl, rfl⟩
  next => split at h <;> exact absurd h (by simp)

theorem of_call_recv {source source' dest : Fin 2} {buf : SendBuffer ℕ} {tag tag' : UserTag}
    {state : ℕ} {old : List ℕ} {next : List ℕ → ℕ}
    (h : (messageFrom source dest buf tag).call state = .recv source' tag' old next) :
    tag' = tag := by
  simp only [messageFrom] at h
  split at h
  next => exact absurd h (by simp)
  next =>
    split at h
    next => exact (Call.recv.inj h).2.1.symm
    next => exact absurd h (by simp)

theorem fits_messageFrom (source dest : Fin 2) {tag : UserTag}
    (htag : 100 * 3 + (tag : ℕ) < 2 ^ 31) :
    (messageFrom source dest (wordsBuffer 1) tag).Fits Layout.descending where
  contiguous h := by
    obtain ⟨-, rfl⟩ := of_call_send h
    exact TypeMap.contiguous_ofBytes 4
  size h := by
    obtain ⟨-, rfl⟩ := of_call_send h
    have hsize : ∀ d : Fin 2,
        (wordsBuffer 1).size * (Layout.descending.workers d).length < 2 ^ 31 := by decide
    exact hsize _
  sendTag h rank hrank := by
    obtain ⟨rfl, -⟩ := of_call_send h
    exact setTag_nonneg htag rank hrank
  recvTag h rank hrank := by
    obtain rfl := of_call_recv h
    exact setTag_nonneg htag rank hrank

theorem replicated_matchesPlain_oneMessage : descendingWorld.MatchesPlain Layout.descending
    (fun _ _ ↦ 0) (oneMessage (wordsBuffer 1) ⟨5, by decide⟩) :=
  World.replicated_matchesPlain descendingWorld_failureFree _ (fits_messageFrom _ _ (by decide)) _

end EntangledMPI
