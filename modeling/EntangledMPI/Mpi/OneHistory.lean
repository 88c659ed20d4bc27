import EntangledMPI.Mpi.OneReplica

/-!
# Replicas between failures go through one history

Replicas of a job do not move together, and a failure reaches them at different turns of different
calls: one has got a message from a worker that died before it could send it to the next. What holds
them together is one history of plain MPI. Each replica has gone through a part of what its job does
there, and a receiver that lives has been sent what its sender has sent of that history.

The history is that of the jobs, so it also says what the messages of the dead would have been. That
is why a replica may use what a dead worker has sent, or go without.

`World.OneHistory` is the invariant.
-/

namespace EntangledMPI

open Streams

variable {α : Type} {σ : Type*} {w : World} {L : Layout w.comm.length}
  {program : AsyncProgram L.jobs.length α σ} {torn : α → α → α → Prop}
  {x : FaultyConfig L.jobs.length α σ} {H : ℕ → History L.jobs.length α}
  {h h' : Fin L.jobs.length → History L.jobs.length α} {d : Fin L.jobs.length} {p : ℕ}
  {g : History L.jobs.length α} {r : Replica L.jobs.length α σ} {s : AsyncJob L.jobs.length α σ}
  {channel : ℕ × ℕ × ℤ → List α}

/-- Every job has a worker that lives. -/
def World.EveryJobLives (w : World) {n : ℕ} (L : Layout n) (failed : ℕ → Bool) : Prop :=
  ∀ d : Fin L.jobs.length, ∃ p ∈ L.workers d, failed (w.procAt p) = false

/-- **One history for all.** Rank `p` has gone through `H p`, and the jobs through `h` on plain MPI.
A receiver that lives has been sent what its sender has sent. -/
structure World.OneHistory (w : World) (L : Layout w.comm.length)
    (program : AsyncProgram L.jobs.length α σ) (H : ℕ → History L.jobs.length α)
    (h : Fin L.jobs.length → History L.jobs.length α) (x : FaultyConfig L.jobs.length α σ) :
    Prop where
  reached : program.plain.Reached program.plainInitial.state h
  tracks : ∀ d : Fin L.jobs.length, ∀ p ∈ L.workers d,
    ∃ s, w.Tracks L program x.failed h d p (H p) (x.replica p) s
  channel : ∀ d' d : Fin L.jobs.length, ∀ q ∈ L.workers d', ∀ p ∈ L.workers d, ∀ tag : UserTag,
    x.failed (w.procAt p) = false →
      x.channel (q, p, setTag q tag) = pushed L d' d tag p (H q) (x.replica q).phase

namespace World.OneHistory

theorem start (hw : w.FailureFree L) (hchannel : ∀ c, x.channel c = [])
    (hreplica : ∀ d : Fin L.jobs.length, ∀ p ∈ L.workers d,
      x.replica p = w.freshReplica p (program.start d)) :
    w.OneHistory L program (fun _ ↦ []) (fun _ ↦ []) x where
  reached := .start
  tracks d p hp := by
    have hmem := procAt_mem (Layout.lt_of_mem_workers hp)
    rw [hreplica d p hp]
    refine ⟨program.plainInitial.state d, ⟨hw.shares _ hmem, fun r q hr hmark ↦ ?_⟩, .nil, rfl, rfl,
      List.prefix_refl _, fun _ _ _ _ _ ↦ rfl, trivial, fun _ ↦ .none⟩
    have hlt := (List.getElem?_eq_some_iff.mp hr).1
    have hclear : (w.proc (w.procAt p)).rankIgnoreList.entry r = 0 := hw.notIgnored _ hmem r hlt
    exact absurd (hclear.symm.trans hmark) (by simp)
  channel d' d q hq p hp tag _ := by
    rw [hreplica d' q hq, hchannel]
    rfl

theorem initial (hw : w.FailureFree L) :
    w.OneHistory L program (fun _ ↦ []) (fun _ ↦ []) (w.faultyInitial program) := by
  refine .start hw (fun _ ↦ rfl) fun d p hp ↦ ?_
  simp only [faultyInitial, jobId_procAt hw.nodup hw.shares.follows hp, Int.toNat_natCast]

theorem dies (hx : w.OneHistory L program H h x) (dead : ℕ) :
    w.OneHistory L program H h { x with failed := Function.update x.failed dead true } where
  reached := hx.reached
  tracks d p hp := by
    obtain ⟨s, hs⟩ := hx.tracks d p hp
    refine ⟨s, hs.mono (fun q hq ↦ ?_) fun k ↦ List.prefix_refl _⟩
    dsimp only
    by_cases hqd : q = dead
    · rw [hqd, Function.update_self]
    · rwa [Function.update_of_ne hqd]
  channel d' d q hq p hp tag hlive := by
    refine hx.channel d' d q hq p hp tag ?_
    dsimp only at hlive
    by_cases hpd : w.procAt p = dead
    · rw [hpd] at hlive
      exact absurd hlive (by simp)
    · rwa [Function.update_of_ne hpd] at hlive

/-- **What has been sent** to somebody who lives is what plain MPI has sent to its job. -/
theorem delivered (hx : w.OneHistory L program H h x) (hp : p ∈ L.workers d)
    (hlive : x.failed (w.procAt p) = false) (source : Fin L.jobs.length) (q : ℕ)
    (hq : q ∈ L.workers source) (tag : UserTag) (k : ℕ) (a : α)
    (ha : (x.channel (q, p, setTag q tag))[k]? = some a) :
    (written (source, d, tag) (h source))[k]? = some a := by
  obtain ⟨s, hs⟩ := hx.tracks source q hq
  obtain ⟨rest, hrest⟩ := hs.pushed_le d tag p
  rw [hx.channel source d q hq p hp tag hlive] at ha
  rw [← hrest, List.getElem?_append_left (List.getElem?_eq_some_iff.mp ha).1, ha]

theorem next (hx : w.OneHistory L program H h x) (hp : p ∈ L.workers d)
    (hlive : x.failed (w.procAt p) = false) (ht : w.Tracks L program x.failed h d p g r s)
    {source : Fin L.jobs.length} {tag : UserTag} {buf a : α} {i q : ℕ} {next : α → σ}
    (hphase : r.phase = .receiving source tag buf i next)
    (hturn : r.process.turnAt source i = .ok (some (q, false)))
    (ha : (x.channel (q, p, setTag q tag))[r.posted (q, setTag q tag)]? = some a) :
    nextMessage h d s source tag = some a := by
  obtain ⟨hq, hmark⟩ := ht.knows.shares.of_turnAt source.isLt hturn
  have hmem := List.mem_of_getElem? hq
  have hposted := ht.posted source q hmem (of_decide_eq_false hmark.symm) tag
  rw [hphase, Phase.passed_of_next hq, Nat.add_zero] at hposted
  rw [hposted] at ha
  exact hx.delivered hp hlive source q hmem tag _ a ha

/-- One replica moves. What it has sent is what the others find. -/
theorem update (hx : w.OneHistory L program H h x) (hp : p ∈ L.workers d)
    (hreached : program.plain.Reached program.plainInitial.state h') (hle : ∀ k, h k <+: h' k)
    (ht : w.Tracks L program x.failed h' d p g r s)
    (hchannel : ∀ d' d'' : Fin L.jobs.length, ∀ q ∈ L.workers d', ∀ p' ∈ L.workers d'',
      ∀ tag : UserTag, x.failed (w.procAt p') = false → channel (q, p', setTag q tag)
        = if q = p then pushed L d' d'' tag p' g r.phase else x.channel (q, p', setTag q tag)) :
    w.OneHistory L program (Function.update H p g) h'
      ⟨Function.update x.replica p r, x.failed, channel⟩ where
  reached := hreached
  tracks d' p' hp' := by
    dsimp only
    by_cases hpp : p' = p
    · subst hpp
      obtain rfl : d' = d := Fin.ext (Layout.eq_of_mem_workers hp' hp)
      rw [Function.update_self, Function.update_self]
      exact ⟨s, ht⟩
    · rw [Function.update_of_ne hpp, Function.update_of_ne hpp]
      obtain ⟨s', hs'⟩ := hx.tracks d' p' hp'
      exact ⟨s', hs'.mono (fun _ ↦ id) hle⟩
  channel d' d'' q hq p' hp' tag hlive := by
    dsimp only
    rw [hchannel d' d'' q hq p' hp' tag hlive]
    by_cases hqp : q = p
    · subst hqp
      rw [if_pos rfl, Function.update_self, Function.update_self]
    · rw [if_neg hqp, Function.update_of_ne hqp, Function.update_of_ne hqp]
      exact hx.channel d' d'' q hq p' hp' tag hlive

theorem advances (hx : w.OneHistory L program H h x) (hp : p ∈ L.workers d)
    (hadvances : w.Advances L program x.failed h d p (H p) (x.replica p) r) :
    ∃ g h', w.OneHistory L program (Function.update H p g) h'
        ⟨Function.update x.replica p r, x.failed, x.channel⟩ ∧
      turnsMade w.comm.length (H p) (x.replica p).phase < turnsMade w.comm.length g r.phase := by
  obtain ⟨g, h', s, hreached, hle, ht, hpushed, hturns⟩ := hadvances
  refine ⟨g, h', hx.update hp hreached hle ht fun d' d'' q hq p' hp' tag hlive ↦ ?_, hturns⟩
  split
  next hqp =>
    subst hqp
    obtain rfl : d' = d := Fin.ext (Layout.eq_of_mem_workers hq hp)
    rw [hpushed d'' p' hp' hlive tag]
    exact hx.channel d' d'' q hq p' hp' tag hlive
  next => rfl

theorem send (hw : w.FailureFree L) (hx : w.OneHistory L program H h x) (hp : p ∈ L.workers d)
    {dest : Fin L.jobs.length} {tag : UserTag} {buf : α} {i q : ℕ} {next : σ}
    (hphase : (x.replica p).phase = .sending dest tag buf i next)
    (hturn : (x.replica p).process.turnAt dest i = .ok (some (q, false))) :
    w.OneHistory L program (Function.update H p (H p)) h
      ⟨Function.update x.replica p
          { x.replica p with phase := .sending dest tag buf (i + 1) next },
        x.failed, Function.update x.channel (p, q, setTag (x.replica p).process.node.rank tag)
          (x.channel (p, q, setTag (x.replica p).process.node.rank tag) ++ [buf])⟩ := by
  obtain ⟨s, ht⟩ := hx.tracks d p hp
  obtain ⟨hq, -⟩ := ht.knows.shares.of_turnAt dest.isLt hturn
  have hqmem := List.mem_of_getElem? hq
  rw [ht.knows.rank_eq hw.nodup (Layout.lt_of_mem_workers hp)]
  refine hx.update hp hx.reached (fun k ↦ List.prefix_refl _) (ht.send hphase)
    fun d' d'' q' hq' p' hp' tag' hlive ↦ ?_
  by_cases hqp : q' = p
  · subst hqp
    obtain rfl : d' = d := Fin.ext (Layout.eq_of_mem_workers hq' hp)
    have hold := hx.channel d' d'' q' hq' p' hp' tag' hlive
    rw [hphase] at hold
    rw [if_pos rfl]
    by_cases hsame : d'' = dest ∧ tag' = tag ∧ p' = q
    · obtain ⟨rfl, rfl, rfl⟩ := hsame
      rw [pushed_turn_self hq, Function.update_self, hold]
    · rw [pushed_turn hq hsame, Function.update_of_ne]
      · exact hold
      · intro hc
        obtain ⟨rfl, htag⟩ := Prod.mk.inj (Prod.mk.inj hc).2
        exact hsame ⟨Fin.ext (Layout.eq_of_mem_workers hp' hqmem), setTag_injective _ htag, rfl⟩
  · rw [if_neg hqp, Function.update_of_ne fun hc ↦ hqp (Prod.mk.inj hc).1]

/-- **Whatever a process does, one history remains**, and the process has got further. -/
theorem does (hw : w.FailureFree L) (htorn : ∀ a b, torn a a b → b = a)
    (hx : w.OneHistory L program H h x) (hlives : w.EveryJobLives L x.failed)
    (hp : p ∈ L.workers d) (hlive : x.failed (w.procAt p) = false)
    (hdoes : w.Does program.call torn x.failed x.channel p (x.replica p) r channel) :
    ∃ g h', w.OneHistory L program (Function.update H p g) h'
        ⟨Function.update x.replica p r, x.failed, channel⟩ ∧
      turnsMade w.comm.length (H p) (x.replica p).phase < turnsMade w.comm.length g r.phase := by
  obtain ⟨s, ht⟩ := hx.tracks d p hp
  cases hdoes with
  | beginSend hphase hcall => exact hx.advances hp (ht.beginSend hx.reached hphase hcall)
  | beginRecv hphase hcall => exact hx.advances hp (ht.beginRecv hx.reached hphase hcall)
  | skipSend hphase hturn => exact hx.advances hp (ht.skipSend hx.reached hphase hturn)
  | skipRecv hphase hturn => exact hx.advances hp (ht.skipRecv hx.reached hphase hturn)
  | send hphase hturn =>
    refine ⟨H p, h, hx.send hw hp hphase hturn, Nat.add_lt_add_left ?_ _⟩
    rw [hphase]
    exact L.min_lt_min_succ (ht.knows.shares.of_turnAt (Fin.isLt _) hturn).1
  | sendFails hphase hturn hdead hacked hnote =>
    exact hx.advances hp (ht.sendFails hx.reached hphase hturn hdead hacked hnote)
  | recv hphase hturn hmessage =>
    exact hx.advances hp
      (ht.recv hx.reached hphase hturn (hx.next hp hlive ht hphase hturn hmessage))
  | @recvFails _ source tag buf buf' i next q _ hphase hturn hdead hacked hnote hbuf =>
    refine hx.advances hp (ht.recvFails hw hx.reached hphase hturn hacked hnote fun hmessage ↦ ?_)
    match ha : (x.channel (q, p, setTag q tag))[(x.replica p).posted (q, setTag q tag)]?, hbuf with
    | none, hbuf => exact hbuf
    | some a, hbuf =>
      obtain rfl := Option.some_inj.mp ((hx.next hp hlive ht hphase hturn ha).symm.trans hmessage)
      exact htorn a buf' hbuf
  | sendReturns hphase hturn => exact hx.advances hp (ht.sendReturns hx.reached hphase hturn)
  | recvReturns hphase hturn =>
    -- whoever lives in the job of the source has sent the message
    obtain ⟨q, hq, hqlive⟩ := hlives _
    exact hx.advances hp (ht.recvReturns hx.reached hphase hturn hq hqlive)
  | irecv hphase hcall hacked hirecv =>
    exact hx.advances hp (ht.irecv hx.reached hphase hcall hacked hirecv)
  | wait hphase hcall hpending hcompletes hwait =>
    exact hx.advances hp (ht.wait hx.reached hphase hcall hpending hcompletes hwait
      (hx.delivered hp hlive))

end World.OneHistory

end EntangledMPI
