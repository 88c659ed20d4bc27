import EntangledMPI.Mpi.OneHistory
import Mathlib.Algebra.Order.BigOperators.Group.Finset

/-!
# While one replica of every job lives

Workers die at any time, and the rest go on. As long as every job has a worker that lives, the
replicas do what the jobs do on plain MPI, where nobody dies. The programs send, receive, post
receives and wait for them, and what they send are elements without gaps, with sizes and tags that
do not overflow.

## Main results

- `replicas_follow_plain`: every replica is where some point of one run on plain MPI has its job
- `survivors_end_as_plain`: where the survivors can go no further, plain MPI cannot either, and they
  have what their jobs have there
- `runs_end`: if the program ends on plain MPI, the replicas cannot go on for ever
-/

namespace EntangledMPI

open Streams Relation

variable {α : Type} {σ : Type*}

/-- Nobody who lives can go on. -/
def World.Stuck {J : ℕ} (w : World) (call : σ → AsyncCall J α σ) (torn : α → α → α → Prop)
    (x : FaultyConfig J α σ) : Prop :=
  ∀ p < w.comm.length, x.failed (w.procAt p) = false →
    ∀ r channel, ¬w.Does call torn x.failed x.channel p (x.replica p) r channel

/-! ## Two messages, and one sender dies -/

/-- The tag of every message below. -/
abbrev answersTag : UserTag := ⟨6, by decide⟩

/-- Job `1` sends two messages to job `0`, which posts a receive for the first of them, receives the
second, and waits for the first. -/
def twoAnswers : AsyncProgram 2 ℕ ℕ where
  start job := 10 * job
  call state :=
    if state = 10 then .send ⟨0, Nat.two_pos⟩ answersTag 42 11
    else if state = 11 then .send ⟨0, Nat.two_pos⟩ answersTag 43 12
    else if state = 0 then .irecv ⟨1, Nat.one_lt_two⟩ answersTag 0 5 1
    else if state = 1 then .recv ⟨1, Nat.one_lt_two⟩ answersTag 0 fun _ ↦ 2
    else if state = 2 then .wait 5 fun _ ↦ 3
    else .finalize

/-- A receive that fails leaves all of the message or nothing. -/
def allOrNothing {α : Type} (buf a buf' : α) : Prop := buf' = buf ∨ buf' = a

theorem allOrNothing_self {α : Type} (a b : α) (h : allOrNothing a a b) : b = a := h.elim id id

theorem World.not_does_of_finalize {w : World} {J : ℕ} {call : σ → AsyncCall J α σ}
    {torn : α → α → α → Prop} {failed : ℕ → Bool} {channel channel' : ℕ × ℕ × ℤ → List α} {p : ℕ}
    {r r' : Replica J α σ} {state : σ} (hphase : r.phase = .running state)
    (hcall : call state = .finalize) :
    ¬w.Does call torn failed channel p r r' channel' := by
  -- a call would be another one, and a turn needs a call
  have hcalls : ∀ {state'}, r.phase = .running state' → call state' = .finalize := by
    intro state' hphase'
    obtain rfl := Phase.running.inj (hphase.symm.trans hphase')
    exact hcall
  intro hdoes
  cases hdoes with
  | beginSend hphase' h => exact absurd (h.symm.trans (hcalls hphase')) (by simp)
  | beginRecv hphase' h => exact absurd (h.symm.trans (hcalls hphase')) (by simp)
  | irecv hphase' h => exact absurd (h.symm.trans (hcalls hphase')) (by simp)
  | wait hphase' h => exact absurd (h.symm.trans (hcalls hphase')) (by simp)
  | _ hphase' => exact absurd (hphase.symm.trans hphase') (by simp)

/-- The requests of job `0` for the two workers of job `1`. -/
abbrev answersRequest : AggregateRequest :=
  ⟨2, 1, [some 2, some 0], [2, 0], true, .ofBytes 1, 1⟩

/-- The worker that has died fails, and the message of the other one arrives. -/
abbrev answersCompletion : ℕ → Completion ℕ
  | 0 => .failed 2 [17]
  | _ => .arrived [42]

theorem acks_nine : descendingWorld.Acks (Function.update (fun _ ↦ false) 9 true) 2 [9] :=
  ⟨List.mem_singleton_self 9, by simp⟩

abbrev answersMemory : AsyncMemory ℕ :=
  (AggregateRequest.newAggRequest (.holding 0) (.ofBytes 1) 1 2 fun _ ↦ 0).2.malloc .reqArray

abbrev answersPending : Pending ℕ := ⟨answersRequest, answersMemory, answersTag, fun _ ↦ 0⟩

theorem completes_answers {channel : ℕ × ℕ × ℤ → List ℕ}
    (hchannel : channel (0, 1, setTag (0 : ℕ) answersTag) = [42, 43]) :
    descendingWorld.Completes (Function.update (fun _ ↦ false) 9 true) channel 1 answersPending
      answersCompletion [[9]] where
  request
    | 0, q, hk => by
      obtain rfl : 2 = q := Option.some_inj.mp (Option.some_inj.mp hk)
      exact Or.inr ⟨2, [17], rfl, [9], List.mem_singleton_self _, List.mem_singleton_self _⟩
    | 1, q, hk => by
      obtain rfl : 0 = q := Option.some_inj.mp (Option.some_inj.mp hk)
      exact Or.inl ⟨42, rfl, congrArg (·[0]?) hchannel⟩
  failed acked hacked dead hdead := by
    rw [List.mem_singleton.mp hacked, List.mem_singleton] at hdead
    rw [hdead, Function.update_self]

/-- The first worker of job `1` dies at the start. Job `0` has posted a receive from it as well, and
fails to receive from it. It has received the second message from the other worker and waits. -/
theorem twoAnswers_waits : ∃ x : FaultyConfig 2 ℕ ℕ,
    ReflTransGen (descendingWorld.FaultyStep twoAnswers.call allOrNothing)
      (descendingWorld.faultyInitial twoAnswers) x ∧
    x.failed = Function.update (fun _ ↦ false) 9 true ∧ (x.replica 0).phase = .running 12 ∧
      x.channel (0, 1, setTag (0 : ℕ) answersTag) = [42, 43] ∧
        (descendingWorld.proc 8).noteFailures [9] = .ok (x.replica 1).process ∧
        (x.replica 1).phase = .running 2 ∧ (x.replica 1).requests 5 = some answersPending ∧
          (x.replica 1).received = [43] := by
  have hirecv : AggregateRequest.mpiIrecv (descendingWorld.proc 8) (.holding 0) 1 (.ofBytes 1) 1
      (fun _ ↦ 0) (fun _ ↦ []) = .ok (descendingWorld.proc 8, answersRequest, answersMemory) := rfl
  have hnone : ∀ acked ∈ ([] : List Group), ∃ q,
      descendingWorld.Acks (Function.update (fun _ ↦ false) 9 true) q acked := by simp
  exact ⟨_, (((((((((((ReflTransGen.single (.dies (p := 2) (by decide) rfl)).tail
    (.goesOn (p := 0) (by decide) rfl (.beginSend rfl rfl))).tail
    (.goesOn (p := 0) (by decide) rfl (.send rfl rfl))).tail
    (.goesOn (p := 0) (by decide) rfl (.sendReturns rfl rfl))).tail
    (.goesOn (p := 0) (by decide) rfl (.beginSend rfl rfl))).tail
    (.goesOn (p := 0) (by decide) rfl (.send rfl rfl))).tail
    (.goesOn (p := 0) (by decide) rfl (.sendReturns rfl rfl))).tail
    (.goesOn (p := 1) (by decide) rfl (.irecv rfl rfl (fun _ ↦ hnone) hirecv))).tail
    (.goesOn (p := 1) (by decide) rfl (.beginRecv rfl rfl))).tail
    (.goesOn (p := 1) (by decide) rfl (.recvFails rfl rfl rfl acks_nine rfl rfl))).tail
    (.goesOn (p := 1) (by decide) rfl (.recv rfl rfl rfl))).tail
    (.goesOn (p := 1) (by decide) rfl (.recvReturns rfl rfl)), rfl, rfl, rfl, rfl, rfl, rfl, rfl⟩

/-- Where only process `9` has died, the other two live, and have both come to the end. -/
theorem descendingWorld_ends {call : ℕ → AsyncCall 2 α ℕ} {x : FaultyConfig 2 α ℕ}
    (hfailed : x.failed = Function.update (fun _ ↦ false) 9 true) (state : ℕ → ℕ)
    (hphase : ∀ p < 2, (x.replica p).phase = .running (state p) ∧ call (state p) = .finalize) :
    descendingWorld.EveryJobLives Layout.descending x.failed ∧
      descendingWorld.Stuck call allOrNothing x := by
  constructor
  · rw [hfailed]
    intro d
    obtain rfl | rfl := Fin.exists_fin_two.mp ⟨d, rfl⟩
    · exact ⟨1, by decide, rfl⟩
    · exact ⟨0, by decide, rfl⟩
  · intro p hp hlive r channel
    by_cases hp2 : p < 2
    · exact World.not_does_of_finalize (hphase p hp2).1 (hphase p hp2).2
    · obtain rfl : p = 2 := le_antisymm (Nat.lt_succ_iff.mp hp) (not_lt.mp hp2)
      rw [hfailed] at hlive
      exact absurd hlive (by decide)

/-- Job `0` gets the first message as well, from the slot of the worker that lives. -/
theorem twoAnswers_survives : ∃ x : FaultyConfig 2 ℕ ℕ,
    ReflTransGen (descendingWorld.FaultyStep twoAnswers.call allOrNothing)
      (descendingWorld.faultyInitial twoAnswers) x ∧
    x.failed 9 = true ∧ (x.replica 1).received = [43, 42] ∧
      descendingWorld.EveryJobLives Layout.descending x.failed ∧
        descendingWorld.Stuck twoAnswers.call allOrNothing x := by
  obtain ⟨x, hrun, hfailed, hsender, hchannel, hprocess, hphase, hpending, hreceived⟩ :=
    twoAnswers_waits
  have hnoted := (descendingWorld_failureFree.shares 8 (by decide)).noteFailures_eq rfl [9]
  obtain ⟨waited, hwait, hbuf⟩ : ∃ waited, mpiWait answersRequest
      ((descendingWorld.proc 8).noted [9]) answersMemory answersCompletion [[9]] = .ok waited ∧
        waited.memory.originalBuffer 0 = 42 := ⟨_, rfl, rfl⟩
  have hcall : twoAnswers.call 2 = .wait 5 fun _ ↦ 3 := rfl
  have hdoes : descendingWorld.Does twoAnswers.call allOrNothing x.failed x.channel 1
      (x.replica 1) _ x.channel :=
    .wait hphase hcall hpending (hfailed ▸ completes_answers hchannel)
      (Except.ok.inj (hnoted.symm.trans hprocess) ▸ hwait)
  have hlive : x.failed 8 = false := by
    rw [hfailed]
    rfl
  refine ⟨_, hrun.tail (.goesOn (p := 1) (by decide) hlive hdoes), ?_, ?_,
    descendingWorld_ends hfailed (fun p ↦ if p = 0 then 12 else 3) fun p hp ↦ ?_⟩
  · rw [hfailed, Function.update_self]
  · dsimp only
    rw [Function.update_self, hreceived, hbuf]
    rfl
  · dsimp only
    obtain rfl | rfl : p = 0 ∨ p = 1 := by omega
    · exact ⟨hsender, rfl⟩
    · rw [Function.update_self]
      exact ⟨rfl, rfl⟩

section

variable {w : World} {L : Layout w.comm.length} {program : AsyncProgram L.jobs.length α σ}
  {torn : α → α → α → Prop} {x y : FaultyConfig L.jobs.length α σ}
  {H : ℕ → History L.jobs.length α} {h : Fin L.jobs.length → History L.jobs.length α}
  {d : Fin L.jobs.length} {p : ℕ} {g : History L.jobs.length α} {r : Replica L.jobs.length α σ}
  {s : AsyncJob L.jobs.length α σ}

/-! ## One step -/

/-- The turns of all workers, and the dead. -/
def allTurns (w : World) {J : ℕ} (H : ℕ → History J α) (x : FaultyConfig J α σ) : ℕ :=
  ∑ p ∈ Finset.range w.comm.length,
    (turnsMade w.comm.length (H p) (x.replica p).phase + (x.failed (w.procAt p)).toNat)

theorem World.OneHistory.step (hw : w.FailureFree L) (htorn : ∀ a b, torn a a b → b = a)
    (hx : w.OneHistory L program H h x) (hlives : w.EveryJobLives L x.failed)
    (hstep : w.FaultyStep program.call torn x y) :
    ∃ H' h', w.OneHistory L program H' h' y ∧ allTurns w H x < allTurns w H' y := by
  cases hstep with
  | @dies p hp hlive =>
    refine ⟨H, h, hx.dies _, Finset.sum_lt_sum (fun k _ ↦ Nat.add_le_add_left ?_ _)
      ⟨p, Finset.mem_range.mpr hp, Nat.add_lt_add_left ?_ _⟩⟩
    · dsimp only
      rw [Function.update_apply]
      split
      · exact Bool.toNat_le _
      · exact le_rfl
    · dsimp only
      rw [hlive, Function.update_self]
      exact Nat.zero_lt_one
  | @goesOn p r channel hp hlive hdoes =>
    obtain ⟨k, hk⟩ := L.exists_mem_workers hp
    obtain ⟨g, h', hx', hlt⟩ := hx.does hw htorn hlives
      (d := ⟨k, Layout.lt_length_of_mem_workers hk⟩) hk hlive hdoes
    refine ⟨_, h', hx', Finset.sum_lt_sum (fun q _ ↦ Nat.add_le_add_right ?_ _)
      ⟨p, Finset.mem_range.mpr hp, Nat.add_lt_add_right ?_ _⟩⟩
    · dsimp only
      by_cases hqp : q = p
      · subst hqp
        rw [Function.update_self, Function.update_self]
        exact hlt.le
      · rw [Function.update_of_ne hqp, Function.update_of_ne hqp]
    · dsimp only
      rwa [Function.update_self, Function.update_self]

/-! ## Runs -/

theorem World.FaultyStep.failed_mono {J : ℕ} {call : σ → AsyncCall J α σ}
    {x y : FaultyConfig J α σ} {q : ℕ} (hstep : w.FaultyStep call torn x y)
    (hq : x.failed q = true) : y.failed q = true := by
  obtain ⟨hp, hlive⟩ | ⟨hp, hlive, hdoes⟩ := hstep
  · dsimp only
    rw [Function.update_apply]
    split
    · rfl
    · exact hq
  · exact hq

theorem World.EveryJobLives.of_step (hlives : w.EveryJobLives L y.failed)
    (hstep : w.FaultyStep program.call torn x y) : w.EveryJobLives L x.failed := by
  intro d
  obtain ⟨p, hp, hlive⟩ := hlives d
  refine ⟨p, hp, ?_⟩
  by_contra hdead
  rw [hstep.failed_mono (Bool.not_eq_false _ ▸ hdead)] at hlive
  exact absurd hlive (by simp)

theorem World.OneHistory.run (hw : w.FailureFree L) (htorn : ∀ a b, torn a a b → b = a)
    (hx : w.OneHistory L program H h x) (hrun : ReflTransGen (w.FaultyStep program.call torn) x y)
    (hlives : w.EveryJobLives L y.failed) : ∃ H' h', w.OneHistory L program H' h' y := by
  induction hrun with
  | refl => exact ⟨H, h, hx⟩
  | tail _ hstep ih =>
    obtain ⟨H, h, hx⟩ := ih (hlives.of_step hstep)
    obtain ⟨H', h', hx', -⟩ := hx.step hw htorn (hlives.of_step hstep) hstep
    exact ⟨H', h', hx'⟩

/-- **Every replica is where plain MPI has its job** at some point of one run. -/
theorem replicas_follow_plain (hw : w.FailureFree L) (htorn : ∀ a b, torn a a b → b = a)
    (hrun : ReflTransGen (w.FaultyStep program.call torn) (w.faultyInitial program) x)
    (hlives : w.EveryJobLives L x.failed) :
    ∃ P, program.plain.Runs program.plainInitial P ∧
      ∀ d : Fin L.jobs.length, ∀ p ∈ L.workers d, ∃ P',
        program.plain.Runs program.plainInitial P' ∧ program.plain.Runs P' P ∧
          (x.replica p).received = (P'.state d).received ∧
          (x.replica p).phase.InCall program (P'.state d).state := by
  obtain ⟨H, h, hx⟩ := (World.OneHistory.initial hw).run hw htorn hrun hlives
  obtain ⟨P, hP, -, hparts⟩ := hx.reached.runs
  refine ⟨P, hP, fun d p hp ↦ ?_⟩
  obtain ⟨s, ht⟩ := hx.tracks d p hp
  obtain ⟨P', hP', hrest, hfollows⟩ := hparts d (H p) ht.le_history
  refine ⟨P', hP', hrest, ?_⟩
  rw [hfollows.unique ht.follows]
  exact ⟨ht.received, ht.call⟩

theorem replicas_follow_plain_twoAnswers : ∃ x : FaultyConfig 2 ℕ ℕ, x.failed 9 = true ∧
    ∃ P, twoAnswers.plain.Runs twoAnswers.plainInitial P ∧
      ∀ d : Fin 2, ∀ p ∈ Layout.descending.workers d, ∃ P',
        twoAnswers.plain.Runs twoAnswers.plainInitial P' ∧ twoAnswers.plain.Runs P' P ∧
          (x.replica p).received = (P'.state d).received ∧
          (x.replica p).phase.InCall twoAnswers (P'.state d).state := by
  obtain ⟨x, hrun, hdead, -, hlives, -⟩ := twoAnswers_survives
  exact ⟨x, hdead, replicas_follow_plain (w := descendingWorld) (L := Layout.descending)
    descendingWorld_failureFree
    allOrNothing_self hrun hlives⟩

/-! ## Where the survivors stop -/

theorem World.exists_completes {pending : Pending α}
    (hworker : ∀ k q : ℕ, pending.agg.reqArray[k]? = some (some q) → q < w.comm.length)
    (hthere : ∀ k q : ℕ, pending.agg.reqArray[k]? = some (some q) →
      x.failed (w.procAt q) = false → pending.message x.channel p q ≠ none) :
    ∃ completion noted, w.Completes x.failed x.channel p pending completion noted ∧
      ∀ (k q : ℕ) a, pending.agg.reqArray[k]? = some (some q) →
        pending.message x.channel p q = some a → completion k = .arrived [a] := by
  -- who has died fails, unless the message is there
  let completion (k : ℕ) : Completion α :=
    (pending.agg.reqArray[k]?.join.bind (pending.message x.channel p)).elim (.failed 0 [])
      fun a ↦ .arrived [a]
  have hcompletion : ∀ k q : ℕ, pending.agg.reqArray[k]? = some (some q) → completion k
      = (pending.message x.channel p q).elim (.failed 0 []) fun a ↦ .arrived [a] := by
    intro k q hk
    simp only [completion, hk, Option.join_some, Option.bind_some]
  have harrived : ∀ (k q : ℕ) a, pending.agg.reqArray[k]? = some (some q) →
      pending.message x.channel p q = some a → completion k = .arrived [a] := by
    intro k q a hk hmessage
    rw [hcompletion k q hk, hmessage, Option.elim_some]
  refine ⟨completion, [w.comm.filter x.failed],
    ⟨fun k q hk ↦ ?_, fun acked hacked dead hdead ↦ ?_⟩, harrived⟩
  · obtain hmessage | ⟨a, hmessage⟩ := Option.eq_none_or_eq_some (pending.message x.channel p q)
    · have hfailed : completion k = .failed 0 [] := by
        rw [hcompletion k q hk, hmessage, Option.elim_none]
      have hdead : x.failed (w.procAt q) = true := by
        by_contra hlive
        exact hthere k q hk (Bool.not_eq_true _ ▸ hlive) hmessage
      exact Or.inr ⟨0, [], hfailed, _, List.mem_singleton_self _,
        List.mem_filter.mpr ⟨procAt_mem (hworker k q hk), hdead⟩⟩
    · exact Or.inl ⟨a, harrived k q a hk hmessage, hmessage⟩
  · rw [List.mem_singleton.mp hacked] at hdead
    exact (List.mem_filter.mp hdead).2

theorem World.Tracks.exists_wait (ht : w.Tracks L program x.failed h d p g r s)
    (hlives : w.EveryJobLives L x.failed) {request : ℕ} {pending : Pending α}
    (hpending : r.requests request = some pending)
    (hthere : ∀ k q : ℕ, pending.agg.reqArray[k]? = some (some q) →
      x.failed (w.procAt q) = false → pending.message x.channel p q ≠ none) :
    ∃ completion noted waited, w.Completes x.failed x.channel p pending completion noted ∧
      mpiWait pending.agg r.process pending.memory completion noted = .ok waited := by
  have hrequest := ht.requests request
  rw [hpending] at hrequest
  obtain ⟨source, k, -, hserves⟩ := Pending.exists_serves hrequest
  obtain ⟨completion, noted, hcompletes, harrived⟩ := World.exists_completes
    (fun k q hk ↦ Layout.lt_of_mem_workers (List.mem_of_getElem? (hserves.covers.worker hk)))
    hthere
  -- one worker of the job lives
  obtain ⟨q, hq, hlive⟩ := hlives source
  obtain ⟨k', hk'⟩ := List.mem_iff_getElem?.mp hq
  have hposted := hserves.covers.request hk'
    (ht.knows.unmarked (Layout.lt_of_mem_workers hq) hlive)
  obtain ⟨a, ha⟩ := Option.ne_none_iff_exists'.mp (hthere k' q hposted hlive)
  obtain ⟨waited, hwait⟩ := ht.knows.exists_mpiWait hserves.allocated hserves.posted
    hserves.covers hcompletes.failed hk' hlive (harrived k' q a hposted ha)
  exact ⟨completion, noted, waited, hcompletes, hwait⟩

theorem World.exists_does_of_sending {dest : Fin L.jobs.length} {tag : UserTag} {buf : α} {i : ℕ}
    {next : σ} (hshares : r.process.Shares L w.comm (w.procAt p))
    (hphase : r.phase = .sending dest tag buf i next) :
    ∃ r' channel, w.Does program.call torn x.failed x.channel p r r' channel := by
  have hturn := hshares.turnAt_eq dest.isLt i
  obtain hq | ⟨q, hq⟩ := Option.eq_none_or_eq_some (L.workers dest)[i]?
  · rw [hq] at hturn
    exact ⟨_, _, .sendReturns hphase hturn⟩
  · rw [hq, Option.map_some] at hturn
    by_cases hmark : r.process.rankIgnoreList.entry q = 1
    · rw [decide_eq_true hmark] at hturn
      exact ⟨_, _, .skipSend hphase hturn⟩
    · rw [decide_eq_false hmark] at hturn
      exact ⟨_, _, .send hphase hturn⟩

/-- A turn of a receive can be made, unless its worker lives and has not sent the message yet. -/
theorem World.exists_does_of_receiving {source : Fin L.jobs.length} {tag : UserTag} {buf : α}
    {i : ℕ} {next : α → σ} (hshares : r.process.Shares L w.comm (w.procAt p))
    (hphase : r.phase = .receiving source tag buf i next)
    (hthere : ∀ q, (L.workers source)[i]? = some q → r.process.rankIgnoreList.entry q ≠ 1 →
      x.failed (w.procAt q) = false →
        (x.channel (q, p, setTag q tag))[r.posted (q, setTag q tag)]? ≠ none) :
    ∃ r' channel, w.Does program.call torn x.failed x.channel p r r' channel := by
  have hturn := hshares.turnAt_eq source.isLt i
  obtain hq | ⟨q, hq⟩ := Option.eq_none_or_eq_some (L.workers source)[i]?
  · rw [hq] at hturn
    exact ⟨_, _, .recvReturns hphase hturn⟩
  · rw [hq, Option.map_some] at hturn
    by_cases hmark : r.process.rankIgnoreList.entry q = 1
    · rw [decide_eq_true hmark] at hturn
      exact ⟨_, _, .skipRecv hphase hturn⟩
    rw [decide_eq_false hmark] at hturn
    obtain hmessage | ⟨a, hmessage⟩ := Option.eq_none_or_eq_some
      (x.channel (q, p, setTag q tag))[r.posted (q, setTag q tag)]?
    · -- a receive from the dead fails
      have hdead : x.failed (w.procAt q) = true := by
        by_contra hlive
        exact hthere q hq hmark (Bool.not_eq_true _ ▸ hlive) hmessage
      have hacks : w.Acks x.failed q [w.procAt q] :=
        ⟨List.mem_singleton_self _, by simpa using hdead⟩
      have hbuf : leavesBehind torn
          (x.channel (q, p, setTag q tag))[r.posted (q, setTag q tag)]? buf buf := by
        rw [hmessage]
        rfl
      exact ⟨_, _, .recvFails hphase hturn hdead hacks (hshares.noteFailures_eq rfl _) hbuf⟩
    · exact ⟨_, _, .recv hphase hturn hmessage⟩

/-- **A survivor that can go no further** has ended its program, or is where its job reads a message
that some worker has not sent yet, and lives. -/
theorem World.Stuck.act (hstuck : w.Stuck program.call torn x)
    (ht : w.Tracks L program x.failed h d p g (x.replica p) s)
    (hlives : w.EveryJobLives L x.failed) (hp : p ∈ L.workers d)
    (hlive : x.failed (w.procAt p) = false) :
    program.plain.act d s = .halt ∨
      ∃ source tag k next q, program.plain.act d s = .read (source, d, tag) k next ∧
        q ∈ L.workers source ∧ x.failed (w.procAt q) = false ∧
          (x.channel (q, p, setTag q tag))[k]? = none := by
  have hnone : ¬∃ r channel,
      w.Does program.call torn x.failed x.channel p (x.replica p) r channel :=
    fun ⟨r, channel, hdoes⟩ ↦ hstuck p (Layout.lt_of_mem_workers hp) hlive r channel hdoes
  have hshares := ht.knows.shares
  have hcall := ht.call
  match hphase : (x.replica p).phase with
  | .running state =>
    rw [hphase] at hcall
    obtain rfl : state = s.state := hcall
    match hcall : program.call s.state with
    | .send dest tag buf next => exact absurd ⟨_, _, .beginSend hphase hcall⟩ hnone
    | .recv source tag buf next => exact absurd ⟨_, _, .beginRecv hphase hcall⟩ hnone
    | .irecv source tag buf request next =>
      obtain ⟨agg, memory, hirecv, -⟩ := AggregateRequest.mpiIrecv_eq hshares.toHolds source.isLt
        (.ofBytes 1) 1 (.holding buf) fun _ ↦ buf
      exact absurd ⟨_, _, .irecv hphase hcall (fun _ _ h ↦ absurd h (by simp)) hirecv⟩ hnone
    | .finalize => exact Or.inl (AsyncProgram.act_finalize hcall)
    | .wait request next =>
      have hrequest := ht.requests request
      obtain hpending | ⟨pending, hpending⟩ :=
        Option.eq_none_or_eq_some ((x.replica p).requests request)
      · rw [hpending] at hrequest
        refine Or.inl (AsyncProgram.act_wait_none hcall ?_)
        generalize s.requests request = o at hrequest
        obtain _ | _ := hrequest
        rfl
      · refine Or.inr ?_
        by_contra hthere
        rw [hpending] at hrequest
        obtain ⟨source, k, hs, hserves⟩ := Pending.exists_serves hrequest
        obtain ⟨completion, noted, waited, hcompletes, hwait⟩ :=
          ht.exists_wait hlives hpending fun k' q hk' hqlive hmessage ↦ by
            have hq := List.mem_of_getElem? (hserves.covers.worker hk')
            rw [Pending.message, hserves.before q hq
              (ht.knows.unmarked (Layout.lt_of_mem_workers hq) hqlive)] at hmessage
            exact hthere ⟨source, pending.tag, k, _, q, AsyncProgram.act_wait hcall hs, hq, hqlive,
              hmessage⟩
        exact hnone ⟨_, _, .wait hphase hcall hpending hcompletes hwait⟩
  | .sending dest tag buf i next =>
    exact (hnone (World.exists_does_of_sending hshares hphase)).elim
  | .receiving source tag buf i next =>
    rw [hphase] at hcall
    obtain ⟨buf', hcall⟩ := hcall
    refine Or.inr ?_
    by_contra hthere
    refine hnone (World.exists_does_of_receiving hshares hphase
      fun q hq hmark hqlive hmessage ↦ hthere ?_)
    have hmem := List.mem_of_getElem? hq
    have hposted := ht.posted source q hmem hmark tag
    rw [hphase, Phase.passed_of_next hq, Nat.add_zero] at hposted
    rw [hposted] at hmessage
    exact ⟨source, tag, _, _, q, AsyncProgram.act_recv hcall, hmem, hqlive, hmessage⟩

/-- Where the survivors are stuck, no job can do more on plain MPI than each of its survivors has
done. -/
theorem World.Stuck.covered (hstuck : w.Stuck program.call torn x)
    (hx : w.OneHistory L program H h x) (hlives : w.EveryJobLives L x.failed)
    {h' : Fin L.jobs.length → History L.jobs.length α}
    (hreached : program.plain.Reached program.plainInitial.state h') (hp : p ∈ L.workers d)
    (hlive : x.failed (w.procAt p) = false) : h' d <+: H p := by
  refine hreached.covered
    (fun (k : Fin L.jobs.length) g ↦ ∃ q ∈ L.workers k, x.failed (w.procAt q) = false ∧ g = H q)
    ?_ ?_ d (H p) ⟨p, hp, hlive, rfl⟩
  · rintro k g ⟨q, hq, -, rfl⟩
    obtain ⟨s, ht⟩ := hx.tracks k q hq
    exact ⟨h, hx.reached, ht.le_history⟩
  · rintro h₁ k e s t - hle ⟨q, hq, hqlive, hdone⟩ hs he ha
    rw [hdone] at hs
    obtain ⟨s', ht⟩ := hx.tracks k q hq
    obtain rfl := hs.unique ht.follows
    obtain hhalt | ⟨source, tag, n, next, q', hread, hq', hq'live, hmessage⟩ :=
      hstuck.act ht hlives hq hqlive
    · rw [hhalt] at he
      exact nomatch he
    · -- the sender lives and has sent no such message
      rw [hread] at he
      obtain _ | _ | _ := he
      rw [hx.channel source k q' hq' q hq tag hqlive, pushed] at hmessage
      have hwritten := getElem?_written (hle source (H q') ⟨q', hq', hq'live, rfl⟩) (ha _ _ _ rfl)
      rw [List.getElem?_append_left (List.getElem?_eq_some_iff.mp hwritten).1, hwritten] at hmessage
      exact absurd hmessage (by simp)

/-- So the history of the jobs is over, and every survivor has gone through all of it. -/
theorem World.Stuck.ends (hstuck : w.Stuck program.call torn x) (hx : w.OneHistory L program H h x)
    (hlives : w.EveryJobLives L x.failed) :
    (∀ d : Fin L.jobs.length, ∀ p ∈ L.workers d, x.failed (w.procAt p) = false → h d = H p) ∧
      ∃ P, program.plain.Runs program.plainInitial P ∧ program.plain.Terminal P ∧
        program.plain.After program.plainInitial.state h P := by
  have heq : ∀ d : Fin L.jobs.length, ∀ p ∈ L.workers d, x.failed (w.procAt p) = false →
      h d = H p := by
    intro d p hp hlive
    obtain ⟨s, ht⟩ := hx.tracks d p hp
    exact (hstuck.covered hx hlives hx.reached hp hlive).eq_of_length_le ht.le_history.length_le
  obtain ⟨P, hP, hafter, -⟩ := hx.reached.runs
  refine ⟨heq, P, hP, ?_, hafter⟩
  rintro d P' ⟨e, t, he, ha, -⟩
  obtain ⟨p, hp, hlive⟩ := hlives d
  -- one event more than the survivors have
  have hmore := hstuck.covered hx hlives (hx.reached.act (hafter.state d) he fun c k a hc ↦
    hafter.stream c ▸ ha c k a hc) hp hlive
  rw [Function.update_self, heq d p hp hlive] at hmore
  have hlength := hmore.length_le
  rw [List.length_append, List.length_singleton] at hlength
  omega

/-- **Where the survivors stop, plain MPI stops**, and every survivor has received what its job has
received there. -/
theorem survivors_end_as_plain (hw : w.FailureFree L) (htorn : ∀ a b, torn a a b → b = a)
    (hrun : ReflTransGen (w.FaultyStep program.call torn) (w.faultyInitial program) x)
    (hlives : w.EveryJobLives L x.failed) (hstuck : w.Stuck program.call torn x) :
    ∃ P, program.plain.Runs program.plainInitial P ∧ program.plain.Terminal P ∧
      ∀ d : Fin L.jobs.length, ∀ p ∈ L.workers d, x.failed (w.procAt p) = false →
        (x.replica p).received = (P.state d).received ∧
          (x.replica p).phase.InCall program (P.state d).state := by
  obtain ⟨H, h, hx⟩ := (World.OneHistory.initial hw).run hw htorn hrun hlives
  obtain ⟨heq, P, hP, hterminal, hafter⟩ := hstuck.ends hx hlives
  refine ⟨P, hP, hterminal, fun d p hp hlive ↦ ?_⟩
  obtain ⟨s, ht⟩ := hx.tracks d p hp
  have hstate := hafter.state d
  rw [heq d p hp hlive] at hstate
  rw [hstate.unique ht.follows]
  exact ⟨ht.received, ht.call⟩

theorem survivors_end_as_plain_twoAnswers : ∃ x : FaultyConfig 2 ℕ ℕ,
    (x.replica 1).received = [43, 42] ∧ ∃ P, twoAnswers.plain.Runs twoAnswers.plainInitial P ∧
      twoAnswers.plain.Terminal P ∧
        ∀ d : Fin 2, ∀ p ∈ Layout.descending.workers d,
          x.failed (descendingWorld.procAt p) = false →
            (x.replica p).received = (P.state d).received ∧
              (x.replica p).phase.InCall twoAnswers (P.state d).state := by
  obtain ⟨x, hrun, -, hreceived, hlives, hstuck⟩ := twoAnswers_survives
  exact ⟨x, hreceived, survivors_end_as_plain (w := descendingWorld) (L := Layout.descending)
    descendingWorld_failureFree
    allOrNothing_self hrun hlives hstuck⟩

/-! ## Runs end -/

/-- A run of `m` steps has made `m` turns, at least. -/
theorem World.OneHistory.of_steps (hw : w.FailureFree L) (htorn : ∀ a b, torn a a b → b = a)
    {f : ℕ → FaultyConfig L.jobs.length α σ} {m : ℕ} (hstart : f 0 = w.faultyInitial program)
    (hsteps : ∀ k < m, w.FaultyStep program.call torn (f k) (f (k + 1)))
    (hlives : w.EveryJobLives L (f m).failed) :
    ∃ H h, w.OneHistory L program H h (f m) ∧ m ≤ allTurns w H (f m) := by
  induction m with
  | zero =>
    refine ⟨fun _ ↦ [], fun _ ↦ [], ?_, Nat.zero_le _⟩
    rw [hstart]
    exact .initial hw
  | succ m ih =>
    have hstep := hsteps m m.lt_succ_self
    have hbefore := hlives.of_step hstep
    obtain ⟨H, h, hx, hle⟩ := ih (fun k hk ↦ hsteps k (hk.trans m.lt_succ_self)) hbefore
    obtain ⟨H', h', hx', hlt⟩ := hx.step hw htorn hbefore hstep
    exact ⟨H', h', hx', Nat.succ_le_of_lt (hle.trans_lt hlt)⟩

/-- The turns are bounded by how far the jobs are on plain MPI. -/
theorem World.OneHistory.allTurns_le (hx : w.OneHistory L program H h x)
    {h' : Fin L.jobs.length → History L.jobs.length α} (hle : ∀ d, h d <+: h' d) :
    allTurns w H x
      ≤ w.comm.length * ((w.comm.length + 2) * (∑ d, (h' d).length + 1) + 1) := by
  have hone : ∀ p ∈ Finset.range w.comm.length,
      turnsMade w.comm.length (H p) (x.replica p).phase + (x.failed (w.procAt p)).toNat
        ≤ (w.comm.length + 2) * (∑ d, (h' d).length + 1) + 1 := by
    intro p hp
    obtain ⟨k, hk⟩ := L.exists_mem_workers (Finset.mem_range.mp hp)
    let d : Fin L.jobs.length := ⟨k, Layout.lt_length_of_mem_workers hk⟩
    obtain ⟨s, ht⟩ := hx.tracks d p hk
    have hlength : (H p).length ≤ ∑ d, (h' d).length :=
      (ht.le_history.trans (hle d)).length_le.trans
        (Finset.single_le_sum (f := fun d ↦ (h' d).length) (fun _ _ ↦ Nat.zero_le _)
          (Finset.mem_univ d))
    exact Nat.add_le_add ((turnsMade_le _ _ _).trans
      (Nat.mul_le_mul_left _ (Nat.succ_le_succ hlength))) (Bool.toNat_le _)
  refine (Finset.sum_le_sum hone).trans_eq ?_
  rw [Finset.sum_const, Finset.card_range, smul_eq_mul]

/-- **The replicas cannot go on for ever** if the program ends on plain MPI, or comes to a halt
there: however they take turns and die, there is a bound for all runs in which every job keeps a
worker. -/
theorem runs_end (hw : w.FailureFree L) (htorn : ∀ a b, torn a a b → b = a)
    {P : AsyncConfig L.jobs.length α σ} (hP : program.plain.Runs program.plainInitial P)
    (hterminal : program.plain.Terminal P) :
    ∃ bound, ∀ (m : ℕ) (f : ℕ → FaultyConfig L.jobs.length α σ), f 0 = w.faultyInitial program →
      (∀ k < m, w.FaultyStep program.call torn (f k) (f (k + 1))) →
        w.EveryJobLives L (f m).failed → m ≤ bound := by
  obtain ⟨h', hreached, hafter⟩ := Network.Runs.reached hP
  refine ⟨w.comm.length * ((w.comm.length + 2) * (∑ d, (h' d).length + 1) + 1),
    fun m f hstart hsteps hlives ↦ ?_⟩
  obtain ⟨H, h, hx, hle⟩ := World.OneHistory.of_steps hw htorn hstart hsteps hlives
  exact hle.trans (hx.allTurns_le fun d ↦ hafter.covers hreached hterminal hx.reached d)

theorem runs_end_twoAnswers : ∃ bound, ∀ (m : ℕ) (f : ℕ → FaultyConfig 2 ℕ ℕ),
    f 0 = descendingWorld.faultyInitial twoAnswers →
      (∀ k < m, descendingWorld.FaultyStep twoAnswers.call allOrNothing (f k) (f (k + 1))) →
        descendingWorld.EveryJobLives Layout.descending (f m).failed → m ≤ bound := by
  obtain ⟨x, hrun, -, -, hlives, hstuck⟩ := twoAnswers_survives
  obtain ⟨H, h, hx⟩ := (World.OneHistory.initial (w := descendingWorld) (L := Layout.descending)
    descendingWorld_failureFree).run descendingWorld_failureFree allOrNothing_self hrun hlives
  obtain ⟨-, P, hP, hterminal, -⟩ := World.Stuck.ends hstuck hx hlives
  exact runs_end (w := descendingWorld) (L := Layout.descending)
    descendingWorld_failureFree allOrNothing_self hP hterminal

end

end EntangledMPI
