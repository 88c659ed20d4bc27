import EntangledMPI.Mpi.FaultyRuns

/-!
# Programs that post no receives

For a program that only sends and receives, plain MPI has been modelled with queues. With streams,
where a receive is as good as its number, it is the same: a queue is what its stream has behind the
receives so far. So what holds of replicas that fail and plain MPI with streams holds of them and
plain MPI with queues.

The replicas without failures send copies. Those of a program that `Fits` are what it sends.
-/

namespace EntangledMPI

open Relation

section

variable {J : ℕ} {β σ : Type*}

/-- A call among those of a program that may post receives. -/
def Call.posting : Call J β σ → AsyncCall J (List β) σ
  | send dest tag buf next => .send dest tag buf.data next
  | recv source tag buf next => .recv source tag buf next
  | finalize => .finalize

def Program.posting (program : Program J β σ) : AsyncProgram J (List β) σ :=
  ⟨program.start, fun state ↦ (program.call state).posting⟩

variable {program : Program J β σ} {P P₁ : JobConfig J (List β) σ}
  {P' P₁' : AsyncConfig J (List β) σ} {d dest source : Fin J} {tag : UserTag} {buf a : List β}
  {rest : List (List β)}

theorem Program.act_send {s : JobState (List β) σ} {buf : SendBuffer β} {next : σ}
    (hcall : program.call s.state = .send dest tag buf next) :
    program.plain.act d s = .send (d, dest, tag) buf.data ⟨next, s.received⟩ := by
  change program.plainAct d s = _
  rw [plainAct, hcall]

theorem Program.act_recv {s : JobState (List β) σ} {next : List β → σ}
    (hcall : program.call s.state = .recv source tag buf next) :
    program.plain.act d s = .recv (source, d, tag) fun a ↦ ⟨next a, s.received ++ [a]⟩ := by
  change program.plainAct d s = _
  rw [plainAct, hcall]

/-- The jobs are in the same states, and a queue is a stream without what has been received. -/
structure SamePlain (P : JobConfig J (List β) σ) (P' : AsyncConfig J (List β) σ) : Prop where
  state : ∀ d, P.state d = ⟨(P'.state d).state, (P'.state d).received⟩
  queue : ∀ source d tag, ∃ taken, taken.length = (P'.state d).posted (source, tag) ∧
    P'.stream (source, d, tag) = taken ++ P.queue (source, d, tag)

namespace SamePlain

theorem next_iff (h : SamePlain P P') :
    (P'.stream (source, d, tag))[(P'.state d).posted (source, tag)]? = some a ↔
      ∃ rest, P.queue (source, d, tag) = a :: rest := by
  obtain ⟨taken, hlength, hstream⟩ := h.queue source d tag
  rw [hstream, ← hlength, List.getElem?_append_right le_rfl, Nat.sub_self]
  cases P.queue (source, d, tag) with
  | nil => simp
  | cons b rest => simp

theorem state_update (h : SamePlain P P') (s : AsyncJob J (List β) σ)
    (hstate : P₁.state = Function.update P.state d ⟨s.state, s.received⟩) (k : Fin J) :
    P₁.state k = ⟨(Function.update P'.state d s k).state,
      (Function.update P'.state d s k).received⟩ := by
  rw [hstate]
  by_cases hk : k = d
  · subst hk
    rw [Function.update_self, Function.update_self]
  · rw [Function.update_of_ne hk, Function.update_of_ne hk, h.state k]

theorem send (h : SamePlain P P') {next : σ}
    (hstate : P₁.state = Function.update P.state d ⟨next, (P.state d).received⟩)
    (hqueue : P₁.queue
      = Function.update P.queue (d, dest, tag) (P.queue (d, dest, tag) ++ [buf])) :
    SamePlain P₁ ⟨Function.update P'.state d { P'.state d with state := next },
      Streams.Event.apply (.write (d, dest, tag) buf) P'.stream⟩ where
  state k := h.state_update _ (hstate.trans (by rw [h.state d])) k
  queue source k tag' := by
    obtain ⟨taken, hlength, hstream⟩ := h.queue source k tag'
    refine ⟨taken, ?_, ?_⟩
    · rw [hlength]
      dsimp only
      by_cases hk : k = d
      · subst hk
        rw [Function.update_self]
      · rw [Function.update_of_ne hk]
    · dsimp only
      rw [Streams.Event.apply, hstream, hqueue]
      by_cases hc : (source, k, tag') = (d, dest, tag)
      · rw [hc, Function.update_self, Streams.written_write_self, List.append_assoc]
      · rw [Function.update_of_ne hc, Streams.written_write_of_ne (Ne.symm hc), List.append_nil]

theorem recv (h : SamePlain P P') {next : List β → σ}
    (hmessage : P.queue (source, d, tag) = a :: rest)
    (hstate : P₁.state = Function.update P.state d ⟨next a, (P.state d).received ++ [a]⟩)
    (hqueue : P₁.queue = Function.update P.queue (source, d, tag) rest) (k : ℕ) :
    SamePlain P₁ ⟨Function.update P'.state d ⟨next a, post (P'.state d).posted (source, tag),
        (P'.state d).requests, (P'.state d).received ++ [a]⟩,
      Streams.Event.apply (.read (source, d, tag) k a) P'.stream⟩ where
  state k := h.state_update _ (hstate.trans (by rw [h.state d])) k
  queue source' k' tag' := by
    obtain ⟨taken, hlength, hstream⟩ := h.queue source' k' tag'
    dsimp only
    rw [Streams.Event.apply, Streams.written_read, List.append_nil, hstream, hqueue]
    by_cases hc : (source', k', tag') = (source, d, tag)
    · obtain ⟨rfl, rfl, rfl⟩ : source' = source ∧ k' = d ∧ tag' = tag := by simpa using hc
      refine ⟨taken ++ [a], ?_, ?_⟩
      · rw [Function.update_self, List.length_append, hlength]
        exact (post_self _ _).symm
      · rw [hmessage, Function.update_self, List.append_assoc, List.singleton_append]
    · refine ⟨taken, ?_, by rw [Function.update_of_ne hc]⟩
      rw [hlength]
      by_cases hk : k' = d
      · subst hk
        rw [Function.update_self]
        refine (post_of_ne _ fun hsame ↦ hc ?_).symm
        obtain ⟨rfl, rfl⟩ := Prod.mk.inj hsame
        rfl
      · rw [Function.update_of_ne hk]

/-- **Streams do what queues do.** -/
theorem step (h : SamePlain P P') (hstep : program.plain.Step d P P₁) :
    ∃ P₁', program.posting.plain.Step d P' P₁' ∧ SamePlain P₁ P₁' := by
  obtain ⟨t, heffect, hstate⟩ := hstep
  have hsame : (P'.state d).state = (P.state d).state := (congrArg JobState.state (h.state d)).symm
  match hcall : program.call (P.state d).state with
  | .finalize =>
    refine absurd ?_ heffect.ne_halt
    change program.plainAct d (P.state d) = _
    rw [Program.plainAct, hcall]
  | .send dest tag buf next =>
    obtain ⟨rfl, hqueue⟩ := heffect.of_send (Program.act_send hcall)
    rw [← hsame] at hcall
    have hcall' : program.posting.call (P'.state d).state = .send dest tag buf.data next :=
      congrArg Call.posting hcall
    exact ⟨_, ⟨_, _, AsyncProgram.allows_send hcall', (fun _ _ _ hc ↦ nomatch hc), rfl⟩,
      h.send hstate hqueue⟩
  | .recv source tag buf next =>
    obtain ⟨a, rest, hmessage, rfl, hqueue⟩ := heffect.of_recv (Program.act_recv hcall)
    rw [← hsame] at hcall
    have hcall' : program.posting.call (P'.state d).state = .recv source tag buf next :=
      congrArg Call.posting hcall
    refine ⟨_, ⟨_, _, AsyncProgram.allows_recv (a := a) hcall', ?_, rfl⟩,
      h.recv hmessage hstate hqueue _⟩
    intro c k b hc
    obtain ⟨rfl, rfl, rfl⟩ := Streams.Event.read.inj hc
    exact h.next_iff.mpr ⟨rest, hmessage⟩

/-- **And queues do what streams do.** -/
theorem step_back (h : SamePlain P P') (hstep : program.posting.plain.Step d P' P₁') :
    ∃ P₁, program.plain.Step d P P₁ ∧ SamePlain P₁ P₁' := by
  obtain ⟨e, t, he, ha, rfl⟩ := hstep
  have hsame : (P'.state d).state = (P.state d).state := (congrArg JobState.state (h.state d)).symm
  match hcall : program.call (P'.state d).state with
  | .finalize =>
    have hcall' : program.posting.call (P'.state d).state = .finalize := congrArg Call.posting hcall
    rw [AsyncProgram.act_finalize hcall'] at he
    exact nomatch he
  | .send dest tag buf next =>
    have hcall' : program.posting.call (P'.state d).state = .send dest tag buf.data next :=
      congrArg Call.posting hcall
    have hallows := AsyncProgram.allows_send (d := d) hcall'
    obtain rfl | ⟨c, k, a, a', -, hc⟩ := he.eq_or_read hallows
    · obtain rfl := he.state_unique hallows
      exact ⟨⟨_, _⟩, ⟨_, .send (Program.act_send (hsame ▸ hcall)), rfl⟩, h.send rfl rfl⟩
    · exact nomatch hc
  | .recv source tag buf next =>
    have hcall' : program.posting.call (P'.state d).state = .recv source tag buf next :=
      congrArg Call.posting hcall
    rw [AsyncProgram.act_recv hcall'] at he
    obtain _ | _ | @⟨_, _, _, a⟩ := he
    obtain ⟨rest, hmessage⟩ := h.next_iff.mp (ha _ _ _ rfl)
    exact ⟨⟨_, _⟩, ⟨_, .recv (Program.act_recv (hsame ▸ hcall)) hmessage, rfl⟩,
      h.recv hmessage rfl rfl _⟩

theorem initial : SamePlain program.plainInitial program.posting.plainInitial where
  state _ := rfl
  queue _ _ _ := ⟨[], rfl, rfl⟩

theorem runs_back (hrun : program.posting.plain.Runs program.posting.plainInitial P') :
    ∃ P, program.plain.Runs program.plainInitial P ∧ SamePlain P P' := by
  induction hrun with
  | refl => exact ⟨_, .refl, initial⟩
  | tail _ hmove ih =>
    obtain ⟨d, hstep⟩ := hmove
    obtain ⟨P, hP, hsame⟩ := ih
    obtain ⟨P₁, hstep', hsame'⟩ := hsame.step_back hstep
    exact ⟨P₁, hP.tail ⟨d, hstep'⟩, hsame'⟩

theorem runs (hrun : program.plain.Runs program.plainInitial P) :
    ∃ P', program.posting.plain.Runs program.posting.plainInitial P' ∧ SamePlain P P' := by
  induction hrun with
  | refl => exact ⟨_, .refl, initial⟩
  | tail _ hmove ih =>
    obtain ⟨d, hstep⟩ := hmove
    obtain ⟨P', hP, hsame⟩ := ih
    obtain ⟨P₁', hstep', hsame'⟩ := hsame.step hstep
    exact ⟨P₁', hP.tail ⟨d, hstep'⟩, hsame'⟩

theorem terminal_iff (h : SamePlain P P') :
    program.plain.Terminal P ↔ program.posting.plain.Terminal P' := by
  constructor
  · intro hterminal d P₁' hstep
    obtain ⟨P₁, hstep', -⟩ := h.step_back hstep
    exact hterminal P₁ ⟨d, hstep'⟩
  · rintro hterminal P₁ ⟨d, hstep⟩
    obtain ⟨P₁', hstep', -⟩ := h.step hstep
    exact hterminal d P₁' hstep'

end SamePlain

end

/-! ## A run without failures -/

section

variable {β : Type} {σ : Type*} {w : World} {L : Layout w.comm.length}
  {stale : ℕ × ℕ × ℤ → ℕ → β} {program : Program L.jobs.length β σ}
  {torn : List β → List β → List β → Prop} {x : FaultyConfig L.jobs.length (List β) σ}

/-- Where all workers have come to an end, so have the jobs. -/
theorem World.Lifted.terminal (hw : w.FailureFree L) (hfits : program.Fits L)
    {P : JobConfig L.jobs.length (List β) σ} {y : RankConfig β σ}
    (hy : w.Lifted L stale program P y) (hstop : (w.replicated stale program).Terminal y) :
    program.plain.Terminal P := by
  rintro P' ⟨i, hi⟩
  obtain ⟨p, hp⟩ := List.exists_mem_of_ne_nil _ (Layout.workers_ne_nil i.isLt)
  obtain ⟨z, -, hyz, -, -⟩ := hy.step hw hfits hi hp
  obtain ⟨z', hstep, -⟩ := TransGen.head'_iff.mp hyz
  exact hstop z' ⟨p, hstep⟩

/-- **Failures leave no trace** in what a program without posted receives gets: where the survivors
stop, a run in which nobody fails can stop, and wherever one stops, every survivor has what it would
have had there. -/
theorem failures_leave_no_trace (hw : w.FailureFree L) (hfits : program.Fits L)
    (stale : ℕ × ℕ × ℤ → ℕ → β) (htorn : ∀ a b, torn a a b → b = a)
    (hrun : ReflTransGen (w.FaultyStep program.posting.call torn)
      (w.faultyInitial program.posting) x)
    (hlives : w.EveryJobLives L x.failed) (hstuck : w.Stuck program.posting.call torn x) :
    (∃ y, (w.replicated stale program).Runs (w.replicatedInitial program) y ∧
      (w.replicated stale program).Terminal y) ∧
    ∀ y, (w.replicated stale program).Runs (w.replicatedInitial program) y →
      (w.replicated stale program).Terminal y → ∀ p < w.comm.length, x.failed (w.procAt p) = false →
        (x.replica p).received = (y.state p).received := by
  obtain ⟨H, h, hx⟩ := (World.OneHistory.initial hw).run hw htorn hrun hlives
  obtain ⟨heq, P', hP', hterminal', hafter⟩ := hstuck.ends hx hlives
  obtain ⟨P, hP, hsame⟩ := SamePlain.runs_back hP'
  have hterminal := hsame.terminal_iff.mpr hterminal'
  constructor
  · obtain ⟨z, hz, hlifted⟩ := (World.lifted_initial program hw).runs hw hfits hP
    obtain ⟨y, hzy, hy⟩ := hlifted.exists_terminal hw hfits hterminal
    exact ⟨y, hz.trans hzy, hy⟩
  · intro y hy hstop p hp hlive
    obtain ⟨k, hk⟩ := L.exists_mem_workers hp
    let d : Fin L.jobs.length := ⟨k, Layout.lt_length_of_mem_workers hk⟩
    -- both runs end where the jobs end
    obtain ⟨Q, z, hQ, hyz, hz⟩ := World.exists_lifted hw hfits hy
    obtain rfl := hstop.eq hyz
    obtain rfl := MessageNetwork.Network.terminal_unique hQ hP (hz.terminal hw hfits hstop)
      hterminal
    obtain ⟨s, ht⟩ := hx.tracks d p hk
    have hstate := hafter.state d
    rw [heq d p hk hlive] at hstate
    rw [ht.received, hz.received_eq (i := d) hk, hsame.state d, hstate.unique ht.follows]

end

/-! ## One message, and one sender dies -/

/-- Job `1` sends one message to job `0`. -/
abbrev oneAnswer : Program 2 ℕ ℕ :=
  messageFrom ⟨1, Nat.one_lt_two⟩ ⟨0, Nat.two_pos⟩ (wordsBuffer 1) answersTag

/-- The first worker of job `1` dies at the start. Job `0` fails to receive from it, and gets the
message from the other one. -/
theorem oneAnswer_survives : ∃ x : FaultyConfig 2 (List ℕ) ℕ,
    ReflTransGen (descendingWorld.FaultyStep oneAnswer.posting.call allOrNothing)
      (descendingWorld.faultyInitial oneAnswer.posting) x ∧
    x.failed = Function.update (fun _ ↦ false) 9 true ∧ (x.replica 0).phase = .running 2 ∧
      (x.replica 1).phase = .running 3 ∧ (x.replica 1).received = [[1, 2, 3, 4]] :=
  ⟨_, (((((((ReflTransGen.single (.dies (p := 2) (by decide) rfl)).tail
    (.goesOn (p := 0) (by decide) rfl (.beginSend rfl rfl))).tail
    (.goesOn (p := 0) (by decide) rfl (.send rfl rfl))).tail
    (.goesOn (p := 0) (by decide) rfl (.sendReturns rfl rfl))).tail
    (.goesOn (p := 1) (by decide) rfl (.beginRecv rfl rfl))).tail
    (.goesOn (p := 1) (by decide) rfl (.recvFails rfl rfl rfl acks_nine rfl rfl))).tail
    (.goesOn (p := 1) (by decide) rfl (.recv rfl rfl rfl))).tail
    (.goesOn (p := 1) (by decide) rfl (.recvReturns rfl rfl)), rfl, rfl, rfl, rfl⟩

theorem failures_leave_no_trace_oneAnswer : ∃ x : FaultyConfig 2 (List ℕ) ℕ,
    x.failed = Function.update (fun _ ↦ false) 9 true ∧
    (x.replica 1).received = [[1, 2, 3, 4]] ∧
    (∃ y, (descendingWorld.replicated (fun _ _ ↦ 0) oneAnswer).Runs
        (descendingWorld.replicatedInitial oneAnswer) y ∧
      (descendingWorld.replicated (fun _ _ ↦ 0) oneAnswer).Terminal y) ∧
    ∀ y, (descendingWorld.replicated (fun _ _ ↦ 0) oneAnswer).Runs
        (descendingWorld.replicatedInitial oneAnswer) y →
      (descendingWorld.replicated (fun _ _ ↦ 0) oneAnswer).Terminal y →
        ∀ p < 3, x.failed (descendingWorld.procAt p) = false →
          (x.replica p).received = (y.state p).received := by
  obtain ⟨x, hrun, hfailed, hsender, hreceiver, hreceived⟩ := oneAnswer_survives
  obtain ⟨hlives, hstuck⟩ : descendingWorld.EveryJobLives Layout.descending x.failed ∧
      descendingWorld.Stuck oneAnswer.posting.call allOrNothing x :=
    descendingWorld_ends hfailed (fun p ↦ if p = 0 then 2 else 3) fun p hp ↦ by
      obtain rfl | rfl : p = 0 ∨ p = 1 := by omega
      · exact ⟨hsender, rfl⟩
      · exact ⟨hreceiver, rfl⟩
  exact ⟨x, hfailed, hreceived, failures_leave_no_trace (w := descendingWorld)
    (L := Layout.descending) descendingWorld_failureFree (fits_messageFrom _ _ (by decide)) _
    allOrNothing_self hrun hlives hstuck⟩

end EntangledMPI
