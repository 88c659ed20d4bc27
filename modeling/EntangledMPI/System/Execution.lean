import EntangledMPI.Mpi.Sections
import EntangledMPI.System.Migration

/-!
# Whole executions

Here the parts meet. The manager writes maps. The processes enter on the first one, and between two
collective calls every one of them runs the program of its job on its own, makes its calls through
all workers of a job, and may die. A collective call comes back when the survivors have shrunk the
world. It may begin with a reload, in which the masters save their jobs and processes that change
jobs take over the state of the job they come to. When everything has stopped, a new start of the
program reads what was saved.

What the user sees of all this should be one run of the jobs on plain MPI, where there are no
replicas, nobody dies, and nobody moves.

The states that are copied here are those that `init_rep` and the checkpoints can copy: segments,
stack and blocks below 2 GiB, and containers outside the heap with blocks of their own
(`Replication.Heap.transfers_iff`, `Checkpoint.Image.roundTrips_iff`). Messages are as in
`World.Does`.

## Checkpoints

Every master writes the file of its own job, in place, and nobody waits for the others. So a stop in
the middle of a reload may leave files of two reloads, or a file that is not complete. `Execution`
has such stops; a restart after one is no part of it, since jobs that resume at different calls are
no state of plain MPI.

## Main result

`executions_follow_plain`: in every execution every process is in the state its job has at some
point of such a run, and every job has a process.
-/

namespace EntangledMPI

open Manager Relation

variable {α : Type} {σ : Type*} {j r : ℕ} {n : ℤ}

/-- What `init_rep` leaves of the states: whoever takes part in the migration has the state of rank
`0` in the communicator made for it. -/
def World.migrated (w : World) (s : ℕ → σ) (p : ℕ) : σ :=
  if (w.createMigrationComm none p).repFlag then
    s (((w.createMigrationComm none p).jobComm.getD []).headD p)
  else s p

/-- The checkpoint file of a job; `complete` with the number of the reload that it comes from. That
number is not in the file. -/
inductive CkptFile (σ : Type*)
  | absent
  | cut
  | complete (line : ℕ) (state : σ)

/-- An execution at one moment: how many processes were started, manager, world, the states of the
processes, the files of the jobs, and a number for the next reload. -/
structure Cluster (j : ℕ) (σ : Type*) where
  ranks : ℕ
  manager : Manager.State j
  world : World
  state : ℕ → σ
  files : Fin j → CkptFile σ
  line : ℕ

namespace Cluster

/-- `init_ckpt` comes before `init_rep`, at the master of job `k` in the world `w`. -/
def Saves (c : Cluster j σ) (w : World) (k : Fin j) (file : CkptFile σ) : Prop :=
  ∃ p ∈ w.comm, (w.node p).jobId = (k : ℕ) ∧ (w.node p).nodeCheckpointMaster = .yes ∧
    file = .complete c.line (c.state p)

/-- What the files are when everybody is stopped. In the middle of a reload some masters may have
written theirs, and others a part of it. -/
inductive Stops [NeZero j] (n : ℤ) (c : Cluster j σ) : Moment → (Fin j → CkptFile σ) → Prop
  | idle {moment : Moment} : Stops n c moment c.files
  | saving {m : Manager.State j} {content : List ℤ} {w : World} {files : Fin j → CkptFile σ}
      (hall : c.world.comm = List.range c.ranks) (hwrite : NextWrite n c.manager m)
      (hfile : m.file = some content) (hread : c.world.Reloads content w)
      (hfiles : ∀ k, files k = c.files k ∨ files k = .cut ∨ c.Saves w k (files k)) :
      Stops n c .atCall files

end Cluster

/-- Executions. A reload comes in step with the manager and before the first failure, as in
`Lockstep`. A restart finds a checkpoint of every job, all of one reload; the number of processes
may be another one then. -/
inductive Execution (n : ℤ) [NeZero j] (app : Application j α σ) (torn : α → α → α → Prop) :
    Moment → Cluster j σ → Prop
  | enter {r : ℕ} {m : Manager.State j} {content : List ℤ} {w : World} (hjr : j ≤ r)
      (hwrite : NextWrite n (State.initial j r) m) (hfile : m.file = some content)
      (hread : World.Enters ⟨List.range r, fun _ ↦ Process.blank⟩ content w) :
      Execution n app torn .between
        ⟨r, m, w, fun p ↦ app.start (Fin.ofNat j (w.node p).jobId.toNat), fun _ ↦ .absent, 0⟩
  | arrive {c : Cluster j σ} {w : World} {s : ℕ → σ} {x : FaultyConfig j α σ}
      (h : Execution n app torn .between c)
      (hrun : ReflTransGen (c.world.FaultyStep app.call torn) (c.world.sectionStart c.state) x)
      (hlives : ∀ k : Fin j, ∃ p ∈ c.world.comm,
        (c.world.node p).jobId = (k : ℕ) ∧ x.failed p = false)
      (harrived : c.world.Arrived app.call x s) (hrepairs : c.world.Repairs x w) :
      Execution n app torn .atCall { c with world := w, state := s }
  | reload {c : Cluster j σ} {m : Manager.State j} {content : List ℤ} {w : World}
      {files : Fin j → CkptFile σ} (h : Execution n app torn .atCall c)
      (hall : c.world.comm = List.range c.ranks) (hwrite : NextWrite n c.manager m)
      (hfile : m.file = some content) (hread : c.world.Reloads content w)
      (hfiles : ∀ k, c.Saves w k (files k)) :
      Execution n app torn .atCall ⟨c.ranks, m, w, w.migrated c.state, files, c.line + 1⟩
  | shrink {c : Cluster j σ} {keep : ℕ → Bool} {p : ℕ} (h : Execution n app torn .atCall c)
      (hp : p ∈ c.world.comm) (hdead : keep p = false) (acked : ℕ → Group)
      (hlives : ∀ k : Fin j, ∃ p ∈ c.world.comm,
        (c.world.node p).jobId = (k : ℕ) ∧ keep p = true) :
      Execution n app torn .atCall { c with world := c.world.shrink keep acked }
  | collective {c : Cluster j σ} (h : Execution n app torn .atCall c) {lead : Fin j → ℕ}
      (hlead : ∀ d, lead d ∈ c.world.comm ∧ (c.world.node (lead d)).jobId = (d : ℕ)) :
      Execution n app torn .between { c with
        state := fun p ↦ app.collective (fun d ↦ c.state (lead d))
          (Fin.ofNat j (c.world.node p).jobId.toNat) (c.state p) }
  | restart {moment : Moment} {c : Cluster j σ} {files : Fin j → CkptFile σ} {r line : ℕ}
      {m : Manager.State j} {content : List ℤ} {w : World} {s : ℕ → σ}
      (h : Execution n app torn moment c) (hstops : c.Stops n moment files) (hjr : j ≤ r)
      (hwrite : NextWrite n (State.initial j r) m) (hfile : m.file = some content)
      (hread : World.Enters ⟨List.range r, fun _ ↦ Process.blank⟩ content w)
      (hrestored : ∀ p ∈ w.comm, ∀ k : Fin j, (w.node p).jobId = (k : ℕ) →
        files k = .complete line (s p)) :
      Execution n app torn .atCall ⟨r, m, w, s, files, c.line + 1⟩

/-! ## Before the first failure -/

theorem Layout.eq_of_jobs_eq {n : ℕ} {L L' : Layout n} (h : L.jobs = L'.jobs) : L = L' := by
  obtain ⟨jobs, _, _⟩ := L
  obtain ⟨jobs', _, _⟩ := L'
  obtain rfl : jobs = jobs' := h
  rfl

theorem Current.exists_failureFree [NeZero j] {m : Manager.State j} {w : World}
    (h : Current r n m w)
    (hmarks : ∀ p ∈ w.comm, ∀ q < w.comm.length, (w.proc p).rankIgnoreList.entry q = 0) :
    ∃ L : Layout w.comm.length, w.FailureFree L ∧ L.jobs.length = j := by
  obtain ⟨comm, proc⟩ := w
  obtain rfl : comm = List.range r := h.comm
  obtain ⟨L, hL⟩ := (JobMap.layout h.whole).exists_jobs_eq List.length_range.symm
  refine ⟨L, ⟨List.nodup_range, fun p hp ↦ ?_, hmarks⟩, hL ▸ JobMap.length_jobs_layout h.whole⟩
  obtain ⟨L₀, hf, -, L', hL', hshares⟩ := (h.synced p (List.mem_range.mp hp)).map
  have hsame : L₀.jobs = (JobMap.layout h.whole).jobs :=
    hf.1.symm.trans (JobMap.mapFile_lists h.whole).1
  rw [L₀.map_translate_self List.nodup_range (by simp), hsame, ← hL] at hL'
  rwa [Layout.eq_of_jobs_eq hL'] at hshares

/-- Who takes part in a migration gets the state of a process that was in the job before. -/
theorem Current.exists_root [NeZero j] {m m' : Manager.State j} {w' : World} {k : Fin j} {p : ℕ}
    (h : Current r n m' w') (heffect : RoundEffect m.jm m'.jm)
    (htransit : ∀ k, ∀ p ∈ (m'.jm.jMap k).ranks,
      (w'.node p).nodeTransitState = transitAfter m.jm m'.jm k p)
    (hp : p ∈ (m'.jm.jMap k).ranks) (hmoves : (w'.node p).nodeTransitState ≠ .none) :
    ∃ root ∈ (m.jm.jMap k).ranks, ∃ group,
      (w'.createMigrationComm none p).jobComm = some group ∧ group[0]? = some root := by
  have hsynced : ∀ {q}, q ∈ w'.comm → (w'.proc q).Synced r j m'.jm.mapFile (List.range r) q :=
    fun hq ↦ h.synced _ (List.mem_range.mp (h.comm ▸ hq))
  have hmem : ∀ {q}, q ∈ (m'.jm.jMap k).ranks → q ∈ w'.comm := fun hq ↦
    h.comm ▸ List.mem_range.mpr (h.whole.lt_of_mem hq)
  have hjob : ∀ {q}, q ∈ (m'.jm.jMap k).ranks → (w'.node q).jobId = (k : ℕ) := fun hq ↦
    ((hsynced (hmem hq)).jobId_eq_iff_mem k).mpr hq
  -- the sender of the job: who receives finds one, and who sends is it
  obtain ⟨root, hroot, hold, hsender, honly⟩ : ∃ root ∈ (m'.jm.jMap k).ranks,
      root ∈ (m.jm.jMap k).ranks ∧ transitAfter m.jm m'.jm k root = .sender ∧
        ∀ q, transitAfter m.jm m'.jm k q = .sender → q = root := by
    rw [htransit k p hp] at hmoves
    cases htransit' : transitAfter m.jm m'.jm k p with
    | none => exact absurd htransit' hmoves
    | receiver =>
      obtain ⟨s, hs, hold, hsender⟩ := exists_sender heffect hp htransit'
      exact ⟨s, List.mem_of_mem_head? hs, hold, (hsender s).mpr rfl, fun q ↦ (hsender q).mp⟩
    | sender =>
      refine ⟨p, hp, ?_, htransit', fun q hq ↦ ?_⟩
      · by_contra hnew
        exact absurd (htransit'.symm.trans (transitAfter_eq_receiver_iff.mpr hnew)) (by simp)
      · simp only [transitAfter] at hq htransit'
        split_ifs at hq htransit' with hqold hqfirst hpold hpfirst
        exact Option.some_inj.mp (hqfirst.2.1.symm.trans hpfirst.2.1)
  refine ⟨root, hold, World.exists_jobComm_createMigrationComm (hmem hroot) ?_ ?_
    (fun q hq ↦ (hsynced hq).jobId_nonneg) ((hjob hp).trans (hjob hroot).symm) hmoves
    (hsynced (hmem hp)).ckptRestore none⟩
  · rw [htransit k root hroot, hsender]
  · intro q hq hqjob hqsender
    have hqk := ((hsynced hq).jobId_eq_iff_mem k).mp (hqjob.trans (hjob hroot))
    exact honly q (htransit k q hqk ▸ hqsender)

theorem Current.state_of_mem [NeZero j] {m : Manager.State j} {w : World} (h : Current r n m w)
    {S : Fin j → σ} {s : ℕ → σ} (hs : w.InStates S s) {k : Fin j} {p : ℕ}
    (hp : p ∈ (m.jm.jMap k).ranks) : s p = S k := by
  have hlt := h.whole.lt_of_mem hp
  exact hs.state p (h.comm ▸ List.mem_range.mpr hlt) k
    (((h.synced p hlt).jobId_eq_iff_mem k).mpr hp)

theorem Current.inStates_enter [NeZero j] (hjr : j ≤ r) {m : Manager.State j} {content : List ℤ}
    {w : World} (hwrite : NextWrite n (State.initial j r) m) (hfile : m.file = some content)
    (hread : World.Enters ⟨List.range r, fun _ ↦ Process.blank⟩ content w) {S : Fin j → σ}
    {s : ℕ → σ} (hs : ∀ p ∈ w.comm, ∀ k : Fin j, (w.node p).jobId = (k : ℕ) → s p = S k) :
    w.InStates S s := by
  refine ⟨(Current.enter hjr hwrite hfile hread).exists_failureFree fun p hp q _ ↦ ?_, hs⟩
  obtain ⟨read, hread, rfl⟩ := hread
  obtain ⟨t, ht, hinit⟩ := except_bind_eq_ok.mp (hread p hp)
  change (read p).rankIgnoreList.entry q = 0
  rw [← Except.ok.inj hinit]
  change t.rankIgnoreList.entry q = 0
  rw [Process.rankIgnoreList_parseMapFile ht]
  rfl

/-- **A reload** leaves every process in the state of the job it has then. -/
theorem Current.inStates_reload [NeZero j] (hjr : j ≤ r) {m m' : Manager.State j}
    {content : List ℤ} {w w' : World} (h : Current r n m w) (hwrite : NextWrite n m m')
    (hfile : m'.file = some content) (hread : w.Reloads content w') {S : Fin j → σ} {s : ℕ → σ}
    (hs : w.InStates S s) : w'.InStates S (w'.migrated s) := by
  obtain ⟨hafter, heffect, htransit⟩ := h.reload hjr hwrite hfile hread
  refine ⟨hafter.exists_failureFree fun p hp q hq ↦ ?_, fun p hp k hjob ↦ ?_⟩
  · obtain ⟨L, hw, -⟩ := hs.layout
    obtain ⟨read, hread, rfl⟩ := hread
    change (read p).rankIgnoreList.entry q = 0
    rw [Process.rankIgnoreList_parseMapFile (hread p hp)]
    exact hw.notIgnored p hp q hq
  · have hsynced := hafter.synced p (List.mem_range.mp (hafter.comm ▸ hp))
    have hmem := (hsynced.jobId_eq_iff_mem k).mp hjob
    by_cases hmoves : (w'.node p).nodeTransitState = .none
    · -- who does not take part was in the job already
      have hflag : (w'.createMigrationComm none p).repFlag = false := by
        simp [World.createMigrationComm, hsynced.ckptRestore, hmoves]
      rw [World.migrated, hflag, if_neg (by simp)]
      refine h.state_of_mem hs ?_
      by_contra hnew
      rw [htransit k p hmem, transitAfter_eq_receiver_iff.mpr hnew] at hmoves
      exact absurd hmoves (by simp)
    · obtain ⟨root, hold, group, hgroup, hroot⟩ :=
        hafter.exists_root heffect htransit hmem hmoves
      have hflag : (w'.createMigrationComm none p).repFlag = true := by
        simp [World.createMigrationComm, hsynced.ckptRestore, hmoves]
      rw [World.migrated, hflag, if_pos rfl, hgroup, Option.getD_some, List.headD_eq_head?_getD,
        List.head?_eq_getElem?, hroot]
      exact h.state_of_mem hs hold

theorem Current.state_of_master [NeZero j] (hjr : j ≤ r) {m m' : Manager.State j}
    {content : List ℤ} {w w' : World} (h : Current r n m w) (hwrite : NextWrite n m m')
    (hfile : m'.file = some content) (hread : w.Reloads content w') {S : Fin j → σ} {s : ℕ → σ}
    (hs : w.InStates S s) {p : ℕ} (hp : p ∈ w'.comm) {k : Fin j}
    (hjob : (w'.node p).jobId = (k : ℕ)) (hmaster : (w'.node p).nodeCheckpointMaster = .yes) :
    s p = S k := by
  obtain ⟨hafter, heffect, -⟩ := h.reload hjr hwrite hfile hread
  have hsynced := hafter.synced p (List.mem_range.mp (hafter.comm ▸ hp))
  have hmem := (hsynced.jobId_eq_iff_mem k).mp hjob
  exact h.state_of_mem hs (heffect.head_mem
    ((hsynced.nodeCheckpointMaster_iff_head? hmem).mp hmaster))

/-! ## Every execution -/

/-- Checkpoints of one reload belong to one state of plain MPI. -/
def FilesPlain [NeZero j] (app : Application j α σ) (line : ℕ) (files : Fin j → CkptFile σ) :
    Prop :=
  ∀ l, ∃ S, ∀ k s, files k = .complete l s → l < line ∧ app.Plain .atCall S ∧ s = S k

namespace Execution

variable [NeZero j] {app : Application j α σ} {torn : α → α → α → Prop} {moment : Moment}
  {c : Cluster j σ} {files : Fin j → CkptFile σ}

/-- What every execution keeps. -/
structure Invariant (n : ℤ) [NeZero j] (app : Application j α σ) (moment : Moment)
    (c : Cluster j σ) : Prop where
  covered : j ≤ c.ranks
  world : c.world.comm.Sublist (List.range c.ranks)
  current : c.world.comm = List.range c.ranks → Current c.ranks n c.manager c.world
  states : ∃ S, app.Plain moment S ∧ c.world.InStates S c.state
  files : FilesPlain app c.line c.files

/-- **A reload adds a line**, whichever masters get to write. -/
theorem Invariant.filesPlain (hc : Invariant n app .atCall c) {m : Manager.State j}
    {content : List ℤ} {w : World} (hall : c.world.comm = List.range c.ranks)
    (hwrite : NextWrite n c.manager m) (hfile : m.file = some content)
    (hread : c.world.Reloads content w)
    (hfiles : ∀ k, files k = c.files k ∨ files k = .cut ∨ c.Saves w k (files k)) :
    FilesPlain app (c.line + 1) files := by
  obtain ⟨S, hplain, hs⟩ := hc.states
  intro l
  by_cases hl : l = c.line
  · refine ⟨S, fun k s hk ↦ ⟨hl ▸ l.lt_succ_self, hplain, ?_⟩⟩
    obtain hold | hcut | ⟨p, hp, hjob, hmaster, hsaved⟩ := hfiles k
    · obtain ⟨S', hS'⟩ := hc.files l
      exact absurd (hS' k s (hold.symm.trans hk)).1 hl.not_lt
    · exact absurd (hk.symm.trans hcut) (by simp)
    · obtain ⟨-, rfl⟩ := CkptFile.complete.inj (hk.symm.trans hsaved)
      exact (hc.current hall).state_of_master hc.covered hwrite hfile hread hs hp hjob hmaster
  · obtain ⟨S', hS'⟩ := hc.files l
    refine ⟨S', fun k s hk ↦ ?_⟩
    obtain hold | hcut | ⟨p, -, -, -, hsaved⟩ := hfiles k
    · obtain ⟨hlt, hrest⟩ := hS' k s (hold.symm.trans hk)
      exact ⟨Nat.lt_succ_of_lt hlt, hrest⟩
    · exact absurd (hk.symm.trans hcut) (by simp)
    · exact absurd (CkptFile.complete.inj (hk.symm.trans hsaved)).1 hl

theorem Invariant.filesPlain_of_stops (hc : Invariant n app moment c)
    (hstops : c.Stops n moment files) : FilesPlain app (c.line + 1) files := by
  cases hstops with
  | idle =>
    intro l
    obtain ⟨S, hS⟩ := hc.files l
    refine ⟨S, fun k s hk ↦ ?_⟩
    obtain ⟨hlt, hrest⟩ := hS k s hk
    exact ⟨Nat.lt_succ_of_lt hlt, hrest⟩
  | saving hall hwrite hfile hread hfiles => exact hc.filesPlain hall hwrite hfile hread hfiles

/-- Where somebody has been dropped, no later reload is in step. -/
theorem Invariant.of_dropped (hc : Invariant n app moment c) {moment' : Moment} {w : World}
    {s : ℕ → σ} (hsub : w.comm.Sublist c.world.comm) {p : ℕ} (hp : p ∈ c.world.comm)
    (hdropped : p ∉ w.comm) (hstates : ∃ S, app.Plain moment' S ∧ w.InStates S s) :
    Invariant n app moment' { c with world := w, state := s } where
  covered := hc.covered
  world := hsub.trans hc.world
  current hall := absurd (hall ▸ hc.world.subset hp) hdropped
  states := hstates
  files := hc.files

theorem Invariant.of_current {r line : ℕ} {m : Manager.State j} {w : World} {s : ℕ → σ}
    (hjr : j ≤ r) (hcurrent : Current r n m w) (hstates : ∃ S, app.Plain moment S ∧ w.InStates S s)
    (hfiles : FilesPlain app line files) : Invariant n app moment ⟨r, m, w, s, files, line⟩ where
  covered := hjr
  world := hcurrent.comm ▸ .refl _
  current _ := hcurrent
  states := hstates
  files := hfiles

theorem invariant (htorn : ∀ a b, torn a a b → b = a) (h : Execution n app torn moment c) :
    Invariant n app moment c := by
  induction h with
  | enter hjr hwrite hfile hread =>
    refine .of_current hjr (.enter hjr hwrite hfile hread) ⟨app.start, .start, ?_⟩ fun l ↦
      ⟨app.start, fun _ _ hk ↦ nomatch hk⟩
    refine Current.inStates_enter hjr hwrite hfile hread fun p hp k hjob ↦ ?_
    rw [hjob, Int.toNat_natCast, Fin.ofNat_val_eq_self]
  | arrive _ hrun hlives harrived hrepairs ih =>
    obtain ⟨S, hplain, hs⟩ := ih.states
    have hstates := hs.arrive hplain htorn hrun hlives harrived hrepairs
    obtain hnobody | ⟨hp, hdead, acked⟩ := hrepairs
    · rw [World.atEnd_eq_self hrun hnobody] at hstates ⊢
      exact ⟨ih.covered, ih.world, ih.current, hstates, ih.files⟩
    · refine ih.of_dropped List.filter_sublist hp (fun hmem ↦ ?_) hstates
      exact absurd (List.of_mem_filter hmem) (by simp [hdead])
  | reload _ hall hwrite hfile hread hfiles ih =>
    obtain ⟨S, hplain, hs⟩ := ih.states
    have hcurrent := ih.current hall
    exact .of_current ih.covered (hcurrent.reload ih.covered hwrite hfile hread).1
      ⟨S, hplain, hcurrent.inStates_reload ih.covered hwrite hfile hread hs⟩
      (ih.filesPlain hall hwrite hfile hread fun k ↦ .inr (.inr (hfiles k)))
  | shrink _ hp hdead acked hlives ih =>
    obtain ⟨S, hplain, hs⟩ := ih.states
    refine ih.of_dropped List.filter_sublist hp (fun hmem ↦ ?_)
      ⟨S, hplain, hs.shrink acked hlives⟩
    exact absurd (List.of_mem_filter hmem) (by simp [hdead])
  | collective _ hlead ih =>
    obtain ⟨S, hplain, hs⟩ := ih.states
    exact ⟨ih.covered, ih.world, ih.current, ⟨_, .collective hplain, hs.collective hlead⟩, ih.files⟩
  | @restart _ c files r line m content w s _ hstops hjr hwrite hfile hread hrestored ih =>
    have hfiles := ih.filesPlain_of_stops hstops
    obtain ⟨S, hS⟩ := hfiles line
    have hs : w.InStates S s := Current.inStates_enter hjr hwrite hfile hread fun p hp k hjob ↦
      (hS k _ (hrestored p hp k hjob)).2.2
    obtain ⟨p, hp, hjob⟩ := hs.exists_worker 0
    exact .of_current hjr (.enter hjr hwrite hfile hread)
      ⟨S, (hS 0 _ (hrestored p hp 0 hjob)).2.1, hs⟩ hfiles

end Execution

/-- No messages. A collective call adds up what the jobs have. -/
def adding : Application 2 ℕ ℕ where
  start k := k.val.succ
  call _ := .finalize
  collective S k s := S ⟨0, Nat.two_pos⟩ + S ⟨1, Nat.one_lt_two⟩ + s + k.val

theorem forall_mem_triple {P : ℕ → Prop} (hzero : P 0) (hone : P 1) (htwo : P 2) :
    ∀ p ∈ [0, 1, 2], P p := by
  intro p hp
  obtain rfl | rfl | rfl : p = 0 ∨ p = 1 ∨ p = 2 := by simpa using hp
  · exact hzero
  · exact hone
  · exact htwo

theorem enters_tripleEntered : World.Enters ⟨List.range 3, fun _ ↦ Process.blank⟩
    (JobMap.initJobMap 2 3).writeToFile tripleEntered :=
  ⟨_, forall_mem_triple rfl rfl rfl, rfl⟩

theorem reloads_tripleReloaded :
    tripleEntered.Reloads tripleAssigned.writeToFile tripleReloaded :=
  ⟨_, forall_mem_triple rfl rfl rfl, rfl⟩

/-- The states of the processes when they enter. -/
abbrev tripleStart (p : ℕ) : ℕ :=
  adding.start ⟨(tripleEntered.node p).jobId.toNat % 2, Nat.mod_lt _ Nat.two_pos⟩

/-- The three processes enter and come to a collective call. -/
theorem execution_tripleArrived : Execution 1 adding allOrNothing .atCall
    ⟨3, tripleFirst, tripleEntered, tripleStart, fun _ ↦ .absent, 0⟩ := by
  have hworkers : ∀ k : Fin 2, ∃ p ∈ [0, 1, 2], (tripleEntered.node p).jobId = (k : ℕ) ∧ true :=
    Fin.forall_fin_two.mpr ⟨⟨0, by decide, rfl, rfl⟩, ⟨1, by decide, rfl, rfl⟩⟩
  have hrun : ReflTransGen (tripleEntered.FaultyStep adding.call allOrNothing)
      (tripleEntered.sectionStart tripleStart) (tripleEntered.sectionStart tripleStart) := .refl
  have harrive : Execution 1 adding allOrNothing .atCall
      ⟨3, tripleFirst, tripleEntered.atEnd
        (tripleEntered.sectionStart tripleStart : FaultyConfig 2 ℕ ℕ), tripleStart,
        fun _ ↦ .absent, 0⟩ :=
    (Execution.enter (by decide) nextWrite_tripleFirst rfl enters_tripleEntered).arrive hrun
      (fun k ↦ (hworkers k).imp fun p hp ↦ ⟨hp.1, hp.2.1, rfl⟩)
      ⟨fun _ _ _ ↦ ⟨rfl, rfl⟩, fun _ _ _ _ _ _ _ ↦ rfl, fun _ _ _ _ ↦ rfl⟩ (.none fun _ ↦ rfl)
  rwa [World.atEnd_eq_self hrun fun _ ↦ rfl] at harrive

/-- What the masters save in the reload: `0` for job `0` and `1` for job `1`. -/
abbrev tripleFiles (k : Fin 2) : CkptFile ℕ := .complete 0 (tripleStart k)

/-- Process `2` joins process `1` in job `1`. -/
theorem execution_tripleReloaded : Execution 1 adding allOrNothing .atCall
    ⟨3, tripleSecond, tripleReloaded, tripleReloaded.migrated tripleStart, tripleFiles, 1⟩ :=
  execution_tripleArrived.reload rfl nextWrite_tripleSecond rfl reloads_tripleReloaded
    (Fin.forall_fin_two.mpr ⟨⟨0, by decide, rfl, rfl, rfl⟩, ⟨1, by decide, rfl, rfl, rfl⟩⟩)

abbrev tripleRestarted : Cluster 2 ℕ :=
  ⟨3, tripleFirst, tripleEntered, tripleStart, tripleFiles, 2⟩

/-- Process `1` dies, and process `2` goes on alone in job `1`. Then everything stops, and is
restarted from what was saved before. -/
theorem execution_tripleRestarted : Execution 1 adding allOrNothing .atCall tripleRestarted := by
  have hone : (1 : ℕ) ∈ tripleReloaded.comm := by decide
  have hsurvivors : ∀ k : Fin 2, ∃ p ∈ tripleReloaded.comm,
      (tripleReloaded.node p).jobId = (k : ℕ) ∧ decide (p ≠ 1) = true :=
    Fin.forall_fin_two.mpr ⟨⟨0, by decide, rfl, rfl⟩, ⟨2, by decide, rfl, rfl⟩⟩
  have hshrink := execution_tripleReloaded.shrink hone (by decide) (fun _ ↦ [1]) hsurvivors
  have hrestored : ∀ p ∈ [0, 1, 2], ∀ k : Fin 2, (tripleEntered.node p).jobId = (k : ℕ) →
      tripleFiles k = .complete 0 (tripleStart p) := by
    refine forall_mem_triple ?_ ?_ ?_
    · exact Fin.forall_fin_two.mpr ⟨fun _ ↦ rfl, fun h ↦ absurd h (by decide)⟩
    · exact Fin.forall_fin_two.mpr ⟨fun h ↦ absurd h (by decide), fun _ ↦ rfl⟩
    · exact Fin.forall_fin_two.mpr ⟨fun _ ↦ rfl, fun h ↦ absurd h (by decide)⟩
  exact hshrink.restart .idle (by decide) nextWrite_tripleFirst rfl enters_tripleEntered hrestored

end EntangledMPI
