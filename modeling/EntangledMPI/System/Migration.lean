import EntangledMPI.Mpi.MigrationComm
import EntangledMPI.System.Steps

/-!
# Migrations while manager and processes go in step

Every process starts on the first map and reads each later one once. Three facts about a round of
the manager carry over to the processes: a row that changed has its bit set, the first rank of a row
was in it before, and a new rank stands behind it.

## Main result

`Lockstep.migrationSound`: after every reload the receivers are those that changed jobs, and what
they receive comes from a process that has the state of the job.
-/

namespace EntangledMPI

open Manager

variable {j r : ℕ} {n : ℤ}

/-! ## Rounds of reads -/

namespace World

/-- Every process parses the file in `init_node`, then all of them split their communicators. -/
def Enters (w : World) (content : List ℤ) (w' : World) : Prop :=
  ∃ read : ℕ → Process,
    (∀ p ∈ w.comm, (w.proc p).initNode w.comm (w.comm.idxOf p) content = .ok (read p)) ∧
      w' = World.updateComms ⟨w.comm, read⟩

/-- The same in `is_file_update_set`. -/
def Reloads (w : World) (content : List ℤ) (w' : World) : Prop :=
  ∃ read : ℕ → Process,
    (∀ p ∈ w.comm, (w.proc p).parseMapFile content = .ok (read p)) ∧
      w' = World.updateComms ⟨w.comm, read⟩

end World

/-- Manager and processes right after all processes have read what the manager wrote last. -/
inductive Lockstep (r : ℕ) (n : ℤ) [NeZero j] : Manager.State j → World → Prop
  | start {m : Manager.State j} {content : List ℤ} {w : World}
      (hwrite : NextWrite n (State.initial j r) m) (hfile : m.file = some content)
      (hread : World.Enters ⟨List.range r, fun _ ↦ Process.blank⟩ content w) : Lockstep r n m w
  | reload {m m' : Manager.State j} {content : List ℤ} {w w' : World} (h : Lockstep r n m w)
      (hwrite : NextWrite n m m') (hfile : m'.file = some content)
      (hread : w.Reloads content w') : Lockstep r n m' w'

/-- What a reload of the map `after` over the map `before` does to the world. -/
structure MigrationSound (before after : JobMap j) (w w' : World) : Prop where
  /-- The maps say which process is in which job. -/
  jobBefore : ∀ p ∈ w.comm, ∀ k : Fin j,
    (w.node p).jobId = (k : ℕ) ↔ p ∈ (before.jMap k).ranks
  jobAfter : ∀ p ∈ w'.comm, ∀ k : Fin j,
    (w'.node p).jobId = (k : ℕ) ↔ p ∈ (after.jMap k).ranks
  receivers : ∀ k, ∀ p ∈ (after.jMap k).ranks,
    (w'.node p).nodeTransitState = .receiver ↔ ∃ i ≠ k, p ∈ (before.jMap i).ranks
  /-- If a job has receivers, it has one sender, which was in the job before, is `rank_list[0]`, and
  has rank `0` in the communicator of the migration. -/
  sender : ∀ k, (∃ p ∈ (after.jMap k).ranks, (w'.node p).nodeTransitState = .receiver) →
    ∃ s ∈ (after.jMap k).ranks, s ∈ (before.jMap k).ranks ∧
      (∀ p ∈ (after.jMap k).ranks, (w'.node p).nodeTransitState = .sender ↔ p = s) ∧
      (∀ p ∈ w'.comm, ∃ job, (w'.proc p).jobList[(k : ℕ)]? = some job ∧ job.rankList[0]? = some s) ∧
      ∀ p ∈ (after.jMap k).ranks, (w'.node p).nodeTransitState ≠ .none → ∀ jobComm,
        ∃ group, (w'.createMigrationComm jobComm p).jobComm = some group ∧ group[0]? = some s
  /-- The process that writes the checkpoint of a job was in the job before. -/
  master : ∀ k, ∃ s ∈ (after.jMap k).ranks, s ∈ (before.jMap k).ranks ∧
    ∀ p ∈ (after.jMap k).ranks, (w'.node p).nodeCheckpointMaster = .yes ↔ p = s

/-! ## One process -/

/-- The transit state of the worker `p` of job `k` after a reload. -/
def transitAfter (before after : JobMap j) (k : Fin j) (p : ℕ) : NodeTransitState :=
  if p ∉ (before.jMap k).ranks then .receiver
  else if (after.jMap k).modified = 1 ∧ (after.jMap k).ranks.head? = some p ∧
    1 < (after.jMap k).ranks.length then .sender
  else .none

namespace Process.Synced

variable {s : Process} {jm : JobMap j} {p : ℕ}

theorem jobId_eq_iff_mem (h : s.Synced r j jm.mapFile (List.range r) p) (k : Fin j) :
    s.node.jobId = (k : ℕ) ↔ p ∈ (jm.jMap k).ranks := by
  rw [h.jobId_eq_iff, JobMap.getElem?_lines]
  simp

theorem getElem?_rankList (h : s.Synced r j jm.mapFile (List.range r) p) {k : Fin j} {q : ℕ}
    (hq : (jm.jMap k).ranks.head? = some q) :
    ∃ job, s.jobList[(k : ℕ)]? = some job ∧ job.rankList[0]? = some q := by
  have hworkers : (s.jobList[(k : ℕ)]?).map Job.workers = some (jm.jMap k).ranks := by
    rw [← List.getElem?_map, h.workers_jobList, List.getElem?_map, JobMap.getElem?_lines,
      Option.map_some]
  obtain ⟨job, hjob, hranks⟩ := Option.map_eq_some_iff.mp hworkers
  refine ⟨job, hjob, ?_⟩
  rw [← hranks, Job.workers, List.head?_eq_getElem?, List.getElem?_take] at hq
  split at hq
  · exact hq
  · exact absurd hq (by simp)

theorem nodeCheckpointMaster_iff_head? (h : s.Synced r j jm.mapFile (List.range r) p) {k : Fin j}
    (hp : p ∈ (jm.jMap k).ranks) :
    s.node.nodeCheckpointMaster = .yes ↔ (jm.jMap k).ranks.head? = some p :=
  h.nodeCheckpointMaster_iff (jm.getElem?_lines k) hp

/-- **One process reloads.** It holds the new map then, and its transit state tells whether it is
new in its job and whether it stands first in a changed row. -/
theorem reload {base : JobMap j} (heffect : RoundEffect base jm) (hwhole : jm.Whole r)
    (h : s.Synced r j base.mapFile (List.range r) p) (hp : p < r) :
    ∃ s', s.parseMapFile jm.mapFile.fields = .ok s' ∧
      s'.Synced r j jm.mapFile (List.range r) p ∧ ∀ k, p ∈ (jm.jMap k).ranks →
        s'.node.nodeTransitState = transitAfter base jm k p := by
  have hf := JobMap.mapFile_lists hwhole
  have hj := JobMap.length_jobs_layout hwhole
  obtain ⟨s', i, line, place, hparse, hhas, htransit⟩ := h.ready.read hf (h.rank_eq.trans_lt hp)
  have hi : i < j := by
    have hlt := Layout.lt_length_of_mem_workers hhas.rank_mem
    rwa [hj] at hlt
  obtain rfl := Option.some_inj.mp ((jm.getElem?_lines ⟨i, hi⟩).symm.trans hhas.row)
  have hplace : (jm.jMap ⟨i, hi⟩).ranks[place]? = some p := h.rank_eq ▸ hhas.place
  have hold : s.node.jobId = i ↔ p ∈ (base.jMap ⟨i, hi⟩).ranks := h.jobId_eq_iff_mem ⟨i, hi⟩
  have hsynced : s'.Synced r j jm.mapFile (List.range r) p := by
    obtain ⟨L₀, -, -, L, -, hshares⟩ := h.map
    refine .of_hasRead hhas h.ready hf hj h.repMpiCommWorld h.rank ?_ ?_
    · simpa using hshares.rankIgnoreList
    · -- a row whose bit is `0` is as it was, and the process stays in its job
      rcases heffect.bits ⟨i, hi⟩ with ⟨-, hsame⟩ | hbit
      · refine Or.inr ⟨hold.mpr (hsame ▸ List.mem_of_getElem? hplace), ?_⟩
        rw [h.jobsCount, hf.length_lines, hj]
      · exact Or.inl (congrArg Nat.cast hbit)
  have hfirst : place = 0 ↔ (jm.jMap ⟨i, hi⟩).ranks.head? = some p := by
    have hhead := Layout.head?_workers (Layout.lt_length_of_mem_workers hhas.rank_mem)
    rw [hhas.workers] at hhead
    rw [hhas.place_eq_zero_iff, hhead, h.rank_eq, Option.some_inj, eq_comm]
  have hbit : ((jm.jMap ⟨i, hi⟩).modified : ℤ) = 1 ↔ (jm.jMap ⟨i, hi⟩).modified = 1 := by
    norm_cast
  refine ⟨s', hparse, hsynced, ?_⟩
  intro k hk
  -- the row of job `k` is the one that was read last with the process in it
  obtain rfl : k = ⟨i, hi⟩ := Fin.ext <| Layout.eq_of_mem_workers
    (JobMap.workers_layout hwhole k ▸ hk) (h.rank_eq ▸ hhas.rank_mem)
  simp only [htransit, transitAfter, ne_eq, hold, hfirst, hbit]
  by_cases hmem : p ∈ (base.jMap ⟨i, hi⟩).ranks
  · simp only [hmem, not_true_eq_false, ↓reduceIte, ite_and]
  · rw [if_pos (heffect.modified_eq_one hk hmem), if_pos hmem, if_pos hmem]

theorem initNode (hbits : ∀ k, (jm.jMap k).modified = 1) (hwhole : jm.Whole r) (hp : p < r) :
    ∃ s', Process.blank.initNode (List.range r) ((List.range r).idxOf p) jm.mapFile.fields
        = .ok s' ∧
      s'.Synced r j jm.mapFile (List.range r) p := by
  have hf := JobMap.mapFile_lists hwhole
  have hj := JobMap.length_jobs_layout hwhole
  have hidx : (List.range r)[(List.range r).idxOf p]? = some p :=
    List.getElem?_idxOf (List.mem_range.mpr hp)
  have hready : (Process.blank.enter (List.range r) ((List.range r).idxOf p)).Ready r :=
    ⟨rfl, Nat.le_refl 0, Or.inl rfl⟩
  have hlt : (List.range r).idxOf p < r := by
    simpa using (List.getElem?_eq_some_iff.mp hidx).1
  obtain ⟨s', i, line, place, hinit, hhas, -⟩ := hready.initNode hf hlt
  refine ⟨s', hinit, .of_hasRead hhas hready hf hj rfl hidx (by simp [Process.enter]) (Or.inl ?_)⟩
  obtain ⟨k, -, rfl⟩ := List.mem_map.mp (List.mem_of_getElem? hhas.row)
  exact congrArg Nat.cast (hbits k)

end Process.Synced

/-! ## All processes -/

/-- Manager and processes agree on the map written last. -/
structure Current (r : ℕ) (n : ℤ) [NeZero j] (m : Manager.State j) (w : World) : Prop where
  reachable : Reachable j r n m
  inRound : InRound m.jm m
  whole : m.jm.Whole r
  comm : w.comm = List.range r
  synced : ∀ p < r, (w.proc p).Synced r j m.jm.mapFile (List.range r) p

namespace World

/-- What the splits leave of a world whose processes have all read a map. -/
theorem synced_updateComms {w : World} {f : MapFile} {p : ℕ}
    (h : (w.proc p).Synced r j f (List.range r) p) :
    (w.updateComms.proc p).Synced r j f (List.range r) p := h.setComms _ _

end World

theorem Current.enter [NeZero j] (hjr : j ≤ r) {m : Manager.State j} {content : List ℤ} {w : World}
    (hwrite : NextWrite n (State.initial j r) m) (hfile : m.file = some content)
    (hread : World.Enters ⟨List.range r, fun _ ↦ Process.blank⟩ content w) : Current r n m w := by
  obtain ⟨hwhole, hdisk⟩ := hwrite.whole hjr .refl
  obtain rfl := Option.some_inj.mp (hdisk.symm.trans hfile)
  obtain ⟨read, hread, rfl⟩ := hread
  have hbits := hwrite.modified_first
  refine ⟨hwrite.reachable .refl, hwrite.inRound hjr .refl fun k ↦ (hbits k).le, hwhole, rfl,
    fun p hp ↦ World.synced_updateComms ?_⟩
  obtain ⟨s', hs', hsynced⟩ := Process.Synced.initNode hbits hwhole hp
  obtain rfl := Except.ok.inj ((hread p (List.mem_range.mpr hp)).symm.trans hs')
  exact hsynced

theorem Current.reload [NeZero j] (hjr : j ≤ r) {m m' : Manager.State j} {content : List ℤ}
    {w w' : World} (h : Current r n m w) (hwrite : NextWrite n m m')
    (hfile : m'.file = some content) (hread : w.Reloads content w') :
    Current r n m' w' ∧ RoundEffect m.jm m'.jm ∧ ∀ k, ∀ p ∈ (m'.jm.jMap k).ranks,
      (w'.node p).nodeTransitState = transitAfter m.jm m'.jm k p := by
  obtain ⟨hwhole, hdisk⟩ := hwrite.whole hjr h.reachable
  obtain rfl := Option.some_inj.mp (hdisk.symm.trans hfile)
  obtain ⟨read, hread, rfl⟩ := hread
  have heffect := hwrite.roundEffect h.inRound
  have hprocess : ∀ p < r, (read p).Synced r j m'.jm.mapFile (List.range r) p ∧
      ∀ k, p ∈ (m'.jm.jMap k).ranks →
        (read p).node.nodeTransitState = transitAfter m.jm m'.jm k p := by
    intro p hp
    obtain ⟨s', hs', hresult⟩ := (h.synced p hp).reload heffect hwhole hp
    have hparse := hread p (h.comm ▸ List.mem_range.mpr hp)
    obtain rfl := Except.ok.inj (hparse.symm.trans hs')
    exact hresult
  refine ⟨⟨hwrite.reachable h.reachable, hwrite.inRound hjr h.reachable heffect.modified_le,
    hwhole, h.comm, fun p hp ↦ World.synced_updateComms (hprocess p hp).1⟩, heffect, ?_⟩
  intro k p hp
  exact (hprocess p (hwhole.lt_of_mem hp)).2 k hp

theorem Current.exists_reload [NeZero j] (hjr : j ≤ r) {m m' : Manager.State j} {w : World}
    (h : Current r n m w) (hwrite : NextWrite n m m') :
    ∃ content w', m'.file = some content ∧ w.Reloads content w' := by
  obtain ⟨hwhole, hdisk⟩ := hwrite.whole hjr h.reachable
  have hread : ∀ p, ∃ s', p ∈ w.comm → (w.proc p).parseMapFile m'.jm.mapFile.fields = .ok s' := by
    intro p
    by_cases hp : p ∈ w.comm
    · have hlt := List.mem_range.mp (h.comm ▸ hp)
      obtain ⟨s', hs', -⟩ := (h.synced p hlt).reload (hwrite.roundEffect h.inRound) hwhole hlt
      exact ⟨s', fun _ ↦ hs'⟩
    · exact ⟨Process.blank, fun hmem ↦ absurd hmem hp⟩
  choose read hread using hread
  exact ⟨_, _, hdisk, read, hread, rfl⟩

theorem Lockstep.current [NeZero j] (hjr : j ≤ r) {m : Manager.State j} {w : World}
    (h : Lockstep r n m w) : Current r n m w := by
  induction h with
  | start hwrite hfile hread => exact .enter hjr hwrite hfile hread
  | reload _ hwrite hfile hread ih => exact (ih.reload hjr hwrite hfile hread).1

/-! ## What a reload does -/

section

variable {before after : JobMap j} {k : Fin j} {p : ℕ}

theorem transitAfter_eq_receiver_iff :
    transitAfter before after k p = .receiver ↔ p ∉ (before.jMap k).ranks := by
  rw [transitAfter]
  split_ifs with hnew hfirst
  · simpa using hnew
  · simpa using hnew
  · simpa using hnew

/-- Where a job has a receiver, its first worker is the only sender. -/
theorem exists_sender (h : RoundEffect before after) {q : ℕ} (hq : q ∈ (after.jMap k).ranks)
    (hreceiver : transitAfter before after k q = .receiver) :
    ∃ s, (after.jMap k).ranks.head? = some s ∧ s ∈ (before.jMap k).ranks ∧
      ∀ p, transitAfter before after k p = .sender ↔ p = s := by
  have hnew := transitAfter_eq_receiver_iff.mp hreceiver
  obtain ⟨s, hs⟩ : ∃ s, (after.jMap k).ranks.head? = some s := by
    rw [← Option.isSome_iff_exists, List.isSome_head?]
    exact List.ne_nil_of_mem hq
  have hold := h.head_mem hs
  have hlength : 1 < (after.jMap k).ranks.length := by
    have hne : q ≠ s := fun hqs ↦ hnew (hqs ▸ hold)
    obtain ⟨rest, hrest⟩ := List.head?_eq_some_iff.mp hs
    rw [hrest] at hq ⊢
    exact Nat.succ_lt_succ (List.length_pos_of_mem ((List.mem_cons.mp hq).resolve_left hne))
  refine ⟨s, hs, hold, fun p ↦ ⟨?_, ?_⟩⟩
  · intro hsender
    rw [transitAfter] at hsender
    split_ifs at hsender with hp hfirst
    exact Option.some_inj.mp (hfirst.2.1.symm.trans hs)
  · rintro rfl
    rw [transitAfter, if_neg (not_not.mpr hold),
      if_pos ⟨h.modified_eq_one hq hnew, hs, hlength⟩]

end

/-- **Migrations are sound.** In every run in step, after every reload, the receivers are the
processes that changed jobs, and the first worker of a job was in it before: it sends, from rank `0`
of the communicator made for that, and it writes the checkpoint. -/
theorem Lockstep.migrationSound [NeZero j] (hjr : j ≤ r) {m m' : Manager.State j}
    {content : List ℤ} {w w' : World} (h : Lockstep r n m w) (hwrite : NextWrite n m m')
    (hfile : m'.file = some content) (hread : w.Reloads content w') :
    MigrationSound m.jm m'.jm w w' := by
  have hbefore := h.current hjr
  obtain ⟨hafter, heffect, htransit⟩ := hbefore.reload hjr hwrite hfile hread
  have hmem : ∀ {k p}, p ∈ (m'.jm.jMap k).ranks → p ∈ w'.comm := fun hp ↦
    hafter.comm ▸ List.mem_range.mpr (hafter.whole.lt_of_mem hp)
  have hsynced : ∀ p ∈ w'.comm, (w'.proc p).Synced r j m'.jm.mapFile (List.range r) p := fun p hp ↦
    hafter.synced p (List.mem_range.mp (hafter.comm ▸ hp))
  -- the old jobs, the new ones, the receivers, the sender of a job that has some, the master
  refine ⟨?_, fun p hp k ↦ (hsynced p hp).jobId_eq_iff_mem k, ?_, ?_, ?_⟩
  · intro p hp k
    exact (hbefore.synced p (List.mem_range.mp (hbefore.comm ▸ hp))).jobId_eq_iff_mem k
  · intro k p hp
    rw [htransit k p hp, transitAfter_eq_receiver_iff]
    constructor
    · intro hnew
      obtain ⟨i, hi⟩ := hbefore.whole.exists_mem (hafter.whole.lt_of_mem hp)
      exact ⟨i, fun hik ↦ hnew (hik ▸ hi), hi⟩
    · rintro ⟨i, hik, hi⟩ hk
      exact hik (hbefore.whole.eq_of_mem hi hk)
  · -- the first of the new list has been in the job before, so it has what the others need
    intro k hreceiver
    obtain ⟨q, hq, hreceiver⟩ := hreceiver
    obtain ⟨s, hs, hold, hsender⟩ := exists_sender heffect hq (htransit k q hq ▸ hreceiver)
    have hsk : s ∈ (m'.jm.jMap k).ranks := List.mem_of_mem_head? hs
    refine ⟨s, hsk, hold, fun p hp ↦ by rw [htransit k p hp, hsender],
      fun p hp ↦ (hsynced p hp).getElem?_rankList hs, fun p hp hmoves jobComm ↦ ?_⟩
    have hjob : ∀ {p}, p ∈ (m'.jm.jMap k).ranks → (w'.node p).jobId = (k : ℕ) := fun hp ↦
      ((hsynced _ (hmem hp)).jobId_eq_iff_mem k).mpr hp
    refine World.exists_jobComm_createMigrationComm (hmem hsk) ?_ ?_
      (fun q hq ↦ (hsynced q hq).jobId_nonneg) ((hjob hp).trans (hjob hsk).symm) hmoves
      (hsynced p (hmem hp)).ckptRestore jobComm
    · rw [htransit k s hsk, hsender]
    · intro p hp hpjob hpsender
      have hpk := ((hsynced p hp).jobId_eq_iff_mem k).mp (hpjob.trans (hjob hsk))
      exact (hsender p).mp (htransit k p hpk ▸ hpsender)
  · intro k
    obtain ⟨s, hs⟩ : ∃ s, (m'.jm.jMap k).ranks.head? = some s := by
      rw [← Option.isSome_iff_exists, List.isSome_head?]
      simpa [Job.ranks] using hafter.whole.nonempty k
    refine ⟨s, List.mem_of_mem_head? hs, heffect.head_mem hs, ?_⟩
    intro p hp
    have hmaster := (hsynced p (hmem hp)).nodeCheckpointMaster_iff_head? hp
    rw [hs, Option.some_inj, eq_comm (a := s)] at hmaster
    exact hmaster

/-! ## A process joins another job -/

/-- Two jobs, three ranks: the first map has the workers `0` and `2` in job `0`. -/
def tripleFirst : Manager.State 2 :=
  ⟨JobMap.initJobMap 2 3, .resetting, some (JobMap.initJobMap 2 3).writeToFile⟩

/-- `Choose` takes rank `2` out of job `0`. -/
def tripleChosen : JobMap 2 × List Rank :=
  JobMap.chooseTurn 0 1 ((JobMap.initJobMap 2 3).resetModified.initStackData [] true, [])

/-- `Assign` puts it behind rank `1` in job `1`. -/
def tripleAssigned : JobMap 2 := (JobMap.assignTurn tripleChosen.2 1 (tripleChosen.1, 0)).1

def tripleSecond : Manager.State 2 := ⟨tripleAssigned, .resetting, some tripleAssigned.writeToFile⟩

theorem nextWrite_tripleFirst : NextWrite 1 (State.initial 2 3) tripleFirst := by
  have hchoose : Quiet 1 (State.initial 2 3) ⟨JobMap.initJobMap 2 3, .choosing 1 [], none⟩ :=
    ⟨.choose (by decide) (by decide) 1 0, by decide⟩
  have hchosen : Quiet 1 ⟨JobMap.initJobMap 2 3, .choosing 1 [], none⟩
      ⟨JobMap.initJobMap 2 3, .assigning [] 0, none⟩ := ⟨.chooseReturn (by decide), by decide⟩
  have hassigned : Quiet 1 ⟨JobMap.initJobMap 2 3, .assigning [] 0, none⟩
      ⟨JobMap.initJobMap 2 3, .writing, none⟩ := ⟨.assignReturn (by decide), by decide⟩
  exact ⟨_, ((Relation.ReflTransGen.single hchoose).tail hchosen).tail hassigned, rfl, rfl⟩

theorem nextWrite_tripleSecond : NextWrite 1 tripleFirst tripleSecond := by
  have hreset : Relation.ReflTransGen (Quiet 1) tripleFirst
      ⟨(JobMap.initJobMap 2 3).resetModified.initStackData [] true, .choosing 0 [],
        tripleFirst.file⟩ :=
    (Relation.ReflTransGen.single ⟨.resetModified, by decide⟩).tail
      ⟨.initStackData [] true, by simp⟩
  have hchoose : Quiet 1 ⟨(JobMap.initJobMap 2 3).resetModified.initStackData [] true,
      .choosing 0 [], tripleFirst.file⟩
      ⟨tripleChosen.1, .choosing 1 tripleChosen.2, tripleFirst.file⟩ :=
    ⟨.choose (by decide) (by decide) 0 1, by simp⟩
  have hchosen : Quiet 1 ⟨tripleChosen.1, .choosing 1 tripleChosen.2, tripleFirst.file⟩
      ⟨tripleChosen.1, .assigning tripleChosen.2 0, tripleFirst.file⟩ :=
    ⟨.chooseReturn (by decide), by simp⟩
  have hassign : Quiet 1 ⟨tripleChosen.1, .assigning tripleChosen.2 0, tripleFirst.file⟩
      ⟨tripleAssigned, .assigning tripleChosen.2 1, tripleFirst.file⟩ :=
    ⟨.assign (by decide) 1, by simp⟩
  have hassigned : Quiet 1 ⟨tripleAssigned, .assigning tripleChosen.2 1, tripleFirst.file⟩
      ⟨tripleAssigned, .writing, tripleFirst.file⟩ := ⟨.assignReturn (by decide), by simp⟩
  exact ⟨_, (((hreset.tail hchoose).tail hchosen).tail hassign).tail hassigned, rfl, rfl⟩

/-- The three processes after they have entered. -/
def tripleEntered : World :=
  World.updateComms ⟨[0, 1, 2], fun p ↦
    (Process.blank.initNode [0, 1, 2] ([0, 1, 2].idxOf p)
      (JobMap.initJobMap 2 3).writeToFile).toOption.getD Process.blank⟩

/-- And after they have reloaded. -/
def tripleReloaded : World :=
  World.updateComms ⟨[0, 1, 2], fun p ↦
    ((tripleEntered.proc p).parseMapFile tripleAssigned.writeToFile).toOption.getD Process.blank⟩

theorem migrationSound_tripleReloaded :
    MigrationSound tripleFirst.jm tripleSecond.jm tripleEntered tripleReloaded := by
  have hthree : ∀ p ∈ [0, 1, 2], p = 0 ∨ p = 1 ∨ p = 2 := by simp
  have henters : World.Enters ⟨List.range 3, fun _ ↦ Process.blank⟩
      (JobMap.initJobMap 2 3).writeToFile tripleEntered := by
    refine ⟨_, ?_, rfl⟩
    intro p hp
    rcases hthree p hp with rfl | rfl | rfl <;> rfl
  have hreloads : tripleEntered.Reloads tripleAssigned.writeToFile tripleReloaded := by
    refine ⟨_, ?_, rfl⟩
    intro p hp
    rcases hthree p hp with rfl | rfl | rfl <;> rfl
  exact Lockstep.migrationSound (by decide) (.start nextWrite_tripleFirst rfl henters)
    nextWrite_tripleSecond rfl hreloads

end EntangledMPI
