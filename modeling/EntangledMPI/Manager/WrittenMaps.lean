import EntangledMPI.Manager.Rounds
import EntangledMPI.Mpi.MapReading

/-!
# The maps the manager writes

What `WriteToFile` prints is a complete `MapFile`, and different job maps print differently. Between
two writes the manager resets the update bits, takes ranks out of lists and appends ranks to lists,
so a list that changed carries the bit `1`, and its first rank was in it before: `Choose` leaves one
rank in every job and `Assign` inserts at the end. This is `InRound`.
-/

namespace EntangledMPI

/-! ## Complete files -/

namespace MapFile

theorem rows_eq_flatMap (lines : List MapLine) (i : ℕ) :
    rows i lines = (lines.zipIdx i).flatMap fun e ↦ e.1.fields e.2 := by
  induction lines generalizing i with
  | nil => rfl
  | cons line lines ih => rw [rows_cons, ih, List.zipIdx_cons, List.flatMap_cons]

theorem map_natCast_injective {l l' : List ℕ}
    (h : l.map (Nat.cast : ℕ → ℤ) = l'.map Nat.cast) : l = l' :=
  List.map_injective_iff.mpr Nat.cast_injective h

theorem rows_injective {lines lines' : List MapLine} (hlen : lines.length = lines'.length) {i : ℕ}
    (h : rows i lines = rows i lines') : lines = lines' := by
  induction lines generalizing lines' i with
  | nil => exact (List.length_eq_zero_iff.mp hlen.symm).symm
  | cons line lines ih =>
    obtain ⟨updateBit, workers⟩ := line
    cases lines' with
    | nil => exact absurd hlen (by simp)
    | cons line' lines' =>
      obtain ⟨updateBit', workers'⟩ := line'
      rw [rows_cons, rows_cons, MapLine.fields, MapLine.fields] at h
      simp only [List.cons_append, List.cons.injEq, Nat.cast_inj, true_and] at h
      obtain ⟨rfl, hcount, hrest⟩ := h
      obtain ⟨hworkers, hrows⟩ := List.append_inj hrest (by simpa using hcount)
      rw [map_natCast_injective hworkers, ih (by simpa using hlen) hrows]

/-- A file can be read back: its numbers determine it. -/
theorem fields_injective {f g : MapFile} (h : f.fields = g.fields) : f = g := by
  obtain ⟨cores, lines⟩ := f
  obtain ⟨cores', lines'⟩ := g
  simp only [fields, List.cons.injEq, Nat.cast_inj] at h
  obtain ⟨rfl, hlen, hrows⟩ := h
  rw [rows_injective hlen hrows]

end MapFile

namespace Manager

variable {j : ℕ}

namespace JobMap

theorem writeToFile_eq_fields (jm : JobMap j) : jm.writeToFile = jm.mapFile.fields := by
  have hzip : ∀ g : Fin j → MapLine, ((List.finRange j).map g).zipIdx
      = (List.finRange j).map fun k ↦ (g k, (k : ℕ)) := by
    intro g
    apply List.ext_getElem (by simp)
    intro i h₁ h₂
    simp
  rw [writeToFile, MapFile.fields, MapFile.rows_eq_flatMap, mapFile, hzip, List.flatMap_map]
  simp [MapLine.fields, Job.ranks]

theorem getElem?_lines (jm : JobMap j) (k : Fin j) :
    jm.mapFile.lines[(k : ℕ)]? = some ⟨(jm.jMap k).modified, (jm.jMap k).ranks⟩ := by
  simp [mapFile]

theorem modified_initJobMap [NeZero j] (r : ℕ) (k : Fin j) :
    ((initJobMap j r).jMap k).modified = 1 := by
  have hdealt : ∀ (ranks : List ℕ) (jm : JobMap j), (∀ k, (jm.jMap k).modified = 1) →
      ((ranks.foldl (fun jm i ↦ jm.modifyJob (Fin.ofNat j i) fun job ↦ job.insertRank ⟨i, -1, 0⟩)
        jm).jMap k).modified = 1 := by
    intro ranks
    induction ranks with
    | nil => exact fun jm hjm ↦ hjm k
    | cons i ranks ih =>
      intro jm hjm
      exact ih _ fun k ↦ forall_modifyJob (P := fun _ job ↦ job.modified = 1) hjm (hjm _) k
  exact hdealt _ _ fun _ ↦ rfl

/-! ## The job map as a layout -/

/-- The ranks below `r` are dealt out, each to one job, and no job is empty. -/
structure Whole (r : ℕ) (jm : JobMap j) : Prop where
  conserved : ∀ q, jm.occurrences q = if q < r then 1 else 0
  nonempty : ∀ k, (jm.jMap k).rankList ≠ []

/-- The job map, for the processes. -/
def layout {r : ℕ} {jm : JobMap j} (h : jm.Whole r) : Layout r where
  jobs := (List.finRange j).map fun k ↦ (jm.jMap k).ranks
  nonempty ws hws := by
    obtain ⟨k, -, rfl⟩ := List.mem_map.mp hws
    simpa [Job.ranks] using h.nonempty k
  cover := by
    apply List.perm_iff_count.mpr
    intro q
    rw [List.count_flatten, List.map_map, List.count_range]
    exact (Fin.sum_univ_def fun k ↦ (jm.jMap k).ranks.count q).symm.trans (h.conserved q)

theorem workers_layout {r : ℕ} {jm : JobMap j} (h : jm.Whole r) (k : Fin j) :
    (layout h).workers k = (jm.jMap k).ranks := by
  simp [Layout.workers, layout, List.getD_eq_getElem?_getD]

theorem Whole.lt_of_mem {r : ℕ} {jm : JobMap j} (h : jm.Whole r) {k : Fin j} {q : ℕ}
    (hq : q ∈ (jm.jMap k).ranks) : q < r :=
  Layout.lt_of_mem_workers (workers_layout h k ▸ hq)

theorem Whole.eq_of_mem {r : ℕ} {jm : JobMap j} (h : jm.Whole r) {k i : Fin j} {q : ℕ}
    (hk : q ∈ (jm.jMap k).ranks) (hi : q ∈ (jm.jMap i).ranks) : k = i :=
  Fin.ext (Layout.eq_of_mem_workers (workers_layout h k ▸ hk) (workers_layout h i ▸ hi))

theorem Whole.exists_mem {r : ℕ} {jm : JobMap j} (h : jm.Whole r) {q : ℕ} (hq : q < r) :
    ∃ k, q ∈ (jm.jMap k).ranks := by
  obtain ⟨i, hi⟩ := (layout h).exists_mem_workers hq
  have hlt : i < j := by
    simpa [layout] using Layout.lt_length_of_mem_workers hi
  exact ⟨⟨i, hlt⟩, workers_layout h ⟨i, hlt⟩ ▸ hi⟩

theorem length_jobs_layout {r : ℕ} {jm : JobMap j} (h : jm.Whole r) :
    (layout h).jobs.length = j := by
  simp [layout]

theorem countTotalRanks_eq {r : ℕ} {jm : JobMap j} (h : jm.Whole r) : jm.countTotalRanks = r := by
  have hlen : (layout h).jobs.flatten.length = jm.countTotalRanks := by
    rw [List.length_flatten, layout, List.map_map, countTotalRanks, Fin.sum_univ_def]
    simp [Job.ranks, Function.comp_def]
  rw [← hlen, (layout h).cover.length_eq, List.length_range]

theorem mapFile_lists {r : ℕ} {jm : JobMap j} (h : jm.Whole r) : jm.mapFile.Lists (layout h) := by
  refine ⟨?_, countTotalRanks_eq h⟩
  simp [mapFile, layout]

end JobMap

/-! ## What is on disk -/

theorem Reachable.whole_of_writing [NeZero j] {r : ℕ} (hjr : j ≤ r) {n : ℤ} {s : State j}
    (h : Reachable j r n s) (hpc : s.pc = .writing) : s.jm.Whole r := by
  have hinv := Reachable.invariant hjr h
  refine ⟨fun q ↦ ?_, hinv.nonempty⟩
  have hq := hinv.conserved q
  rwa [hpc] at hq

/-- Only a whole job map is ever written. -/
theorem Reachable.whole_of_file [NeZero j] {r : ℕ} (hjr : j ≤ r) {n : ℤ} {s : State j}
    (h : Reachable j r n s) {content : List ℤ} (hfile : s.file = some content) :
    ∃ jm : JobMap j, jm.Whole r ∧ content = jm.mapFile.fields := by
  induction h generalizing content with
  | refl => exact absurd hfile (by simp [State.initial])
  | tail hrun hstep ih =>
    have hinv := Reachable.invariant hjr hrun
    cases hstep with
    | @writeToFile jm file =>
      obtain rfl := Option.some_inj.mp hfile
      exact ⟨jm, ⟨hinv.conserved, hinv.nonempty⟩, jm.writeToFile_eq_fields⟩
    | choose => exact ih hfile
    | chooseReturn => exact ih hfile
    | assign => exact ih hfile
    | assignReturn => exact ih hfile
    | resetModified => exact ih hfile
    | initStackData => exact ih hfile

/-! ## One round -/

/-- A step other than a write. -/
def Quiet (n : ℤ) (s s' : State j) : Prop := Step n s s' ∧ s.pc ≠ .writing

/-- From one state to the state right after the next write. -/
def NextWrite (n : ℤ) (s s' : State j) : Prop :=
  ∃ t, Relation.ReflTransGen (Quiet n) s t ∧ t.pc = .writing ∧
    s' = ⟨t.jm, .resetting, some t.jm.writeToFile⟩

/-- No rank of the round has been placed yet. -/
def Pc.BeforeAssign : Pc → Prop
  | .assigning _ _ => False
  | .writing => False
  | _ => True

/-- Where a round has got to, from the job map `base` written last. -/
structure InRound (base : JobMap j) (s : State j) : Prop where
  /-- Of the old list something is left, in its order, and the new ranks stand behind it. -/
  lists : ∀ k, ∃ kept appended, (s.jm.jMap k).ranks = kept ++ appended ∧
    kept.Sublist (base.jMap k).ranks ∧ kept ≠ [] ∧ (s.pc.BeforeAssign → appended = [])
  /-- A list that changed carries the bit `1`. -/
  bits : ∀ k, (s.jm.jMap k).modified = 0 ∧ (s.jm.jMap k).ranks = (base.jMap k).ranks ∨
    (s.jm.jMap k).modified = 1
  start : s.pc = .resetting → ∀ k, (s.jm.jMap k).ranks = (base.jMap k).ranks

theorem InRound.refl {jm : JobMap j} (hbits : ∀ k, (jm.jMap k).modified ≤ 1)
    (hne : ∀ k, (jm.jMap k).rankList ≠ []) (content : List ℤ) :
    InRound jm ⟨jm, .resetting, some content⟩ where
  lists k := ⟨_, [], (List.append_nil _).symm, List.Sublist.refl _,
    by simpa [Job.ranks] using hne k, fun _ ↦ rfl⟩
  bits k := by
    have hle := hbits k
    rcases Nat.le_one_iff_eq_zero_or_eq_one.mp hle with h | h
    · exact Or.inl ⟨h, rfl⟩
    · exact Or.inr h
  start _ _ := rfl

theorem Job.ranks_removeI (job : Job) (i : ℕ) :
    (job.removeI i).ranks = job.ranks.eraseIdx i := by
  rw [Job.ranks, Job.removeI, Job.ranks, List.map_append, List.map_take, List.map_drop,
    List.eraseIdx_eq_take_drop_succ]

theorem bits_modifyJob {base jm : JobMap j}
    (hbits : ∀ k, (jm.jMap k).modified = 0 ∧ (jm.jMap k).ranks = (base.jMap k).ranks ∨
      (jm.jMap k).modified = 1) {k : Fin j} {f : Job → Job} (hf : (f (jm.jMap k)).modified = 1)
    (i : Fin j) :
    ((jm.modifyJob k f).jMap i).modified = 0 ∧
        ((jm.modifyJob k f).jMap i).ranks = (base.jMap i).ranks ∨
      ((jm.modifyJob k f).jMap i).modified = 1 :=
  JobMap.forall_modifyJob
    (P := fun i job ↦ job.modified = 0 ∧ job.ranks = (base.jMap i).ranks ∨ job.modified = 1)
    hbits (Or.inr hf) i

theorem InRound.choose {base : JobMap j} {jm : JobMap j} {i : ℕ} {c : List Rank}
    {file : Option (List ℤ)} (h : InRound base ⟨jm, .choosing i c, file⟩) (randomJob : Fin j)
    (randomRankIndex : Fin 2) :
    InRound base ⟨(JobMap.chooseTurn randomJob randomRankIndex (jm, c)).1,
      .choosing (i + 1) (JobMap.chooseTurn randomJob randomRankIndex (jm, c)).2, file⟩ := by
  obtain ⟨hlists, hbits, -⟩ := h
  have hne : ∀ k, (jm.jMap k).rankList ≠ [] := by
    intro k hnil
    obtain ⟨kept, appended, hsplit, -, hkept, -⟩ := hlists k
    rw [Job.ranks, hnil] at hsplit
    exact hkept (List.append_eq_nil_iff.mp hsplit.symm).1
  rw [JobMap.chooseTurn]
  dsimp only
  split
  · exact ⟨hlists, hbits, by simp⟩
  · rename_i hone
    have hlt := JobMap.index_lt (hne randomJob) hone randomRankIndex
    refine ⟨?_, ?_, by simp⟩
    · intro k
      by_cases hk : k = randomJob
      · subst hk
        obtain ⟨kept, appended, hsplit, hsub, -, hnil⟩ := hlists k
        obtain rfl := hnil trivial
        rw [List.append_nil] at hsplit
        have hkept : kept.eraseIdx randomRankIndex
            = ((jm.jMap k).removeI randomRankIndex).ranks := by
          rw [← hsplit, Job.ranks_removeI]
        rw [JobMap.jMap_modifyJob_self]
        refine ⟨kept.eraseIdx randomRankIndex, [], ?_, (List.eraseIdx_sublist _ _).trans hsub, ?_,
          fun _ ↦ rfl⟩
        · rw [List.append_nil, hkept]
          rfl
        · -- the turn does not touch a list of one, so another rank is left
          have hlen := Job.length_removeI hlt
          have hcount := List.length_pos_iff.mpr (hne k)
          rw [Job.getNumberOfRanks] at hone
          rw [hkept, Job.ranks, ne_eq, List.map_eq_nil_iff]
          apply List.ne_nil_of_length_pos
          omega
      · rw [JobMap.jMap_modifyJob_of_ne _ hk]
        exact hlists k
    · intro k
      exact bits_modifyJob (f := fun job ↦ { job.removeI randomRankIndex with modified := 1 })
        hbits rfl k

theorem InRound.assign {base : JobMap j} {jm : JobMap j} {newList : List Rank} {a : ℕ}
    {file : Option (List ℤ)} (h : InRound base ⟨jm, .assigning newList a, file⟩)
    (randomJob : Fin j) :
    InRound base ⟨(JobMap.assignTurn newList randomJob (jm, a)).1,
      .assigning newList (JobMap.assignTurn newList randomJob (jm, a)).2, file⟩ := by
  obtain ⟨hlists, hbits, -⟩ := h
  simp only [JobMap.assignTurn]
  split_ifs
  · exact ⟨hlists, hbits, by simp⟩
  · refine ⟨?_, ?_, by simp⟩
    · intro k
      obtain ⟨kept, appended, hsplit, hsub, hne, -⟩ := hlists k
      by_cases hk : k = randomJob
      · subst hk
        rw [JobMap.jMap_modifyJob_self]
        refine ⟨kept, appended ++ [(newList.getD a default).rank], ?_, hsub, hne, fun h ↦ h.elim⟩
        rw [← List.append_assoc, ← hsplit, ← Job.ranks_insertRank]
        rfl
      · rw [JobMap.jMap_modifyJob_of_ne _ hk]
        exact ⟨kept, appended, hsplit, hsub, hne, fun h ↦ h.elim⟩
    · intro k
      exact bits_modifyJob
        (f := fun job ↦ { job.insertRank (newList.getD a default) with modified := 1 }) hbits rfl k
  · exact ⟨hlists, hbits, by simp⟩

theorem InRound.step {base : JobMap j} {n : ℤ} {s s' : State j} (h : InRound base s)
    (hstep : Quiet n s s') : InRound base s' := by
  obtain ⟨hstep, hquiet⟩ := hstep
  cases hstep with
  | choose hi hc randomJob randomRankIndex => exact h.choose randomJob randomRankIndex
  | chooseReturn hret =>
    obtain ⟨hlists, hbits, -⟩ := h
    refine ⟨?_, hbits, by simp⟩
    intro k
    obtain ⟨kept, appended, hsplit, hsub, hne, -⟩ := hlists k
    exact ⟨kept, appended, hsplit, hsub, hne, fun h ↦ h.elim⟩
  | assign ha randomJob => exact h.assign randomJob
  | assignReturn ha => exact ⟨h.lists, h.bits, by simp⟩
  | writeToFile => exact absurd rfl hquiet
  | resetModified => exact ⟨h.lists, fun k ↦ Or.inl ⟨rfl, h.start rfl k⟩, by simp⟩
  | @initStackData jm file records onlyRepIDx =>
    have hranks := JobMap.ranks_initStackData jm records onlyRepIDx
    have hmodified : ∀ k, ((jm.initStackData records onlyRepIDx).jMap k).modified
        = (jm.jMap k).modified := by
      intro k
      unfold JobMap.initStackData
      split <;> rfl
    refine ⟨?_, ?_, by simp⟩
    · intro k
      rw [hranks]
      exact h.lists k
    · intro k
      rw [hranks, hmodified]
      exact h.bits k

/-- What a round has done to the job map when the next one is written. -/
structure RoundEffect (base jm : JobMap j) : Prop where
  lists : ∀ k, ∃ kept appended, (jm.jMap k).ranks = kept ++ appended ∧
    kept.Sublist (base.jMap k).ranks ∧ kept ≠ []
  bits : ∀ k, (jm.jMap k).modified = 0 ∧ (jm.jMap k).ranks = (base.jMap k).ranks ∨
    (jm.jMap k).modified = 1

theorem NextWrite.roundEffect {base : JobMap j} {n : ℤ} {s s' : State j} (hs : InRound base s)
    (h : NextWrite n s s') : RoundEffect base s'.jm := by
  obtain ⟨t, hrun, -, rfl⟩ := h
  have ht : InRound base t := by
    induction hrun with
    | refl => exact hs
    | tail _ hstep ih => exact ih.step hstep
  refine ⟨?_, ht.bits⟩
  intro k
  obtain ⟨kept, appended, hsplit, hsub, hne, -⟩ := ht.lists k
  exact ⟨kept, appended, hsplit, hsub, hne⟩

theorem RoundEffect.modified_le {base jm : JobMap j} (h : RoundEffect base jm) (k : Fin j) :
    (jm.jMap k).modified ≤ 1 := by
  rcases h.bits k with ⟨hzero, -⟩ | hone
  · omega
  · omega

/-- A rank that is new in a list finds the bit of its row set. -/
theorem RoundEffect.modified_eq_one {base jm : JobMap j} (h : RoundEffect base jm) {k : Fin j}
    {q : ℕ} (hq : q ∈ (jm.jMap k).ranks) (hnew : q ∉ (base.jMap k).ranks) :
    (jm.jMap k).modified = 1 := by
  rcases h.bits k with ⟨-, hsame⟩ | hone
  · exact absurd (hsame ▸ hq) hnew
  · exact hone

theorem RoundEffect.head_mem {base jm : JobMap j} (h : RoundEffect base jm) {k : Fin j} {q : ℕ}
    (hq : (jm.jMap k).ranks.head? = some q) : q ∈ (base.jMap k).ranks := by
  obtain ⟨kept, appended, hsplit, hsub, hne⟩ := h.lists k
  rw [hsplit, List.head?_append_of_ne_nil _ hne] at hq
  exact hsub.subset (List.mem_of_mem_head? hq)

/-! ## The first write -/

/-- Before the first write every job still carries the bit of a new job. -/
theorem NextWrite.modified_first [NeZero j] {r : ℕ} {n : ℤ} {s : State j}
    (h : NextWrite n (State.initial j r) s) (k : Fin j) : (s.jm.jMap k).modified = 1 := by
  obtain ⟨t, hrun, -, rfl⟩ := h
  -- no state in front of the first write resets a bit
  suffices hall : t.pc ≠ .resetting ∧ t.pc ≠ .loading ∧ ∀ k, (t.jm.jMap k).modified = 1 from
    hall.2.2 k
  induction hrun with
  | refl =>
    refine ⟨by simp [State.initial], by simp [State.initial], ?_⟩
    intro k
    exact JobMap.modified_initJobMap r k
  | tail _ hstep ih =>
    obtain ⟨hstep, hquiet⟩ := hstep
    obtain ⟨hreset, hload, hall⟩ := ih
    cases hstep with
    | choose hi hc randomJob randomRankIndex =>
      refine ⟨by simp, by simp, ?_⟩
      intro k
      rw [JobMap.chooseTurn]
      dsimp only
      split
      · exact hall k
      · exact JobMap.forall_modifyJob (P := fun _ job ↦ job.modified = 1)
          (f := fun job ↦ { job.removeI randomRankIndex with modified := 1 }) hall rfl k
    | chooseReturn => exact ⟨by simp, by simp, hall⟩
    | @assign jm newList a file ha randomJob =>
      refine ⟨by simp, by simp, ?_⟩
      intro k
      simp only [JobMap.assignTurn]
      split_ifs
      · exact hall k
      · exact JobMap.forall_modifyJob (P := fun _ job ↦ job.modified = 1)
          (f := fun job ↦ { job.insertRank (newList.getD a default) with modified := 1 }) hall rfl k
      · exact hall k
    | assignReturn => exact ⟨by simp, by simp, hall⟩
    | writeToFile => exact absurd rfl hquiet
    | resetModified => exact absurd rfl hreset
    | initStackData => exact absurd rfl hload

theorem NextWrite.reachable [NeZero j] {r : ℕ} {n : ℤ} {s s' : State j} (hs : Reachable j r n s)
    (h : NextWrite n s s') : Reachable j r n s' := by
  obtain ⟨⟨jm, pc, file⟩, hrun, rfl, rfl⟩ := h
  exact (hs.trans (hrun.lift id fun _ _ h ↦ h.1)).tail Step.writeToFile

theorem NextWrite.whole [NeZero j] {r : ℕ} (hjr : j ≤ r) {n : ℤ} {s s' : State j}
    (hs : Reachable j r n s) (h : NextWrite n s s') :
    s'.jm.Whole r ∧ s'.file = some s'.jm.mapFile.fields := by
  have hinv := (h.reachable hs).invariant hjr
  obtain ⟨⟨jm, pc, file⟩, -, rfl, rfl⟩ := h
  exact ⟨⟨hinv.conserved, hinv.nonempty⟩, congrArg some jm.writeToFile_eq_fields⟩

theorem NextWrite.inRound [NeZero j] {r : ℕ} (hjr : j ≤ r) {n : ℤ} {s s' : State j}
    (hs : Reachable j r n s) (h : NextWrite n s s') (hbits : ∀ k, (s'.jm.jMap k).modified ≤ 1) :
    InRound s'.jm s' := by
  have hwhole := (h.whole hjr hs).1
  obtain ⟨⟨jm, pc, file⟩, -, rfl, rfl⟩ := h
  exact .refl hbits hwhole.nonempty _

end Manager

end EntangledMPI
