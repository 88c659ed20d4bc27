import EntangledMPI.Manager.Rounds

/-!
# Whether `Assign` finds a job for every rank

A job takes a rank in `Assign` if it has not exactly two ranks and its first rank has the stack
address of the rank to place; `PrevJob` is `-1` for every rank of every run, so that guard lets all
jobs pass. Placing a rank leaves the first ranks alone. It uses up a job of one rank, or it enlarges
a job of three or more, which goes on taking ranks. Whether `Assign` can place all of its list is
therefore decided before its first turn, by counting, and no choice of jobs on the way changes it.

## Main result

`assign_advances`: in a run whose lists all find room, `Assign` can always go on; and from the start
of any `Assign` it always can exactly when its list finds room.
-/

namespace EntangledMPI.Manager

variable {j : ℕ}

/-- `RankList[0].StackAdd`. -/
def Job.headAdd (job : Job) : UInt64 := (job.rankList.getD 0 default).stackAdd

theorem Job.headAdd_insertRank {job : Job} (h : job.rankList ≠ []) (x : Rank) :
    (job.insertRank x).headAdd = job.headAdd := by
  obtain ⟨y, l, hl⟩ := List.exists_cons_of_ne_nil h
  rw [headAdd, headAdd, insertRank, hl]
  rfl

namespace JobMap

/-- The job gets past both guards of `Assign` for the rank. -/
def Takes (jm : JobMap j) (k : Fin j) (x : Rank) : Prop :=
  (jm.jMap k).getNumberOfRanks ≠ 2 ∧ x.prevJob ≠ (k : ℤ) ∧ (jm.jMap k).headAdd = x.stackAdd

instance (jm : JobMap j) (k : Fin j) (x : Rank) : Decidable (jm.Takes k x) :=
  inferInstanceAs (Decidable (_ ∧ _))

/-- The rank joins the job. -/
def place (jm : JobMap j) (k : Fin j) (x : Rank) : JobMap j :=
  jm.modifyJob k fun job ↦ { job.insertRank x with modified := 1 }

theorem assignTurn_of_takes {jm : JobMap j} {newList : List Rank} {a : ℕ} {k : Fin j}
    (h : jm.Takes k (newList.getD a default)) :
    assignTurn newList k (jm, a) = (jm.place k (newList.getD a default), a + 1) :=
  (if_neg h.1).trans (if_pos h.2)

theorem assignTurn_of_not_takes {jm : JobMap j} {newList : List Rank} {a : ℕ} {k : Fin j}
    (h : ¬jm.Takes k (newList.getD a default)) : assignTurn newList k (jm, a) = (jm, a) := by
  simp only [assignTurn]
  split_ifs with htwo hguard
  · rfl
  · exact absurd ⟨htwo, hguard⟩ h
  · rfl

/-- One turn of `Assign`, while it has a rank to place. -/
def AssignTurn (newList : List Rank) (s s' : JobMap j × ℕ) : Prop :=
  s.2 < newList.length ∧ ∃ randomJob, s' = assignTurn newList randomJob s

/-- Turns of one `Assign`. -/
def AssignRun (newList : List Rank) : JobMap j × ℕ → JobMap j × ℕ → Prop :=
  Relation.ReflTransGen (AssignTurn newList)

/-! ## Room -/

/-- A job with the stack address takes any number of ranks. -/
def HasThree (jm : JobMap j) (add : UInt64) : Prop :=
  ∃ k, (jm.jMap k).headAdd = add ∧ 3 ≤ (jm.jMap k).getNumberOfRanks

/-- The jobs with the stack address that take one rank. -/
def singles (jm : JobMap j) (add : UInt64) : Finset (Fin j) :=
  Finset.univ.filter fun k ↦ (jm.jMap k).headAdd = add ∧ (jm.jMap k).getNumberOfRanks = 1

/-- The jobs with each stack address take as many ranks as the list has with it. -/
def Room (jm : JobMap j) (newList : List Rank) : Prop :=
  ∀ add, jm.HasThree add ∨ (newList.map Rank.stackAdd).count add ≤ (jm.singles add).card

variable {jm : JobMap j} {k : Fin j} {x : Rank} {l : List Rank}

theorem jMap_place_of_ne {i : Fin j} (h : i ≠ k) : (jm.place k x).jMap i = jm.jMap i :=
  jMap_modifyJob_of_ne jm h _

theorem getNumberOfRanks_place_self :
    ((jm.place k x).jMap k).getNumberOfRanks = (jm.jMap k).getNumberOfRanks + 1 := by
  rw [place, jMap_modifyJob_self]
  exact List.length_append

theorem headAdd_place (hne : ∀ i, (jm.jMap i).rankList ≠ []) (i : Fin j) :
    ((jm.place k x).jMap i).headAdd = (jm.jMap i).headAdd := by
  by_cases hi : i = k
  · subst hi
    rw [place, jMap_modifyJob_self]
    exact Job.headAdd_insertRank (hne i) x
  · rw [jMap_place_of_ne hi]

theorem rankList_place_ne_nil (hne : ∀ i, (jm.jMap i).rankList ≠ []) (i : Fin j) :
    ((jm.place k x).jMap i).rankList ≠ [] :=
  forall_modifyJob (P := fun _ job ↦ job.rankList ≠ []) hne (by simp [Job.insertRank]) i

theorem getNumberOfRanks_pos (hne : ∀ i, (jm.jMap i).rankList ≠ []) (i : Fin j) :
    0 < (jm.jMap i).getNumberOfRanks := List.length_pos_iff.mpr (hne i)

theorem hasThree_place (hne : ∀ i, (jm.jMap i).rankList ≠ []) (h : jm.Takes k x) (add : UInt64) :
    (jm.place k x).HasThree add ↔ jm.HasThree add := by
  refine exists_congr fun i ↦ ?_
  rw [headAdd_place hne i]
  refine and_congr_right fun _ ↦ ?_
  by_cases hi : i = k
  · subst hi
    have htwo := h.1
    rw [getNumberOfRanks_place_self]
    omega
  · rw [jMap_place_of_ne hi]

theorem mem_singles (hne : ∀ i, (jm.jMap i).rankList ≠ []) (h : jm.Takes k x)
    (hthree : ¬jm.HasThree x.stackAdd) : k ∈ jm.singles x.stackAdd := by
  refine Finset.mem_filter.mpr ⟨Finset.mem_univ k, h.2.2, ?_⟩
  have hpos := getNumberOfRanks_pos hne k
  have htwo := h.1
  have hlt : ¬3 ≤ (jm.jMap k).getNumberOfRanks := fun hle ↦ hthree ⟨k, h.2.2, hle⟩
  omega

theorem singles_place (hne : ∀ i, (jm.jMap i).rankList ≠ []) (add : UInt64) :
    (jm.place k x).singles add = (jm.singles add).erase k := by
  ext i
  rw [Finset.mem_erase, singles, singles, Finset.mem_filter, Finset.mem_filter,
    headAdd_place hne i]
  by_cases hi : i = k
  · subst hi
    have hpos := getNumberOfRanks_pos hne i
    rw [getNumberOfRanks_place_self]
    simp only [ne_eq, not_true_eq_false, false_and, iff_false]
    omega
  · rw [jMap_place_of_ne hi]
    simp [hi]

/-- **One placed rank** takes its own room, and no other. -/
theorem room_place (hne : ∀ i, (jm.jMap i).rankList ≠ []) (h : jm.Takes k x) :
    (jm.place k x).Room l ↔ jm.Room (x :: l) := by
  refine forall_congr' fun add ↦ ?_
  rw [hasThree_place hne h, singles_place hne]
  by_cases hthree : jm.HasThree add
  · simp [hthree]
  · refine or_congr_right ?_
    rw [List.map_cons, List.count_cons]
    by_cases hadd : x.stackAdd = add
    · subst hadd
      have hmem := mem_singles hne h hthree
      have hpos := Finset.card_pos.mpr ⟨k, hmem⟩
      rw [Finset.card_erase_of_mem hmem, beq_self_eq_true, if_pos rfl]
      omega
    · have hnot : k ∉ jm.singles add := fun hmem ↦
        hadd (h.2.2.symm.trans (Finset.mem_filter.mp hmem).2.1)
      rw [Finset.erase_eq_of_notMem hnot]
      simp [hadd]

/-- Where there is room for a rank, a job takes it. -/
theorem Room.exists_takes (h : jm.Room (x :: l)) (hprev : x.prevJob = -1) :
    ∃ k, jm.Takes k x := by
  have hne : ∀ k : Fin j, x.prevJob ≠ (k : ℤ) := fun k ↦ by omega
  rcases h x.stackAdd with ⟨k, hk, hthree⟩ | hle
  · exact ⟨k, by omega, hne k, hk⟩
  · rw [List.map_cons, List.count_cons_self] at hle
    obtain ⟨k, hk⟩ := Finset.card_pos.mp (Nat.lt_of_lt_of_le (Nat.succ_pos _) hle)
    obtain ⟨-, hadd, hone⟩ := Finset.mem_filter.mp hk
    exact ⟨k, by omega, hne k, hadd⟩

/-! ## The turns of one `Assign` -/

/-- What `Assign` finds in every run: no job is empty, and `PrevJob` has not been set. -/
structure Ready (jm : JobMap j) (newList : List Rank) : Prop where
  nonempty : ∀ k, (jm.jMap k).rankList ≠ []
  prevJob : ∀ x ∈ newList, x.prevJob = -1

/-- Some job takes the next rank. -/
def Advances (newList : List Rank) (s : JobMap j × ℕ) : Prop :=
  s.2 < newList.length → ∃ k, s.1.Takes k (newList.getD s.2 default)

variable {newList : List Rank} {a : ℕ}

theorem drop_eq_getD_cons (ha : a < newList.length) :
    newList.drop a = newList.getD a default :: newList.drop (a + 1) := by
  rw [List.getD_eq_getElem _ _ ha]
  exact List.drop_eq_getElem_cons ha

/-- One turn leaves the room for what it leaves of the list. -/
theorem room_assignTurn (h : jm.Ready newList) (ha : a < newList.length) (k : Fin j) :
    let s := assignTurn newList k (jm, a)
    s.1.Ready newList ∧ (s.1.Room (newList.drop s.2) ↔ jm.Room (newList.drop a)) := by
  by_cases htakes : jm.Takes k (newList.getD a default)
  · rw [assignTurn_of_takes htakes, drop_eq_getD_cons ha]
    exact ⟨⟨rankList_place_ne_nil h.nonempty, h.prevJob⟩, room_place h.nonempty htakes⟩
  · rw [assignTurn_of_not_takes htakes]
    exact ⟨h, Iff.rfl⟩

theorem room_assignRun {s s' : JobMap j × ℕ} (h : s.1.Ready newList)
    (hrun : AssignRun newList s s') :
    s'.1.Ready newList ∧ (s'.1.Room (newList.drop s'.2) ↔ s.1.Room (newList.drop s.2)) := by
  induction hrun with
  | refl => exact ⟨h, Iff.rfl⟩
  | tail _ hturn ih =>
    obtain ⟨ha, k, rfl⟩ := hturn
    obtain ⟨hready, hroom⟩ := room_assignTurn ih.1 ha k
    exact ⟨hready, hroom.trans ih.2⟩

theorem advances_of_room (h : jm.Ready newList) (hroom : jm.Room (newList.drop a)) :
    Advances newList (jm, a) := by
  intro ha
  rw [drop_eq_getD_cons ha] at hroom
  refine hroom.exists_takes (h.prevJob _ ?_)
  rw [List.getD_eq_getElem _ _ ha]
  exact List.getElem_mem _

/-- **When one `Assign` never gets stuck.** -/
theorem forall_advances_iff (h : jm.Ready newList) :
    (∀ s, AssignRun newList (jm, a) s → Advances newList s) ↔ jm.Room (newList.drop a) := by
  constructor
  · -- placing one rank after the other ends with none left, which needs no room
    intro hadv
    obtain ⟨m, hm⟩ : ∃ m, newList.length - a = m := ⟨_, rfl⟩
    induction m generalizing jm a with
    | zero =>
      rw [List.drop_eq_nil_of_le (by omega)]
      exact fun _ ↦ Or.inr (Nat.zero_le _)
    | succ m ih =>
      have ha : a < newList.length := by omega
      obtain ⟨k, hk⟩ := hadv _ .refl ha
      have hturn := assignTurn_of_takes hk
      obtain ⟨hready, hroom⟩ := room_assignTurn h ha k
      rw [hturn] at hready hroom
      exact hroom.mp (ih hready (fun s hs ↦ hadv s (.head ⟨ha, k, hturn.symm⟩ hs)) (by omega))
  · intro hroom s hrun
    obtain ⟨hready, hiff⟩ := room_assignRun h hrun
    exact advances_of_room hready (hiff.mpr hroom)

end JobMap

/-! ## Over all rounds -/

/-- The list that `Choose` fills and `Assign` empties. -/
def Pc.list : Pc → List Rank
  | .choosing _ c => c
  | .assigning newList _ => newList
  | _ => []

/-- `PrevJob` is as `InitJobMap` set it. -/
structure Unset (s : State j) : Prop where
  jobs : ∀ k, ∀ x ∈ (s.jm.jMap k).rankList, x.prevJob = -1
  list : ∀ x ∈ s.pc.list, x.prevJob = -1

theorem JobMap.prevJob_modifyJob {jm : JobMap j} {k : Fin j} {f : Job → Job}
    (hjobs : ∀ i, ∀ x ∈ (jm.jMap i).rankList, x.prevJob = -1)
    (hf : ∀ x ∈ (f (jm.jMap k)).rankList, x.prevJob = -1) (i : Fin j) :
    ∀ x ∈ ((jm.modifyJob k f).jMap i).rankList, x.prevJob = -1 :=
  forall_modifyJob (P := fun _ job ↦ ∀ x ∈ job.rankList, x.prevJob = -1) hjobs hf i

theorem unset_initial [NeZero j] (r : ℕ) : Unset (State.initial j r) := by
  refine ⟨?_, by simp [State.initial, Pc.list]⟩
  refine List.foldlRecOn (motive := fun jm : JobMap j ↦ ∀ k, ∀ x ∈ (jm.jMap k).rankList,
    x.prevJob = -1) (List.range r) _ (by simp [newJob]) fun jm hjm i _ k ↦ ?_
  refine JobMap.prevJob_modifyJob hjm (fun x hx ↦ ?_) k
  rcases List.mem_append.mp hx with hx | hx
  · exact hjm _ x hx
  · rw [List.mem_singleton.mp hx]

theorem Unset.step {n : ℤ} {s s' : State j} (hs : Unset s)
    (hne : ∀ k, (s.jm.jMap k).rankList ≠ []) (h : Step n s s') : Unset s' := by
  obtain ⟨hjobs, hlist⟩ := hs
  cases h with
  | @choose jm i c file hi hc k idx =>
    rw [JobMap.chooseTurn]
    split
    next => exact ⟨hjobs, hlist⟩
    next hone =>
      -- a list of one is left alone, so the drawn place is taken
      have hlt : (idx : ℕ) < (jm.jMap k).rankList.length := JobMap.index_lt (hne k) hone idx
      constructor
      · refine fun i ↦ JobMap.prevJob_modifyJob
          (f := fun job ↦ { job.removeI idx with modified := 1 }) hjobs (fun x hx ↦ ?_) i
        rcases List.mem_append.mp hx with hx | hx
        · exact hjobs k x (List.mem_of_mem_take hx)
        · exact hjobs k x (List.mem_of_mem_drop hx)
      · intro x hx
        rcases List.mem_append.mp hx with hx | hx
        · exact hlist x hx
        · rw [List.mem_singleton.mp hx]
          refine hjobs k _ ?_
          rw [Job.getRank_of_lt hlt]
          exact List.getElem_mem hlt
  | chooseReturn => exact ⟨hjobs, hlist⟩
  | @assign jm newList a file ha k =>
    by_cases htakes : jm.Takes k (newList.getD a default)
    · rw [JobMap.assignTurn_of_takes htakes]
      refine ⟨fun i ↦ JobMap.prevJob_modifyJob
        (f := fun job ↦ { job.insertRank _ with modified := 1 }) hjobs (fun x hx ↦ ?_) i, hlist⟩
      rcases List.mem_append.mp hx with hx | hx
      · exact hjobs k x hx
      · rw [List.mem_singleton.mp hx, List.getD_eq_getElem _ _ ha]
        exact hlist _ (List.getElem_mem ha)
    · rw [JobMap.assignTurn_of_not_takes htakes]
      exact ⟨hjobs, hlist⟩
  | assignReturn => exact ⟨hjobs, by simp [Pc.list]⟩
  | writeToFile => exact ⟨hjobs, by simp [Pc.list]⟩
  | resetModified => exact ⟨hjobs, by simp [Pc.list]⟩
  | @initStackData jm file records onlyRepIDx =>
    refine ⟨fun k x hx ↦ ?_, by simp [Pc.list]⟩
    unfold JobMap.initStackData at hx
    split at hx
    · exact hjobs k x hx
    · obtain ⟨y, hy, rfl⟩ := List.mem_map.mp hx
      exact hjobs k y hy

theorem Reachable.unset [NeZero j] {r : ℕ} (hjr : j ≤ r) {n : ℤ} {s : State j}
    (h : Reachable j r n s) : Unset s := by
  induction h with
  | refl => exact unset_initial r
  | tail hs hstep ih => exact ih.step (Reachable.invariant hjr hs).nonempty hstep

theorem Reachable.ready [NeZero j] {r : ℕ} (hjr : j ≤ r) {n : ℤ} {s : State j}
    (h : Reachable j r n s) : s.jm.Ready s.pc.list :=
  ⟨(h.invariant hjr).nonempty, (h.unset hjr).list⟩

/-- In `Assign` some job takes the next rank. -/
def State.Advances (s : State j) : Prop :=
  ∀ newList a, s.pc = .assigning newList a → JobMap.Advances newList (s.jm, a)

/-- A step that does not start an `Assign` whose list finds no room. -/
def RoomStep (n : ℤ) (s s' : State j) : Prop :=
  Step n s s' ∧ ∀ newList, s'.pc = .assigning newList 0 → s'.jm.Room newList

theorem room_of_roomSteps [NeZero j] {r : ℕ} (hjr : j ≤ r) {n : ℤ} {s : State j}
    (h : Relation.ReflTransGen (RoomStep n) (State.initial j r) s) :
    Reachable j r n s ∧
      ∀ newList a, s.pc = .assigning newList a → s.jm.Room (newList.drop a) := by
  induction h with
  | refl => exact ⟨.refl, by simp [State.initial]⟩
  | tail _ hstep ih =>
    obtain ⟨hs, hroom⟩ := ih
    obtain ⟨hstep, hstart⟩ := hstep
    refine ⟨hs.tail hstep, ?_⟩
    cases hstep with
    | @chooseReturn jm i c file hret =>
      intro newList a hpc
      obtain ⟨rfl, rfl⟩ := Pc.assigning.inj hpc
      exact hstart _ rfl
    | @assign jm newList a file ha k =>
      intro newList' a' hpc
      obtain ⟨rfl, rfl⟩ := Pc.assigning.inj hpc
      exact (JobMap.room_assignTurn (hs.ready hjr) ha k).2.mpr (hroom _ _ rfl)
    | choose => simp
    | assignReturn => simp
    | writeToFile => simp
    | resetModified => simp
    | initStackData => simp

/-- **When `Assign` can go on.** In a run in which every list of chosen ranks finds room, some job
takes the next rank in every state. And from the start of any `Assign` of any run, some job takes
the next rank in every state that its turns lead to exactly when the list finds room. -/
theorem assign_advances [NeZero j] {r : ℕ} (hjr : j ≤ r) (n : ℤ) :
    (∀ s, Relation.ReflTransGen (RoomStep n) (State.initial j r) s → s.Advances) ∧
      ∀ (jm : JobMap j) newList file, Reachable j r n ⟨jm, .assigning newList 0, file⟩ →
        ((∀ s, JobMap.AssignRun newList (jm, 0) s → JobMap.Advances newList s) ↔
          jm.Room newList) := by
  constructor
  · intro s hs newList a hpc
    obtain ⟨hreach, hroom⟩ := room_of_roomSteps hjr hs
    have hready := hreach.ready hjr
    rw [hpc] at hready
    exact JobMap.advances_of_room hready (hroom newList a hpc)
  · intro jm newList file hs
    exact JobMap.forall_advances_iff (hs.ready hjr)

/-- Two jobs, three ranks, after `Choose` has taken one out of job `0`: both jobs have room. -/
theorem assign_advances_two_jobs :
    let s := JobMap.chooseTurn 0 0 (JobMap.initJobMap 2 3, [])
    ∀ s', JobMap.AssignRun s.2 (s.1, 0) s' → JobMap.Advances s.2 s' := by
  refine ((assign_advances (by decide) 1).2 _ _ none
    (.tail (.single (.choose (by decide) (by decide) 0 0)) (.chooseReturn (by decide)))).mpr ?_
  intro add
  right
  by_cases hadd : add = 0
  · subst hadd
    decide
  · have hnone : add ∉ (JobMap.chooseTurn 0 0 (JobMap.initJobMap 2 3, [])).2.map Rank.stackAdd :=
      fun hmem ↦ hadd (List.mem_singleton.mp hmem)
    rw [List.count_eq_zero_of_not_mem hnone]
    exact Nat.zero_le _

/-- Two jobs, five ranks. `Choose` takes one of the three ranks of job `0`, and then both jobs have
two, which `Assign` passes over. -/
theorem not_advances_five_ranks :
    ∃ s : State 2, Reachable 2 5 3 s ∧ ¬s.Advances := by
  refine ⟨⟨_, .assigning _ 0, _⟩, .tail (.single (.choose (by decide) (by decide) 0 0))
    (.chooseReturn (by decide)), fun h ↦ ?_⟩
  exact absurd (h _ _ rfl (by decide)) (by decide)

end EntangledMPI.Manager
