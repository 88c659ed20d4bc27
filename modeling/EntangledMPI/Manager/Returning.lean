import EntangledMPI.Manager.Placing
import EntangledMPI.Manager.WrittenMaps

/-!
# Whether a chosen rank moves

`Assign` would pass over the job a rank came from if `PrevJob` were that job. Nothing sets it, so
`Assign` may give a rank back to its job, unless something else keeps the job from taking it. What
keeps it is again decided before the first turn: a job of two ranks stays one, a job of one rank can
be kept free while the ranks in front are placed elsewhere, and a first rank does not change.

## Main result

`chosen_move_iff`: in a round of any run every chosen rank moves, whatever is drawn, exactly when no
chosen rank can return.
-/

namespace EntangledMPI.Manager

variable {j : ℕ}

namespace JobMap

/-- The job takes the rank of the index once those in front are placed, if they are not placed in
it. -/
structure CanReturn (jm : JobMap j) (newList : List Rank) (k : Fin j) (a : ℕ) : Prop where
  size : (jm.jMap k).getNumberOfRanks ≠ 2
  add : (jm.jMap k).headAdd = (newList.getD a default).stackAdd
  room : jm.Room (newList.take (a + 1))

/-- No chosen rank is in the job it was in when the round began. -/
def ChosenMove (base : JobMap j) (newList : List Rank) (jm : JobMap j) : Prop :=
  ∀ k, ∀ q ∈ (base.jMap k).ranks, q ∈ newList.map Rank.rank → q ∉ (jm.jMap k).ranks

variable {jm jm' : JobMap j} {k : Fin j} {x y : Rank} {newList l : List Rank} {a b q : ℕ}

theorem drop_take_eq_getD_cons (hab : a ≤ b) (hb : b < newList.length) :
    (newList.take (b + 1)).drop a
      = newList.getD a default :: (newList.take (b + 1)).drop (a + 1) := by
  have hlt : a < (newList.take (b + 1)).length := by
    rw [List.length_take]
    omega
  rw [drop_eq_getD_cons hlt, List.getD_eq_getElem _ _ hlt, List.getElem_take,
    List.getD_eq_getElem _ _ (by omega)]

theorem drop_take_self (hb : b < newList.length) :
    (newList.take (b + 1)).drop b = [newList.getD b default] := by
  rw [drop_take_eq_getD_cons le_rfl hb, List.drop_eq_nil_of_le]
  rw [List.length_take]
  omega

/-- A rank can be placed so that the job still takes a later one. -/
theorem Room.exists_takes_beside (h : jm.Room (x :: l)) (hprev : x.prevJob = -1) (hy : y ∈ l)
    (hsize : (jm.jMap k).getNumberOfRanks ≠ 2) (hadd : (jm.jMap k).headAdd = y.stackAdd) :
    ∃ i, jm.Takes i x ∧ ((jm.place i x).jMap k).getNumberOfRanks ≠ 2 := by
  have hne : ∀ i : Fin j, x.prevJob ≠ (i : ℤ) := fun i ↦ by omega
  rcases h x.stackAdd with ⟨i, hi, hthree⟩ | hle
  · refine ⟨i, ⟨by omega, hne i, hi⟩, ?_⟩
    by_cases hik : k = i
    · subst hik
      rw [getNumberOfRanks_place_self]
      omega
    · rwa [jMap_place_of_ne hik]
  · -- if the job is of the address of `x`, so is `y`, and there are two jobs of one rank
    obtain ⟨i, hi, hik⟩ : ∃ i ∈ jm.singles x.stackAdd, i ≠ k := by
      rw [List.map_cons, List.count_cons_self] at hle
      by_cases hxy : x.stackAdd = y.stackAdd
      · have hpos : 0 < (l.map Rank.stackAdd).count x.stackAdd := by
          rw [hxy]
          exact List.count_pos_iff.mpr (List.mem_map_of_mem hy)
        exact Finset.exists_mem_ne (by omega) k
      · obtain ⟨i, hi⟩ := Finset.card_pos.mp (Nat.lt_of_lt_of_le (Nat.succ_pos _) hle)
        refine ⟨i, hi, ?_⟩
        rintro rfl
        exact hxy ((Finset.mem_filter.mp hi).2.1.symm.trans hadd)
    obtain ⟨-, hiadd, hone⟩ := Finset.mem_filter.mp hi
    refine ⟨i, ⟨by omega, hne i, hiadd⟩, ?_⟩
    rwa [jMap_place_of_ne hik.symm]

/-- **Where a rank can return.** Turns lead to the state in which the job takes it. -/
theorem exists_run_takes (h : jm.Ready newList) (hb : b < newList.length)
    (hsize : (jm.jMap k).getNumberOfRanks ≠ 2)
    (hadd : (jm.jMap k).headAdd = (newList.getD b default).stackAdd) (hab : a ≤ b)
    (hroom : jm.Room ((newList.take (b + 1)).drop a)) :
    ∃ jm', AssignRun newList (jm, a) (jm', b) ∧ jm'.Takes k (newList.getD b default) := by
  have hprev : ∀ {i}, i < newList.length → (newList.getD i default).prevJob = -1 := by
    intro i hi
    rw [List.getD_eq_getElem _ _ hi]
    exact h.prevJob _ (List.getElem_mem hi)
  obtain ⟨m, hm⟩ : ∃ m, b - a = m := ⟨_, rfl⟩
  induction m generalizing jm a with
  | zero =>
    obtain rfl : a = b := by omega
    exact ⟨jm, .refl, hsize, by rw [hprev hb]; omega, hadd⟩
  | succ m ih =>
    have hlast : newList.getD b default ∈ (newList.take (b + 1)).drop (a + 1) := by
      refine (List.drop_sublist_drop_left _ (by omega : a + 1 ≤ b)).subset ?_
      rw [drop_take_self hb]
      exact List.mem_singleton_self _
    rw [drop_take_eq_getD_cons hab hb] at hroom
    obtain ⟨i, hi, hsize'⟩ := hroom.exists_takes_beside (hprev (by omega)) hlast hsize hadd
    have hturn := assignTurn_of_takes hi
    have hready := (room_assignTurn h (show a < newList.length by omega) i).1
    rw [hturn] at hready
    obtain ⟨jm', hrun, htakes⟩ := ih hready hsize' ((headAdd_place h.nonempty k).trans hadd)
      (by omega) ((room_place h.nonempty hi).mpr hroom) (by omega)
    exact ⟨jm', .head ⟨by omega, i, hturn.symm⟩ hrun, htakes⟩

theorem room_of_takes {s : JobMap j × ℕ} (hb : b < newList.length)
    (htakes : jm'.Takes k (newList.getD b default)) (h : s.1.Ready newList)
    (hrun : AssignRun newList s (jm', b)) :
    s.2 ≤ b ∧ (s.1.jMap k).getNumberOfRanks ≠ 2 ∧
      (s.1.jMap k).headAdd = (newList.getD b default).stackAdd ∧
      s.1.Room ((newList.take (b + 1)).drop s.2) := by
  induction hrun using Relation.ReflTransGen.head_induction_on with
  | refl =>
    refine ⟨le_rfl, htakes.1, htakes.2.2, ?_⟩
    rw [drop_take_self hb]
    exact (room_place h.nonempty htakes).mp fun _ ↦ Or.inr (Nat.zero_le _)
  | @head s t hturn _ ih =>
    obtain ⟨ha, i, rfl⟩ := hturn
    obtain ⟨jm, a⟩ := s
    have hready := (room_assignTurn h ha i).1
    obtain ⟨hle, hsize, hadd, hroom⟩ := ih hready
    by_cases hi : jm.Takes i (newList.getD a default)
    · rw [assignTurn_of_takes hi] at hle hsize hadd hroom
      refine ⟨by omega, ?_, (headAdd_place h.nonempty k).symm.trans hadd, ?_⟩
      · by_cases hik : k = i
        · exact hik ▸ hi.1
        · rwa [jMap_place_of_ne hik] at hsize
      · rw [drop_take_eq_getD_cons (by omega) hb]
        exact (room_place h.nonempty hi).mp hroom
    · rw [assignTurn_of_not_takes hi] at hle hsize hadd hroom
      exact ⟨hle, hsize, hadd, hroom⟩

theorem canReturn_iff (h : jm.Ready newList) (hb : b < newList.length) :
    jm.CanReturn newList k b ↔
      ∃ jm', AssignRun newList (jm, 0) (jm', b) ∧ jm'.Takes k (newList.getD b default) := by
  constructor
  · intro hcan
    exact exists_run_takes h hb hcan.size hcan.add (Nat.zero_le _) hcan.room
  · rintro ⟨jm', hrun, htakes⟩
    obtain ⟨-, hsize, hadd, hroom⟩ := room_of_takes hb htakes h hrun
    exact ⟨hsize, hadd, hroom⟩

theorem exists_takes_of_mem {s : JobMap j × ℕ} (hrun : AssignRun newList (jm, 0) s)
    (hq : q ∈ (s.1.jMap k).ranks) (hold : q ∉ (jm.jMap k).ranks) :
    ∃ jm' a, AssignRun newList (jm, 0) (jm', a) ∧ a < newList.length ∧
      jm'.Takes k (newList.getD a default) ∧ (newList.getD a default).rank = q := by
  induction hrun with
  | refl => exact absurd hq hold
  | @tail s t hrun hturn ih =>
    obtain ⟨ha, i, rfl⟩ := hturn
    obtain ⟨jm', a⟩ := s
    by_cases hi : jm'.Takes i (newList.getD a default)
    · rw [assignTurn_of_takes hi] at hq
      by_cases hik : k = i
      · subst hik
        dsimp only at hq
        rw [place, jMap_modifyJob_self] at hq
        rcases List.mem_append.mp (Job.ranks_insertRank (jm'.jMap k) _ ▸ hq) with hq | hq
        · exact ih hq
        · exact ⟨jm', a, hrun, ha, hi, (List.mem_singleton.mp hq).symm⟩
      · rw [jMap_place_of_ne hik] at hq
        exact ih hq
    · rw [assignTurn_of_not_takes hi] at hq
      exact ih hq

/-- **Whether the ranks of one list move.** -/
theorem forall_chosenMove_iff {base : JobMap j} (h : jm.Ready newList)
    (hout : ∀ q ∈ newList.map Rank.rank, ∀ k, q ∉ (jm.jMap k).ranks) :
    (∀ s, AssignRun newList (jm, 0) s → ChosenMove base newList s.1) ↔
      ∀ k a, a < newList.length → (newList.getD a default).rank ∈ (base.jMap k).ranks →
        ¬jm.CanReturn newList k a := by
  constructor
  · intro hmove k a ha hq hcan
    obtain ⟨jm', hrun, htakes⟩ := (canReturn_iff h ha).mp hcan
    have hturn : AssignTurn newList (jm', a) (jm'.place k (newList.getD a default), a + 1) :=
      ⟨ha, k, (assignTurn_of_takes htakes).symm⟩
    refine hmove _ (hrun.tail hturn) k _ hq (List.mem_map_of_mem ?_) ?_
    · rw [List.getD_eq_getElem _ _ ha]
      exact List.getElem_mem ha
    · dsimp only
      rw [place, jMap_modifyJob_self]
      exact List.mem_map_of_mem (List.mem_append_right _ (List.mem_singleton_self _))
  · intro hnot s hrun k q hq hmem hback
    obtain ⟨jm', a, hrun', ha, htakes, rfl⟩ := exists_takes_of_mem hrun hback (hout q hmem k)
    exact hnot k a ha hq ((canReturn_iff h ha).mpr ⟨jm', hrun', htakes⟩)

end JobMap

/-- A chosen rank is out of all jobs until it is placed. -/
theorem Reachable.notMem_ranks [NeZero j] {r : ℕ} (hjr : j ≤ r) {n : ℤ} {s : State j}
    (h : Reachable j r n s) {q : ℕ} (hq : q ∈ s.pc.pending) (k : Fin j) :
    q ∉ (s.jm.jMap k).ranks := by
  intro hmem
  have hcons := (h.invariant hjr).conserved q
  have hle := s.jm.count_le_occurrences k q
  have hpending := List.count_pos_iff.mpr hq
  have hjob := List.count_pos_iff.mpr hmem
  split at hcons <;> omega

/-- **When every chosen rank moves.** In any round of any run, `base` the jobs when it begins and
`newList` what `Choose` has taken out of them: whatever is drawn, `Assign` puts no rank back into
the job it was in exactly when no job takes a rank of its own back, by its size, its first rank and
the room for the ranks in front. -/
theorem chosen_move_iff [NeZero j] {r : ℕ} (hjr : j ≤ r) {n : ℤ} {base jm : JobMap j}
    {newList : List Rank} {file file' : Option (List ℤ)}
    (hbase : Reachable j r n ⟨base, .choosing 0 [], file⟩)
    (hchoose : Relation.ReflTransGen (Quiet n) ⟨base, .choosing 0 [], file⟩
      ⟨jm, .assigning newList 0, file'⟩) :
    (∀ s, JobMap.AssignRun newList (jm, 0) s → JobMap.ChosenMove base newList s.1) ↔
      ∀ k a, a < newList.length → (newList.getD a default).rank ∈ (base.jMap k).ranks →
        ¬jm.CanReturn newList k a := by
  have hreach : Reachable j r n ⟨jm, .assigning newList 0, file'⟩ :=
    hbase.trans (Relation.ReflTransGen.mono (fun _ _ h ↦ h.1) _ _ hchoose)
  refine JobMap.forall_chosenMove_iff (hreach.ready hjr) fun q hq k ↦ ?_
  exact hreach.notMem_ranks hjr hq k

/-- Four jobs, nine ranks: the first round, in which rank `0` has been taken out of job `0` and rank
`1` out of job `1`. Job `0` still has two ranks, and rank `0` takes the room in job `1`. -/
theorem chosen_move_first_round :
    let base := JobMap.initJobMap 4 9
    let s := JobMap.chooseTurn 1 0 (JobMap.chooseTurn 0 0 (base, []))
    ∀ s', JobMap.AssignRun s.2 (s.1, 0) s' → JobMap.ChosenMove base s.2 s'.1 := by
  refine (@chosen_move_iff 4 _ 9 (by decide) 2 _ _ _ none none .refl
    (.tail (.tail (.single ⟨.choose (by decide) (by decide) 0 0, by decide⟩)
      ⟨.choose (by decide) (by decide) 1 0, by decide⟩)
      ⟨.chooseReturn (by decide), by decide⟩)).mpr ?_
  have hcases : ∀ k : Fin 4, ∀ a < 2, (([⟨0, -1, 0⟩, ⟨1, -1, 0⟩] : List Rank).getD a default).rank ∈
      ((JobMap.initJobMap 4 9).jMap k).ranks → k = 0 ∧ a = 0 ∨ k = 1 ∧ a = 1 := by decide
  intro k a ha hmem hreturn
  rcases hcases k a ha hmem with ⟨rfl, rfl⟩ | ⟨rfl, rfl⟩
  · exact absurd hreturn.size (by decide)
  · rcases hreturn.room 0 with ⟨k, hadd, hthree⟩ | hle
    · revert k
      decide
    · exact absurd hle (by decide)

/-- Two jobs, three ranks: in a round in which rank `0` has been taken out of job `0`, `Assign` may
put it back there. -/
theorem not_chosenMove_first_round :
    let base := JobMap.initJobMap 2 3
    let s := JobMap.chooseTurn 0 0 (base, [])
    Reachable 2 3 1 ⟨s.1, .assigning s.2 0, none⟩ ∧
      ∃ s', JobMap.AssignRun s.2 (s.1, 0) s' ∧ s'.2 = s.2.length ∧
        ¬JobMap.ChosenMove base s.2 s'.1 := by
  refine ⟨.tail (.single (.choose (by decide) (by decide) 0 0)) (.chooseReturn (by decide)),
    _, .single ⟨by decide, 0, rfl⟩, by decide, fun h ↦ ?_⟩
  exact absurd (h 0 0 (by decide) (by decide)) (by decide)

end EntangledMPI.Manager
