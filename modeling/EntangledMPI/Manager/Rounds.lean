import EntangledMPI.Manager.JobMap
import Mathlib.Algebra.Order.BigOperators.Group.Finset
import Mathlib.Data.List.GetD
import Mathlib.Tactic.FinCases

/-!
# What the manager preserves over any number of rounds

A rank leaves a job in `Choose`, travels in the list of chosen ranks, and enters a job in `Assign`.
Counting a rank over all jobs and over the list of those not yet placed therefore gives the same
number after every turn of either loop, and `InitJobMap` starts it at one for `0 .. r - 1` and at
zero elsewhere. `Choose` passes over a job of one rank, so no job ever runs empty, and that is what
keeps the index `RankList[0]` and the two indices drawn in `Choose` inside their lists.
-/

namespace EntangledMPI.Manager

variable {j : ℕ}

/-! ## Counting a rank -/

/-- How often `q` stands in the lists of all jobs together. -/
def JobMap.occurrences (jm : JobMap j) (q : ℕ) : ℕ := ∑ k, (jm.jMap k).ranks.count q

/-- The chosen ranks that no job has been given yet. -/
def Pc.pending : Pc → List ℕ
  | .choosing _ c => c.map Rank.rank
  | .assigning newList allocationCounter => (newList.drop allocationCounter).map Rank.rank
  | _ => []

namespace JobMap

theorem jMap_modifyJob_self (jm : JobMap j) (k : Fin j) (f : Job → Job) :
    (jm.modifyJob k f).jMap k = f (jm.jMap k) := Function.update_self _ _ _

theorem jMap_modifyJob_of_ne (jm : JobMap j) {k i : Fin j} (h : i ≠ k) (f : Job → Job) :
    (jm.modifyJob k f).jMap i = jm.jMap i := Function.update_of_ne h _ _

theorem occurrences_modifyJob (jm : JobMap j) (k : Fin j) (f : Job → Job) (q : ℕ) :
    (jm.modifyJob k f).occurrences q + (jm.jMap k).ranks.count q
      = jm.occurrences q + (f (jm.jMap k)).ranks.count q := by
  have hrest : ∑ i ∈ Finset.univ.erase k, ((jm.modifyJob k f).jMap i).ranks.count q
      = ∑ i ∈ Finset.univ.erase k, (jm.jMap i).ranks.count q := by
    apply Finset.sum_congr rfl
    intro i hi
    rw [jMap_modifyJob_of_ne jm (Finset.ne_of_mem_erase hi)]
  rw [occurrences, occurrences, ← Finset.add_sum_erase _ _ (Finset.mem_univ k), hrest,
    ← Finset.add_sum_erase _ _ (Finset.mem_univ k), jMap_modifyJob_self]
  omega

theorem occurrences_congr {jm jm' : JobMap j} (h : ∀ k, (jm'.jMap k).ranks = (jm.jMap k).ranks)
    (q : ℕ) : jm'.occurrences q = jm.occurrences q :=
  Finset.sum_congr rfl fun k _ ↦ by rw [h k]

theorem forall_modifyJob {P : Fin j → Job → Prop} {jm : JobMap j} {k : Fin j} {f : Job → Job}
    (hjm : ∀ i, P i (jm.jMap i)) (hf : P k (f (jm.jMap k))) (i : Fin j) :
    P i ((jm.modifyJob k f).jMap i) := by
  by_cases hi : i = k
  · subst hi
    rwa [jMap_modifyJob_self]
  · rw [jMap_modifyJob_of_ne jm hi]
    exact hjm i

end JobMap

namespace Job

@[simp] theorem ranks_insertRank (job : Job) (r : Rank) :
    (job.insertRank r).ranks = job.ranks ++ [r.rank] := by
  rw [ranks, insertRank, List.map_append, List.map_singleton, ranks]

theorem getRank_of_lt {job : Job} {i : ℕ} (h : i < job.rankList.length) :
    job.getRank i = job.rankList[i] := by
  rw [getRank, if_neg (by omega), List.getD_eq_getElem _ _ h]

/-- What `RemoveI` takes out is what `GetRank` returned. -/
theorem count_removeI {job : Job} {i : ℕ} (h : i < job.rankList.length) (q : ℕ) :
    (job.removeI i).ranks.count q + [(job.getRank i).rank].count q = job.ranks.count q := by
  have hsplit : job.rankList
      = job.rankList.take i ++ job.rankList[i] :: job.rankList.drop (i + 1) := by
    rw [List.getElem_cons_drop, List.take_append_drop]
  rw [getRank_of_lt h, ranks, ranks, removeI]
  conv_rhs => rw [hsplit]
  simp only [List.map_append, List.map_cons, List.count_append, List.count_cons, List.count_nil]
  omega

theorem length_removeI {job : Job} {i : ℕ} (h : i < job.rankList.length) :
    (job.removeI i).rankList.length + 1 = job.rankList.length := by
  rw [removeI, List.length_append, List.length_take, List.length_drop]
  omega

end Job

/-! ## The start -/

namespace JobMap

/-- The deal of `InitJobMap` after `m` ranks. -/
private def dealt (j : ℕ) [NeZero j] (m : ℕ) : JobMap j := initJobMap j m

private theorem dealt_succ [NeZero j] (m : ℕ) :
    dealt j (m + 1)
      = (dealt j m).modifyJob (Fin.ofNat j m) fun job ↦ job.insertRank ⟨m, -1, 0⟩ := by
  rw [dealt, dealt, initJobMap, List.range_succ, List.foldl_append]
  rfl

theorem occurrences_initJobMap [NeZero j] (r q : ℕ) :
    (initJobMap j r).occurrences q = if q < r then 1 else 0 := by
  change (dealt j r).occurrences q = _
  induction r with
  | zero => simp [dealt, initJobMap, occurrences, newJob, Job.ranks]
  | succ m ih =>
    have h := occurrences_modifyJob (dealt j m) (Fin.ofNat j m)
      (fun job ↦ job.insertRank ⟨m, -1, 0⟩) q
    rw [← dealt_succ, ih, Job.ranks_insertRank, List.count_append, List.count_singleton] at h
    by_cases hq : q = m
    · subst hq
      simp at h ⊢
      omega
    · have hne : (m == q) = false := by simpa using Ne.symm hq
      rw [hne] at h
      simp only [Bool.false_eq_true, ↓reduceIte] at h
      have hlt : q < m + 1 ↔ q < m := by omega
      simp only [hlt]
      omega

theorem rankList_initJobMap_ne_nil [NeZero j] {r : ℕ} (hjr : j ≤ r) (k : Fin j) :
    ((initJobMap j r).jMap k).rankList ≠ [] := by
  have key : ∀ m, (k : ℕ) < m → ((dealt j m).jMap k).rankList ≠ [] := by
    intro m
    induction m with
    | zero => intro h; omega
    | succ m ih =>
      intro h
      rw [dealt_succ]
      by_cases hk : k = Fin.ofNat j m
      · rw [← hk, jMap_modifyJob_self, Job.insertRank]
        simp
      · rw [jMap_modifyJob_of_ne _ hk]
        refine ih (lt_of_le_of_ne (by omega) fun hkm ↦ hk ?_)
        rw [← hkm, Fin.ofNat_val_eq_self]
  exact key r (by omega)

end JobMap

/-! ## One turn of either loop -/

namespace JobMap

/-- Past the test for a job of one rank, both draws of `randomRankIndex` lie inside the list. -/
theorem index_lt {jm : JobMap j} {k : Fin j} (hk : (jm.jMap k).rankList ≠ [])
    (hone : (jm.jMap k).getNumberOfRanks ≠ 1) (idx : Fin 2) :
    (idx : ℕ) < (jm.jMap k).rankList.length := by
  have hpos := List.length_pos_iff.mpr hk
  have hidx := idx.isLt
  rw [Job.getNumberOfRanks] at hone
  omega

theorem count_chooseTurn {jm : JobMap j} {c : List Rank} {k : Fin j} {idx : Fin 2}
    (hk : (jm.jMap k).rankList ≠ []) (q : ℕ) :
    (chooseTurn k idx (jm, c)).1.occurrences q
        + ((chooseTurn k idx (jm, c)).2.map Rank.rank).count q
      = jm.occurrences q + (c.map Rank.rank).count q := by
  rw [chooseTurn]
  split
  · rfl
  · rename_i hone
    have hlt : (idx : ℕ) < (jm.jMap k).rankList.length := index_lt hk hone idx
    have hmod := occurrences_modifyJob jm k
      (fun job ↦ { job.removeI idx with modified := 1 }) q
    have hcount := Job.count_removeI hlt q
    simp only [Job.ranks, List.map_append, List.map_singleton, List.count_append] at hmod hcount ⊢
    omega

theorem rankList_chooseTurn_ne_nil {jm : JobMap j} (hjm : ∀ i, (jm.jMap i).rankList ≠ [])
    (c : List Rank) (k : Fin j) (idx : Fin 2) (i : Fin j) :
    ((chooseTurn k idx (jm, c)).1.jMap i).rankList ≠ [] := by
  rw [chooseTurn]
  split
  · exact hjm i
  · rename_i hone
    have hlen := Job.length_removeI (index_lt (hjm k) hone idx)
    have hpos := List.length_pos_iff.mpr (hjm k)
    have hkept : ((jm.jMap k).removeI idx).rankList ≠ [] := by
      have htwo : (jm.jMap k).rankList.length ≠ 1 := hone
      apply List.length_pos_iff.mp
      omega
    exact forall_modifyJob (P := fun _ job ↦ job.rankList ≠ [])
      (f := fun job ↦ { job.removeI idx with modified := 1 }) hjm hkept i

theorem length_chooseTurn_le (jm : JobMap j) (c : List Rank) (k : Fin j) (idx : Fin 2) :
    (chooseTurn k idx (jm, c)).2.length ≤ c.length + 1 := by
  rw [chooseTurn]
  split
  · exact Nat.le_succ _
  · rw [List.length_append, List.length_singleton]

theorem count_assignTurn {jm : JobMap j} {newList : List Rank} {a : ℕ} (ha : a < newList.length)
    (k : Fin j) (q : ℕ) :
    (assignTurn newList k (jm, a)).1.occurrences q
        + ((newList.drop (assignTurn newList k (jm, a)).2).map Rank.rank).count q
      = jm.occurrences q + ((newList.drop a).map Rank.rank).count q := by
  simp only [assignTurn]
  split_ifs with htwo hguard
  · rfl
  · have hmod := occurrences_modifyJob jm k
      (fun job ↦ { job.insertRank (newList.getD a default) with modified := 1 }) q
    have hins : (Job.ranks { (jm.jMap k).insertRank (newList.getD a default) with modified := 1 })
        = (jm.jMap k).ranks ++ [newList[a].rank] := by
      rw [List.getD_eq_getElem _ _ ha]
      exact Job.ranks_insertRank _ _
    rw [hins, List.count_append] at hmod
    have hdrop : newList.drop a = newList[a] :: newList.drop (a + 1) := List.drop_eq_getElem_cons ha
    rw [hdrop, List.map_cons, List.count_cons]
    simp only [List.count_singleton] at hmod ⊢
    omega
  · rfl

theorem rankList_assignTurn_ne_nil {jm : JobMap j} (hjm : ∀ i, (jm.jMap i).rankList ≠ [])
    (newList : List Rank) (a : ℕ) (k i : Fin j) :
    ((assignTurn newList k (jm, a)).1.jMap i).rankList ≠ [] := by
  simp only [assignTurn]
  split_ifs
  · exact hjm i
  · have hgrown : ((jm.jMap k).insertRank (newList.getD a default)).rankList ≠ [] := by
      simp [Job.insertRank]
    exact forall_modifyJob (P := fun _ job ↦ job.rankList ≠ [])
      (f := fun job ↦ { job.insertRank (newList.getD a default) with modified := 1 }) hjm hgrown i
  · exact hjm i

theorem ranks_initStackData (jm : JobMap j) (records : List StackAddrRepIdx) (onlyRepIDx : Bool)
    (k : Fin j) : ((jm.initStackData records onlyRepIDx).jMap k).ranks = (jm.jMap k).ranks := by
  unfold initStackData
  split
  · rfl
  · simp [Job.ranks, List.map_map, Function.comp_def]

theorem rankList_ne_nil_of_ranks_eq {job job' : Job} (h : job'.ranks = job.ranks)
    (hne : job.rankList ≠ []) : job'.rankList ≠ [] := by
  have hlen : job'.rankList.length = job.rankList.length := by
    simpa [Job.ranks] using congrArg List.length h
  exact List.ne_nil_of_length_pos (hlen ▸ List.length_pos_iff.mpr hne)

end JobMap

/-! ## The invariant of the update loop -/

/-- **The invariant.** Every rank below `r` is in one place, no job is empty, and the list of chosen
ranks respects the choice count. -/
structure Invariant (r : ℕ) (n : ℤ) (s : State j) : Prop where
  conserved : ∀ q, s.jm.occurrences q + s.pc.pending.count q = if q < r then 1 else 0
  nonempty : ∀ k, (s.jm.jMap k).rankList ≠ []
  chosen : ∀ i c, s.pc = .choosing i c → (c.length : ℤ) ≤ max n 0
  returned : ∀ newList a, s.pc = .assigning newList a → (newList.length : ℤ) ≤ max n 0

theorem invariant_initial [NeZero j] {r : ℕ} (hjr : j ≤ r) (n : ℤ) :
    Invariant r n (State.initial j r) where
  conserved q := by
    rw [State.initial, JobMap.occurrences_initJobMap]
    rfl
  nonempty k := JobMap.rankList_initJobMap_ne_nil hjr k
  chosen i c h := by
    obtain ⟨-, rfl⟩ := Pc.choosing.inj h
    simp
  returned newList a h := by simp [State.initial] at h

theorem Invariant.step {r : ℕ} {n : ℤ} {s s' : State j} (hs : Invariant r n s) (h : Step n s s') :
    Invariant r n s' := by
  obtain ⟨hcons, hne, hchosen, hreturned⟩ := hs
  cases h with
  | @choose jm i c file hi hc k idx =>
    refine ⟨?_, JobMap.rankList_chooseTurn_ne_nil hne c k idx, ?_, by simp⟩
    · intro q
      exact (JobMap.count_chooseTurn (hne k) q).trans (hcons q)
    · intro i' c' h'
      obtain ⟨-, rfl⟩ := Pc.choosing.inj h'
      have hlen := JobMap.length_chooseTurn_le jm c k idx
      omega
  | @chooseReturn jm i c file hret =>
    refine ⟨?_, hne, by simp, ?_⟩
    · intro q
      simpa [Pc.pending] using hcons q
    · intro newList a h'
      obtain ⟨rfl, -⟩ := Pc.assigning.inj h'
      exact hchosen i _ rfl
  | @assign jm newList a file ha k =>
    refine ⟨?_, JobMap.rankList_assignTurn_ne_nil hne newList a k, by simp, ?_⟩
    · intro q
      exact (JobMap.count_assignTurn ha k q).trans (hcons q)
    · intro newList' a' h'
      obtain ⟨rfl, -⟩ := Pc.assigning.inj h'
      exact hreturned _ a rfl
  | @assignReturn jm newList a file ha =>
    refine ⟨?_, hne, by simp, by simp⟩
    intro q
    have h := hcons q
    rw [Pc.pending, List.drop_eq_nil_of_le (by omega)] at h
    exact h
  -- the last three calls of a round move no rank
  | writeToFile => exact ⟨hcons, hne, by simp, by simp⟩
  | resetModified => exact ⟨hcons, hne, by simp, by simp⟩
  | @initStackData jm file records onlyRepIDx =>
    refine ⟨?_, ?_, ?_, by simp⟩
    · intro q
      rw [JobMap.occurrences_congr (JobMap.ranks_initStackData jm records onlyRepIDx)]
      exact hcons q
    · intro k
      exact JobMap.rankList_ne_nil_of_ranks_eq (JobMap.ranks_initStackData _ _ _ k) (hne k)
    · intro i c h'
      obtain ⟨-, rfl⟩ := Pc.choosing.inj h'
      simp

theorem Reachable.invariant [NeZero j] {r : ℕ} (hjr : j ≤ r) {n : ℤ} {s : State j}
    (h : Reachable j r n s) : Invariant r n s := by
  induction h with
  | refl => exact invariant_initial hjr n
  | tail _ hstep ih => exact ih.step hstep

/-! ## What holds of every reachable state -/

/-- Outside both loops: every rank that was chosen has been placed. -/
def Pc.BetweenRounds : Pc → Prop
  | .choosing i c => i = 0 ∧ c = []
  | .assigning _ _ => False
  | _ => True

/-- What the job map and the loop positions promise in a state of the update loop. -/
structure RoundSafety (r : ℕ) (n : ℤ) (s : State j) : Prop where
  /-- The jobs and the chosen ranks not yet placed hold `0 .. r - 1`, each once, and no other. -/
  conserved : ∀ q, s.jm.occurrences q + s.pc.pending.count q = if q < r then 1 else 0
  /-- Between rounds each rank is in one job only, and there once. -/
  oneJob : s.pc.BetweenRounds → ∀ q < r, ∃ k, (s.jm.jMap k).ranks.count q = 1 ∧
    ∀ k' ≠ k, q ∉ (s.jm.jMap k').ranks
  /-- Between rounds the jobs list no other rank. -/
  known : s.pc.BetweenRounds → ∀ k, ∀ q ∈ (s.jm.jMap k).ranks, q < r
  nonempty : ∀ k, (s.jm.jMap k).rankList ≠ []
  /-- What `Choose` returned; a negative count chooses nothing. -/
  returned : ∀ newList a, s.pc = .assigning newList a → (newList.length : ℤ) ≤ max n 0
  /-- The index given to `GetRank` and `RemoveI`. -/
  chosenIndex : ∀ i c, s.pc = .choosing i c → ∀ (k : Fin j) (randomRankIndex : Fin 2),
    (s.jm.jMap k).getNumberOfRanks ≠ 1 → (randomRankIndex : ℕ) < (s.jm.jMap k).rankList.length
  /-- The index of `RankList[0]`. -/
  headIndex : ∀ newList a, s.pc = .assigning newList a → ∀ k, 0 < (s.jm.jMap k).rankList.length

theorem Pc.BetweenRounds.pending_eq_nil {pc : Pc} (h : pc.BetweenRounds) : pc.pending = [] := by
  cases pc with
  | choosing i c =>
    obtain ⟨-, rfl⟩ := h
    rfl
  | assigning newList a => exact h.elim
  | writing => rfl
  | resetting => rfl
  | loading => rfl

theorem JobMap.count_le_occurrences (jm : JobMap j) (k : Fin j) (q : ℕ) :
    (jm.jMap k).ranks.count q ≤ jm.occurrences q :=
  Finset.single_le_sum (f := fun k ↦ (jm.jMap k).ranks.count q) (fun _ _ ↦ Nat.zero_le _)
    (Finset.mem_univ k)

theorem JobMap.exists_job_of_occurrences_eq_one {jm : JobMap j} {q : ℕ}
    (h : jm.occurrences q = 1) :
    ∃ k, (jm.jMap k).ranks.count q = 1 ∧ ∀ k' ≠ k, q ∉ (jm.jMap k').ranks := by
  obtain ⟨k, -, hk⟩ : ∃ k ∈ Finset.univ, (jm.jMap k).ranks.count q ≠ 0 :=
    Finset.exists_ne_zero_of_sum_ne_zero (by rw [← occurrences, h]; exact Nat.one_ne_zero)
  have hrest := Finset.add_sum_erase _ (fun i ↦ (jm.jMap i).ranks.count q) (Finset.mem_univ k)
  rw [← occurrences, h] at hrest
  refine ⟨k, by omega, ?_⟩
  intro k' hk' hmem
  have hzero : ∑ i ∈ Finset.univ.erase k, (jm.jMap i).ranks.count q = 0 := by omega
  have hk'zero := Finset.sum_eq_zero_iff.mp hzero k' (Finset.mem_erase.mpr ⟨hk', Finset.mem_univ _⟩)
  exact List.count_eq_zero.mp hk'zero hmem

theorem Invariant.safe {r : ℕ} {n : ℤ} {s : State j} (hs : Invariant r n s) :
    RoundSafety r n s where
  conserved := hs.conserved
  oneJob hpc q hq := by
    have h := hs.conserved q
    rw [hpc.pending_eq_nil, if_pos hq] at h
    exact JobMap.exists_job_of_occurrences_eq_one h
  known hpc k q hq := by
    have h := hs.conserved q
    rw [hpc.pending_eq_nil] at h
    have hpos := List.count_pos_iff.mpr hq
    have hle := s.jm.count_le_occurrences k q
    by_contra hlt
    rw [if_neg hlt, List.count_nil] at h
    omega
  nonempty := hs.nonempty
  returned := hs.returned
  chosenIndex _ _ _ k idx hone := JobMap.index_lt (hs.nonempty k) hone idx
  headIndex _ _ _ k := List.length_pos_iff.mpr (hs.nonempty k)

/-- **The manager conserves the ranks.** At every turn of every round each of `0 .. r - 1` is in one
place, no job is empty, and no index leaves its list. -/
theorem reachable_roundSafety [NeZero j] {r : ℕ} (hjr : j ≤ r) {n : ℤ} {s : State j}
    (h : Reachable j r n s) : RoundSafety r n s :=
  (h.invariant hjr).safe

/-- Two jobs, three ranks: `Choose` has just taken rank `0` out of job `0`. -/
theorem roundSafety_of_first_choice :
    RoundSafety 3 1 (⟨(JobMap.chooseTurn 0 0 (JobMap.initJobMap 2 3, [])).1,
      .choosing 1 (JobMap.chooseTurn 0 0 (JobMap.initJobMap 2 3, [])).2, none⟩ : State 2) :=
  reachable_roundSafety (by decide)
    (Relation.ReflTransGen.single (Step.choose (by decide) (by decide) 0 0))

end EntangledMPI.Manager
