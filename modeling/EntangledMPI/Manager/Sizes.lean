import EntangledMPI.Manager.Placing
import Mathlib.Data.Int.CardIntervalMod

/-!
# Whether the next map gets written

`Choose` returns after at most `j / 2` turns, whatever it draws. `Assign` returns only once every
chosen rank is placed, and whether it can place them is a matter of the sizes of the jobs. When all
ranks have one stack address, as they do with address space randomisation turned off, a job of three
or more takes any of them, and without such a job the jobs hold at most `2 * j` ranks.

With more than `2 * j` ranks some job has three or more in every round, until `Choose` has taken out
as many ranks as there are beyond `2 * j`. So it is the number of ranks that decides: up to `2 * j`
there is always room, from `2 * j + 1` on `Choose` may take out exactly the ranks that make a third
in their job, and if it cannot take that many there is room again.

## Main result

`write_reachable_iff`: from every state of every run the manager can get to its next `WriteToFile`,
exactly outside that range.
-/

namespace EntangledMPI.Manager

variable {j : ℕ}

/-! ## The sizes of the jobs -/

namespace JobMap

theorem length_ranks (job : Job) : job.ranks.length = job.getNumberOfRanks := List.length_map _

theorem card_one_add_countTotalRanks {jm : JobMap j} (hne : ∀ k, (jm.jMap k).rankList ≠ [])
    (htwo : ∀ k, (jm.jMap k).getNumberOfRanks ≤ 2) :
    (Finset.univ.filter fun k ↦ (jm.jMap k).getNumberOfRanks = 1).card + jm.countTotalRanks
      = 2 * j := by
  have hsize : ∀ k, (if (jm.jMap k).getNumberOfRanks = 1 then 1 else 0)
      + (jm.jMap k).rankList.length = 2 := by
    intro k
    have hpos := getNumberOfRanks_pos hne k
    have hle := htwo k
    rw [Job.getNumberOfRanks] at *
    split <;> omega
  rw [Finset.card_filter, countTotalRanks, ← Finset.sum_add_distrib,
    Finset.sum_congr rfl fun k _ ↦ hsize k, Finset.sum_const, Finset.card_univ, Fintype.card_fin,
    smul_eq_mul, mul_comm]

/-- More ranks than two for each job: three in one of them. -/
theorem exists_three {jm : JobMap j} (h : 2 * j < jm.countTotalRanks) :
    ∃ k, 3 ≤ (jm.jMap k).getNumberOfRanks := by
  by_contra hnone
  have hle : jm.countTotalRanks ≤ ∑ _k : Fin j, 2 :=
    Finset.sum_le_sum fun k _ ↦ Nat.le_of_lt_succ (not_le.mp fun hk ↦ hnone ⟨k, hk⟩)
  rw [Finset.sum_const, Finset.card_univ, Fintype.card_fin, smul_eq_mul] at hle
  omega

theorem getNumberOfRanks_initJobMap [NeZero j] (r : ℕ) (k : Fin j) :
    ((initJobMap j r).jMap k).getNumberOfRanks = r.count (· ≡ k [MOD j]) := by
  induction r with
  | zero => rfl
  | succ m ih =>
    have hsucc : initJobMap j (m + 1)
        = (initJobMap j m).modifyJob (Fin.ofNat j m) fun job ↦ job.insertRank ⟨m, -1, 0⟩ := by
      rw [initJobMap, initJobMap, List.range_succ, List.foldl_append]
      rfl
    rw [hsucc, Nat.count_succ, ← ih]
    by_cases hk : k = Fin.ofNat j m
    · have hmod : m ≡ k [MOD j] := by
        rw [hk]
        exact (Nat.mod_modEq m j).symm
      rw [if_pos hmod, ← hk, jMap_modifyJob_self]
      exact List.length_append
    · have hmod : ¬m ≡ k [MOD j] := by
        intro h
        apply hk
        apply Fin.ext
        rw [Fin.val_ofNat, h, Nat.mod_eq_of_lt k.isLt]
      rw [if_neg hmod, jMap_modifyJob_of_ne _ hk, add_zero]

theorem two_le_initJobMap [NeZero j] {r : ℕ} (h : 2 * j ≤ r) (k : Fin j) :
    2 ≤ ((initJobMap j r).jMap k).getNumberOfRanks := by
  have hpos := Nat.pos_of_neZero j
  rw [getNumberOfRanks_initJobMap, Nat.count_modEq_card r hpos]
  exact le_trans ((Nat.le_div_iff_mul_le hpos).mpr h) (Nat.le_add_right _ _)

theorem initJobMap_le_two [NeZero j] {r : ℕ} (h : r ≤ 2 * j) (k : Fin j) :
    ((initJobMap j r).jMap k).getNumberOfRanks ≤ 2 := by
  have hpos := Nat.pos_of_neZero j
  calc ((initJobMap j r).jMap k).getNumberOfRanks
      = r.count (· ≡ k [MOD j]) := getNumberOfRanks_initJobMap r k
    _ ≤ (2 * j).count (· ≡ k [MOD j]) := Nat.count_monotone _ h
    _ = 2 := by
      rw [Nat.count_modEq_card _ hpos, Nat.mul_div_cancel _ hpos, Nat.mul_mod_left,
        if_neg (Nat.not_lt_zero _)]

end JobMap

theorem Invariant.countTotalRanks_add {r : ℕ} {n : ℤ} {s : State j} (h : Invariant r n s) :
    s.jm.countTotalRanks + s.pc.pending.length = r := by
  have hperm : (((List.finRange j).flatMap fun k ↦ (s.jm.jMap k).ranks) ++ s.pc.pending).Perm
      (List.range r) := by
    apply List.perm_iff_count.mpr
    intro q
    rw [List.count_append, List.count_flatMap, List.count_range, ← Fin.sum_univ_def]
    exact h.conserved q
  have hlen := hperm.length_eq
  rw [List.length_append, List.length_flatMap, ← Fin.sum_univ_def, List.length_range] at hlen
  simpa only [JobMap.length_ranks, Job.getNumberOfRanks, JobMap.countTotalRanks] using hlen

/-! ## One stack address -/

/-- Every rank in a job and every rank on its way has the property. -/
structure AllRanks (P : Rank → Prop) (s : State j) : Prop where
  jobs : ∀ k, ∀ x ∈ (s.jm.jMap k).rankList, P x
  list : ∀ x ∈ s.pc.list, P x

theorem JobMap.forall_rankList_modifyJob {P : Rank → Prop} {jm : JobMap j} {k : Fin j}
    {f : Job → Job} (hjobs : ∀ i, ∀ x ∈ (jm.jMap i).rankList, P x)
    (hf : ∀ x ∈ (f (jm.jMap k)).rankList, P x) (i : Fin j) :
    ∀ x ∈ ((jm.modifyJob k f).jMap i).rankList, P x :=
  forall_modifyJob (P := fun _ job ↦ ∀ x ∈ job.rankList, P x) hjobs hf i

theorem AllRanks.step {P : Rank → Prop} {n : ℤ} {s s' : State j} (hs : AllRanks P s)
    (hne : ∀ k, (s.jm.jMap k).rankList ≠ []) (h : Step n s s')
    (hload : s.pc = .loading → ∀ k, ∀ x ∈ (s'.jm.jMap k).rankList, P x) : AllRanks P s' := by
  obtain ⟨hjobs, hlist⟩ := hs
  cases h with
  | @choose jm i c file hi hc k idx =>
    rw [JobMap.chooseTurn]
    split
    next => exact ⟨hjobs, hlist⟩
    next hone =>
      have hlt : (idx : ℕ) < (jm.jMap k).rankList.length := JobMap.index_lt (hne k) hone idx
      constructor
      · refine fun i ↦ JobMap.forall_rankList_modifyJob
          (f := fun job ↦ { job.removeI idx with modified := 1 }) hjobs (fun x hx ↦ ?_) i
        rcases List.mem_append.mp hx with hx | hx
        · exact hjobs k x (List.mem_of_mem_take hx)
        · exact hjobs k x (List.mem_of_mem_drop hx)
      · intro x hx
        rcases List.mem_append.mp hx with hx | hx
        · exact hlist x hx
        · rw [List.mem_singleton.mp hx]
          refine hjobs k _ ?_
          rw [Job.getRank_of_lt hlt]
          exact List.getElem_mem hlt
  | chooseReturn => exact ⟨hjobs, hlist⟩
  | @assign jm newList a file ha k =>
    by_cases htakes : jm.Takes k (newList.getD a default)
    · rw [JobMap.assignTurn_of_takes htakes]
      refine ⟨fun i ↦ JobMap.forall_rankList_modifyJob
        (f := fun job ↦ { job.insertRank _ with modified := 1 }) hjobs (fun x hx ↦ ?_) i, hlist⟩
      rcases List.mem_append.mp hx with hx | hx
      · exact hjobs k x hx
      · rw [List.mem_singleton.mp hx, List.getD_eq_getElem _ _ ha]
        exact hlist _ (List.getElem_mem ha)
    · rw [JobMap.assignTurn_of_not_takes htakes]
      exact ⟨hjobs, hlist⟩
  | assignReturn => exact ⟨hjobs, by simp [Pc.list]⟩
  | writeToFile => exact ⟨hjobs, by simp [Pc.list]⟩
  | resetModified => exact ⟨hjobs, by simp [Pc.list]⟩
  | initStackData => exact ⟨hload rfl, by simp [Pc.list]⟩

/-- The jobs' ranks have one stack address. -/
def JobMap.OneAddress (jm : JobMap j) : Prop :=
  ∃ add, ∀ k, ∀ x ∈ (jm.jMap k).rankList, x.stackAdd = add

/-- A step after which the loaded stack addresses, if it loads any, are one. -/
def LevelStep (n : ℤ) (s s' : State j) : Prop :=
  Step n s s' ∧ (s.pc = .loading → s'.jm.OneAddress)

/-- The runs of the manager in which `InitStackData` finds one address for all ranks. -/
def LevelRun (n : ℤ) : State j → State j → Prop := Relation.ReflTransGen (LevelStep n)

theorem allRanks_initial [NeZero j] {P : Rank → Prop} (r : ℕ) (hP : ∀ i, P ⟨i, -1, 0⟩) :
    AllRanks P (State.initial j r) := by
  refine ⟨?_, by simp [State.initial, Pc.list]⟩
  refine List.foldlRecOn (motive := fun jm : JobMap j ↦ ∀ k, ∀ x ∈ (jm.jMap k).rankList, P x)
    (List.range r) _ (by simp [newJob]) fun jm hjm i _ k ↦ ?_
  refine JobMap.forall_rankList_modifyJob hjm (fun x hx ↦ ?_) k
  rcases List.mem_append.mp hx with hx | hx
  · exact hjm _ x hx
  · rw [List.mem_singleton.mp hx]
    exact hP i

theorem LevelRun.sound [NeZero j] {r : ℕ} (hjr : j ≤ r) {n : ℤ} {s : State j}
    (h : LevelRun n (State.initial j r) s) :
    Reachable j r n s ∧ ∃ add, AllRanks (fun x ↦ x.stackAdd = add) s := by
  induction h with
  | refl => exact ⟨.refl, 0, allRanks_initial r fun _ ↦ rfl⟩
  | @tail s s' _ hstep ih =>
    obtain ⟨hs, add, hall⟩ := ih
    obtain ⟨hstep, hload⟩ := hstep
    refine ⟨hs.tail hstep, ?_⟩
    have hne := (hs.invariant hjr).nonempty
    by_cases hpc : s.pc = .loading
    · obtain ⟨add', hadd'⟩ := hload hpc
      refine ⟨add', hadd', ?_⟩
      cases hstep with
      | initStackData => simp [Pc.list]
      | _ => simp at hpc
    · exact ⟨add, hall.step hne hstep fun h ↦ absurd h hpc⟩

/-- With one address the sizes alone decide whether a list finds room. -/
theorem JobMap.room_iff_sizes {jm : JobMap j} {l : List Rank} {add : UInt64}
    (hne : ∀ k, (jm.jMap k).rankList ≠ [])
    (hjobs : ∀ k, ∀ x ∈ (jm.jMap k).rankList, x.stackAdd = add)
    (hlist : ∀ x ∈ l, x.stackAdd = add) :
    jm.Room l ↔ (∃ k, 3 ≤ (jm.jMap k).getNumberOfRanks) ∨
      l.length + jm.countTotalRanks ≤ 2 * j := by
  have hhead : ∀ k, (jm.jMap k).headAdd = add := by
    intro k
    obtain ⟨x, rest, hx⟩ := List.exists_cons_of_ne_nil (hne k)
    rw [Job.headAdd, hx]
    exact hjobs k x (hx ▸ List.mem_cons_self)
  have hcount : (l.map Rank.stackAdd).count add = l.length := by
    rw [List.map_congr_left hlist, List.map_const', List.count_replicate_self]
  have hnone : ∀ other, other ≠ add → (l.map Rank.stackAdd).count other = 0 := by
    intro other hother
    refine List.count_eq_zero.mpr fun hmem ↦ hother ?_
    obtain ⟨x, hx, rfl⟩ := List.mem_map.mp hmem
    exact hlist x hx
  by_cases hthree : ∃ k, 3 ≤ (jm.jMap k).getNumberOfRanks
  · refine ⟨fun _ ↦ Or.inl hthree, fun _ other ↦ ?_⟩
    by_cases hother : other = add
    · obtain ⟨k, hk⟩ := hthree
      exact Or.inl ⟨k, hother ▸ hhead k, hk⟩
    · exact Or.inr (le_of_eq_of_le (hnone other hother) (Nat.zero_le _))
  · have hsingles : (jm.singles add).card + jm.countTotalRanks = 2 * j := by
      rw [← card_one_add_countTotalRanks hne fun k ↦
        Nat.le_of_lt_succ (not_le.mp fun hk ↦ hthree ⟨k, hk⟩)]
      simp only [singles, hhead, true_and]
    rw [or_iff_right hthree]
    constructor
    · intro hroom
      rcases hroom add with ⟨k, -, hk⟩ | hle
      · exact absurd ⟨k, hk⟩ hthree
      · omega
    · intro hle other
      by_cases hother : other = add
      · subst hother
        exact Or.inr (by omega)
      · exact Or.inr (le_of_eq_of_le (hnone other hother) (Nat.zero_le _))

/-! ## What a turn of `Choose` does to the sizes -/

namespace JobMap

variable {jm : JobMap j} {c : List Rank} {k : Fin j}

theorem getNumberOfRanks_removeI_le (job : Job) (i : ℕ) :
    (job.removeI i).getNumberOfRanks ≤ job.getNumberOfRanks := by
  rw [Job.getNumberOfRanks, Job.getNumberOfRanks, Job.removeI, List.length_append,
    List.length_take, List.length_drop]
  omega

theorem getNumberOfRanks_chooseTurn_le (jm : JobMap j) (c : List Rank) (k : Fin j) (idx : Fin 2)
    (i : Fin j) :
    ((chooseTurn k idx (jm, c)).1.jMap i).getNumberOfRanks ≤ (jm.jMap i).getNumberOfRanks := by
  rw [chooseTurn]
  split
  next => exact le_rfl
  next =>
    exact forall_modifyJob (f := fun job ↦ { job.removeI idx with modified := 1 })
      (P := fun i job ↦ job.getNumberOfRanks ≤ (jm.jMap i).getNumberOfRanks) (fun _ ↦ le_rfl)
      (getNumberOfRanks_removeI_le _ _) i

theorem two_le_chooseTurn (htwo : ∀ i, 2 ≤ (jm.jMap i).getNumberOfRanks)
    (hthree : 3 ≤ (jm.jMap k).getNumberOfRanks) :
    (chooseTurn k 0 (jm, c)).2.length = c.length + 1 ∧
      ∀ i, 2 ≤ ((chooseTurn k 0 (jm, c)).1.jMap i).getNumberOfRanks := by
  rw [chooseTurn, if_neg (by omega : ¬(jm.jMap k).getNumberOfRanks = 1)]
  refine ⟨by rw [List.length_append, List.length_singleton], fun i ↦ ?_⟩
  refine forall_modifyJob (f := fun job ↦ { job.removeI 0 with modified := 1 })
    (P := fun _ job ↦ 2 ≤ job.getNumberOfRanks) htwo ?_ i
  rw [Job.getNumberOfRanks] at hthree
  have hpos : 0 < (jm.jMap k).rankList.length := by omega
  have hlen := Job.length_removeI hpos
  change 2 ≤ ((jm.jMap k).removeI 0).rankList.length
  omega

theorem le_two_of_two_le (htwo : ∀ i, 2 ≤ (jm.jMap i).getNumberOfRanks)
    (htotal : jm.countTotalRanks ≤ 2 * j) (k : Fin j) : (jm.jMap k).getNumberOfRanks ≤ 2 := by
  by_contra hk
  have hlt : ∑ _i : Fin j, 2 < jm.countTotalRanks :=
    Finset.sum_lt_sum (fun i _ ↦ htwo i) ⟨k, Finset.mem_univ k, not_le.mp hk⟩
  rw [Finset.sum_const, Finset.card_univ, Fintype.card_fin, smul_eq_mul] at hlt
  omega

end JobMap

/-- `Choose` takes out at most one rank a turn. -/
def WithinTurns (s : State j) : Prop :=
  (∀ i c, s.pc = .choosing i c → c.length ≤ i ∧ i ≤ j / 2) ∧
    ∀ newList a, s.pc = .assigning newList a → newList.length ≤ j / 2

theorem Reachable.withinTurns [NeZero j] {r : ℕ} {n : ℤ} {s : State j} (h : Reachable j r n s) :
    WithinTurns s := by
  induction h with
  | refl =>
    refine ⟨fun i c hpc ↦ ?_, by simp [State.initial]⟩
    obtain ⟨rfl, rfl⟩ := Pc.choosing.inj hpc
    exact ⟨le_rfl, Nat.zero_le _⟩
  | tail _ hstep ih =>
    obtain ⟨hchoosing, hassigning⟩ := ih
    cases hstep with
    | @choose jm i c file hi hc k idx =>
      refine ⟨fun i' c' hpc ↦ ?_, by simp⟩
      obtain ⟨rfl, rfl⟩ := Pc.choosing.inj hpc
      have hlen := JobMap.length_chooseTurn_le jm c k idx
      have hle := hchoosing i c rfl
      omega
    | @chooseReturn jm i c file hret =>
      refine ⟨by simp, fun newList a hpc ↦ ?_⟩
      obtain ⟨rfl, -⟩ := Pc.assigning.inj hpc
      exact (hchoosing i _ rfl).1.trans (hchoosing i _ rfl).2
    | @assign jm newList a file ha k =>
      refine ⟨by simp, fun newList' a' hpc ↦ ?_⟩
      obtain ⟨rfl, -⟩ := Pc.assigning.inj hpc
      exact hassigning _ a rfl
    | assignReturn => exact ⟨by simp, by simp⟩
    | writeToFile => exact ⟨by simp, by simp⟩
    | resetModified => exact ⟨by simp, by simp⟩
    | initStackData =>
      refine ⟨fun i c hpc ↦ ?_, by simp⟩
      obtain ⟨rfl, rfl⟩ := Pc.choosing.inj hpc
      exact ⟨le_rfl, Nat.zero_le _⟩

/-! ## Jobs of at most two -/

theorem JobMap.getNumberOfRanks_initStackData (jm : JobMap j) (records : List StackAddrRepIdx)
    (onlyRepIDx : Bool) (k : Fin j) :
    ((jm.initStackData records onlyRepIDx).jMap k).getNumberOfRanks
      = (jm.jMap k).getNumberOfRanks := by
  rw [← length_ranks, ranks_initStackData, length_ranks]

/-- `Assign` fills no job beyond two. -/
theorem JobMap.assignTurn_le_two {jm : JobMap j} {newList : List Rank} {a : ℕ}
    (htwo : ∀ i, (jm.jMap i).getNumberOfRanks ≤ 2) (k i : Fin j) :
    ((assignTurn newList k (jm, a)).1.jMap i).getNumberOfRanks ≤ 2 := by
  by_cases htakes : jm.Takes k (newList.getD a default)
  · rw [assignTurn_of_takes htakes]
    by_cases hi : i = k
    · subst hi
      have hle := htwo i
      have hne := htakes.1
      rw [getNumberOfRanks_place_self]
      omega
    · rw [jMap_place_of_ne hi]
      exact htwo i
  · rw [assignTurn_of_not_takes htakes]
    exact htwo i

/-- **Two for each job are never exceeded.** -/
theorem Reachable.le_two [NeZero j] {r : ℕ} (hr : r ≤ 2 * j) {n : ℤ} {s : State j}
    (h : Reachable j r n s) (k : Fin j) : (s.jm.jMap k).getNumberOfRanks ≤ 2 := by
  induction h generalizing k with
  | refl => exact JobMap.initJobMap_le_two hr k
  | tail _ hstep ih =>
    cases hstep with
    | @choose jm _ c _ _ _ i idx =>
      exact (JobMap.getNumberOfRanks_chooseTurn_le jm c i idx k).trans (ih k)
    | chooseReturn => exact ih k
    | assign _ i => exact JobMap.assignTurn_le_two ih i k
    | assignReturn => exact ih k
    | writeToFile => exact ih k
    | resetModified => exact ih k
    | initStackData => exact (JobMap.getNumberOfRanks_initStackData _ _ _ k).trans_le (ih k)

/-- What is written has three ranks in some job exactly if there are too many ranks. -/
theorem Reachable.written_le_two_iff [NeZero j] {r : ℕ} (hjr : j ≤ r) {n : ℤ} {s : State j}
    (h : Reachable j r n s) (hpc : s.pc = .writing) :
    (∀ k, (s.jm.jMap k).getNumberOfRanks ≤ 2) ↔ r ≤ 2 * j := by
  refine ⟨fun htwo ↦ ?_, fun hr ↦ h.le_two hr⟩
  have htotal : s.jm.countTotalRanks = r := by
    simpa [hpc, Pc.pending] using (h.invariant hjr).countTotalRanks_add
  by_contra hr
  have hmany : 2 * j < s.jm.countTotalRanks := by omega
  obtain ⟨k, hk⟩ := JobMap.exists_three hmany
  exact absurd (htwo k) (not_le.mpr hk)

/-! ## Reaching the write -/

theorem LevelRun.of_run {n : ℤ} {s s' : State j} (h : Step n s s') (hpc : s.pc ≠ .loading) :
    LevelRun n s s' := .single ⟨h, fun hload ↦ absurd hload hpc⟩

/-- The manager can get to its next `WriteToFile`. -/
def Writes (n : ℤ) (s : State j) : Prop := ∃ s', LevelRun n s s' ∧ s'.pc = .writing

theorem Writes.head {n : ℤ} {s s' : State j} (h : LevelRun n s s') (hs' : Writes n s') :
    Writes n s := by
  obtain ⟨s'', hrun, hpc⟩ := hs'
  exact ⟨s'', h.trans hrun, hpc⟩

/-- **From an `Assign` with room** the list gets placed, rank after rank. -/
theorem writes_of_room {n : ℤ} {newList : List Rank} {file : Option (List ℤ)} {jm : JobMap j}
    {a : ℕ} (hready : jm.Ready newList) (hroom : jm.Room (newList.drop a)) :
    Writes n ⟨jm, .assigning newList a, file⟩ := by
  obtain ⟨m, hm⟩ : ∃ m, newList.length - a = m := ⟨_, rfl⟩
  induction m generalizing jm a with
  | zero => exact ⟨_, .of_run (.assignReturn (by omega)) (by simp), rfl⟩
  | succ m ih =>
    have ha : a < newList.length := by omega
    obtain ⟨k, hk⟩ := JobMap.advances_of_room hready hroom ha
    obtain ⟨hready', hroom'⟩ := JobMap.room_assignTurn hready ha k
    have hturn := JobMap.assignTurn_of_takes hk
    rw [hturn] at hready' hroom'
    have hstep : LevelRun n ⟨jm, .assigning newList a, file⟩
        ⟨(JobMap.assignTurn newList k (jm, a)).1,
          .assigning newList (JobMap.assignTurn newList k (jm, a)).2, file⟩ :=
      .of_run (.assign ha k) (by simp)
    rw [hturn] at hstep
    exact Writes.head hstep (ih hready' (hroom'.mpr hroom) (by omega))

theorem exists_chooseReturn [NeZero j] (n : ℤ) (file : Option (List ℤ)) (jm : JobMap j) (i : ℕ)
    (c : List Rank) :
    ∃ jm' c', LevelRun n ⟨jm, .choosing i c, file⟩ ⟨jm', .assigning c' 0, file⟩ ∧
      ∀ k, (jm'.jMap k).getNumberOfRanks ≤ (jm.jMap k).getNumberOfRanks := by
  obtain ⟨m, hm⟩ : ∃ m, j / 2 - i = m := ⟨_, rfl⟩
  induction m generalizing jm i c with
  | zero => exact ⟨jm, c, .of_run (.chooseReturn (by omega)) (by simp), fun _ ↦ le_rfl⟩
  | succ m ih =>
    by_cases hc : (c.length : ℤ) < n
    · obtain ⟨jm', c', hrun, hle⟩ := ih (JobMap.chooseTurn (0 : Fin j) 0 (jm, c)).1 (i + 1)
        (JobMap.chooseTurn (0 : Fin j) 0 (jm, c)).2 (by omega)
      have hi : i < j / 2 := by omega
      exact ⟨jm', c', (LevelRun.of_run (.choose hi hc 0 0) (by simp)).trans hrun, fun k ↦
        (hle k).trans (JobMap.getNumberOfRanks_chooseTurn_le jm c 0 0 k)⟩
    · exact ⟨jm, c, .of_run (.chooseReturn fun h ↦ hc h.2) (by simp), fun _ ↦ le_rfl⟩

/-- Where every list finds room, every state leads to a write. -/
theorem writes_of_forall_room [NeZero j] {r : ℕ} (hjr : j ≤ r) {n : ℤ}
    (hroom : ∀ jm newList a file, LevelRun n (State.initial j r) ⟨jm, .assigning newList a, file⟩ →
      jm.Room (newList.drop a))
    {s : State j} (hs : LevelRun n (State.initial j r) s) : Writes n s := by
  have hassigning : ∀ {jm newList a file},
      LevelRun n (State.initial j r) ⟨jm, .assigning newList a, file⟩ →
        Writes n ⟨jm, .assigning newList a, file⟩ := fun h ↦
    writes_of_room ((h.sound hjr).1.ready hjr) (hroom _ _ _ _ h)
  have hchoosing : ∀ {jm i c file}, LevelRun n (State.initial j r) ⟨jm, .choosing i c, file⟩ →
      Writes n ⟨jm, .choosing i c, file⟩ := by
    intro jm i c file h
    obtain ⟨jm', c', hrun, -⟩ := exists_chooseReturn n file jm i c
    exact Writes.head hrun (hassigning (h.trans hrun))
  have hloading : ∀ {jm file}, LevelRun n (State.initial j r) ⟨jm, .loading, file⟩ →
      Writes n ⟨jm, .loading, file⟩ := by
    intro jm file h
    -- an empty file gives every rank the address zero
    have hload : LevelRun n ⟨jm, .loading, file⟩
        ⟨jm.initStackData [] false, .choosing 0 [], file⟩ :=
      .single ⟨.initStackData [] false, fun _ ↦ ⟨0, by simp [JobMap.initStackData, stackMappings]⟩⟩
    exact Writes.head hload (hchoosing (h.trans hload))
  obtain ⟨jm, pc, file⟩ := s
  cases pc with
  | choosing i c => exact hchoosing hs
  | assigning newList a => exact hassigning hs
  | writing => exact ⟨_, .refl, rfl⟩
  | resetting =>
    have hreset : LevelRun n ⟨jm, .resetting, file⟩ ⟨jm.resetModified, .loading, file⟩ :=
      .of_run .resetModified (by simp)
    exact Writes.head hreset (hloading (hs.trans hreset))
  | loading => exact hloading hs

/-! ## Getting stuck -/

/-- Drawing the jobs of three, `Choose` takes out a rank each turn and leaves two in every job. -/
theorem exists_thirds_chosen [NeZero j] {r : ℕ} (hr : 2 * j ≤ r) {n : ℤ} {m : ℕ}
    (hm : m ≤ r - 2 * j) (hj : m ≤ j / 2) (hn : (m : ℤ) ≤ n) :
    ∃ jm c, LevelRun n (State.initial j r) ⟨jm, .choosing m c, none⟩ ∧ c.length = m ∧
      ∀ k, 2 ≤ (jm.jMap k).getNumberOfRanks := by
  induction m with
  | zero => exact ⟨_, [], .refl, rfl, JobMap.two_le_initJobMap hr⟩
  | succ m ih =>
    obtain ⟨jm, c, hrun, hc, htwo⟩ := ih (by omega) (by omega) (by omega)
    have hinv := (hrun.sound (by omega)).1.invariant (by omega)
    have htotal : jm.countTotalRanks + m = r := by
      simpa [Pc.pending, hc] using hinv.countTotalRanks_add
    have hmany : 2 * j < jm.countTotalRanks := by omega
    obtain ⟨k, hk⟩ := JobMap.exists_three hmany
    obtain ⟨hlen, htwo'⟩ := JobMap.two_le_chooseTurn (c := c) htwo hk
    have hturn : LevelRun n ⟨jm, .choosing m c, none⟩
        ⟨(JobMap.chooseTurn k 0 (jm, c)).1, .choosing (m + 1) (JobMap.chooseTurn k 0 (jm, c)).2,
          none⟩ := .of_run (.choose (by omega) (by omega) k 0) (by simp)
    exact ⟨_, _, hrun.trans hturn, by rw [hlen, hc], htwo'⟩

theorem LevelRun.of_assignRun {n : ℤ} {newList : List Rank} {file : Option (List ℤ)}
    {t t' : JobMap j × ℕ} (h : JobMap.AssignRun newList t t') :
    LevelRun n ⟨t.1, .assigning newList t.2, file⟩ ⟨t'.1, .assigning newList t'.2, file⟩ := by
  induction h with
  | refl => exact .refl
  | tail _ hturn ih =>
    obtain ⟨ha, k, rfl⟩ := hturn
    exact ih.trans (LevelRun.of_run (.assign ha k) (by simp))

/-- Where no job takes the next rank the draws change nothing any more. -/
theorem eq_of_not_advances {n : ℤ} {newList : List Rank} {jm : JobMap j} {a : ℕ}
    {file : Option (List ℤ)} (h : ¬JobMap.Advances newList (jm, a)) {s : State j}
    (hrun : LevelRun n ⟨jm, .assigning newList a, file⟩ s) :
    s = ⟨jm, .assigning newList a, file⟩ := by
  obtain ⟨ha, hnone⟩ := Classical.not_imp.mp h
  induction hrun with
  | refl => rfl
  | tail _ hstep ih =>
    obtain ⟨hstep, -⟩ := hstep
    subst ih
    cases hstep with
    | assign _ k => rw [JobMap.assignTurn_of_not_takes fun hk ↦ hnone ⟨k, hk⟩]
    | assignReturn hret => exact absurd ha hret

/-- **When the next map can always be written.** In every run of the manager in which all ranks have
one stack address, every state leads to a `WriteToFile`, unless the ranks are more than two for each
job and `Choose` may take out as many as there are beyond that. -/
theorem write_reachable_iff [NeZero j] {r : ℕ} (hjr : j ≤ r) (n : ℤ) :
    (∀ s, LevelRun n (State.initial j r) s → ∃ s', LevelRun n s s' ∧ s'.pc = .writing) ↔
      r ≤ 2 * j ∨ 2 * j + min n.toNat (j / 2) < r := by
  constructor
  · intro hwrites
    by_contra hbad
    have hr : 2 * j < r := by omega
    -- the draws that leave two ranks in every job and more to place
    obtain ⟨jm, c, hrun, hc, htwo⟩ := exists_thirds_chosen (n := n) hr.le le_rfl (by omega)
      (by omega)
    obtain ⟨jm', c', hreturn, hle⟩ := exists_chooseReturn n none jm (r - 2 * j) c
    have htotal : jm.countTotalRanks + (r - 2 * j) = r := by
      simpa [Pc.pending, hc] using ((hrun.sound hjr).1.invariant hjr).countTotalRanks_add
    have hle' : ∀ k, (jm'.jMap k).getNumberOfRanks ≤ 2 := fun k ↦
      (hle k).trans (JobMap.le_two_of_two_le htwo (by omega) k)
    have hchosen : LevelRun n (State.initial j r) ⟨jm', .assigning c' 0, none⟩ :=
      hrun.trans hreturn
    obtain ⟨hreach, add, hall⟩ := hchosen.sound hjr
    have htotal' : jm'.countTotalRanks + c'.length = r := by
      simpa [Pc.pending] using (hreach.invariant hjr).countTotalRanks_add
    have hready : jm'.Ready c' := hreach.ready hjr
    have hnoroom : ¬jm'.Room c' := by
      have hlist : ∀ x ∈ c', x.stackAdd = add := hall.list
      rw [JobMap.room_iff_sizes hready.nonempty hall.jobs hlist]
      rintro (⟨k, hk⟩ | hsum)
      · exact absurd (hle' k) (by omega)
      · omega
    obtain ⟨t, ht⟩ := not_forall.mp fun h ↦
      hnoroom ((JobMap.forall_advances_iff (a := 0) hready).mp h)
    obtain ⟨hassign, hstuck⟩ := Classical.not_imp.mp ht
    obtain ⟨s', hs', hpc⟩ := hwrites _ (hchosen.trans (LevelRun.of_assignRun hassign))
    rw [eq_of_not_advances hstuck hs'] at hpc
    simp at hpc
  · intro hgood s hs
    refine writes_of_forall_room hjr (fun jm newList a file h ↦ ?_) hs
    obtain ⟨hreach, add, hall⟩ := h.sound hjr
    have hinv := hreach.invariant hjr
    have htotal : jm.countTotalRanks + (newList.drop a).length = r := by
      simpa [Pc.pending] using hinv.countTotalRanks_add
    have hlist : ∀ x ∈ newList.drop a, x.stackAdd = add := fun x hx ↦
      hall.list x (List.mem_of_mem_drop hx)
    have hne : ∀ k, (jm.jMap k).rankList ≠ [] := hinv.nonempty
    refine (JobMap.room_iff_sizes hne hall.jobs hlist).mpr ?_
    rcases hgood with hr | hr
    · exact Or.inr (by omega)
    · -- what has been chosen is fewer than the ranks beyond two for each job
      have hn := hinv.returned newList a rfl
      have hj := (hreach.withinTurns).2 newList a rfl
      rw [List.length_drop] at htotal
      have hmany : 2 * j < jm.countTotalRanks := by omega
      exact Or.inl (JobMap.exists_three hmany)

/-- Two jobs, five ranks: the run in which `Choose` takes out the third rank of job `0`. -/
theorem not_write_reachable_five_ranks :
    ¬∀ s : State 2, LevelRun 3 (State.initial 2 5) s → ∃ s', LevelRun 3 s s' ∧ s'.pc = .writing :=
  fun h ↦ absurd ((write_reachable_iff (by decide) 3).mp h) (by decide)

end EntangledMPI.Manager
