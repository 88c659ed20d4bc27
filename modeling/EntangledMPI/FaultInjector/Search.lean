import EntangledMPI.FaultInjector.Selector
import Mathlib.Data.Set.Card

/-!
# Whether `getNew` can end

A turn of `getNew` goes on with the same `cnt` if the place it draws has no rank, or if the other
rank of the job is not there or has been selected. Only a rank that has been selected itself brings
the loop closer to its error. So the loop can end exactly when some place passes the first two
tests. With different ranks in the map what has been selected does not matter for this: a job that
lost one of its two ranks passes them with the place of that rank.

## Main result

`Reachable.returns_iff`: when a call of `getNew` can end in a reachable state, and for a map with
different ranks when it can in all of them.
-/

namespace EntangledMPI.FaultInjector

/-! ## Ending a call -/

/-- `len(RepMap)`. -/
noncomputable def RepMap.len (m : RepMap) : ℕ := {id | (m id).isSome}.ncard

/-- `Int32n(len(RepMap))` can draw the job. -/
def Draw.InRange (d : Draw) (m : RepMap) : Prop := d.randomJob < m.len

namespace Selector

/-- Some sequence of draws ends `getNew` with a rank or an error. -/
inductive Returns (s : Selector) : ℕ → Prop
  | error {cnt : ℕ} {d : Draw} (hd : d.InRange s.repMap) (h : s.getNewTurn cnt d = .ok .error) :
      Returns s cnt
  | found {cnt : ℕ} {d : Draw} {q : QueuedProcesses} (hd : d.InRange s.repMap)
      (h : s.getNewTurn cnt d = .ok (.found q)) : Returns s cnt
  | again {cnt cnt' : ℕ} {d : Draw} (hd : d.InRange s.repMap)
      (h : s.getNewTurn cnt d = .ok (.again cnt')) (hrest : Returns s cnt') : Returns s cnt

/-- Some draw does not leave the loop where it is. -/
def Moves (s : Selector) (cnt : ℕ) : Prop :=
  ∃ d e, d.InRange s.repMap ∧ s.getNewTurn cnt d = .ok e ∧ e ≠ .again cnt

end Selector

/-- The options let a turn look at the place. -/
def Allowed (opts : Option SelectorOpts) (i : Fin 2) : Prop :=
  match opts with
  | none => i = compute
  | some opts => opts.imageToKill = killAny ∨
      i = if opts.imageToKill = killReplica then replica else compute

/-- A place with a rank that may be killed while its job is whole. -/
def RepMap.HasTarget (m : RepMap) (opts : Option SelectorOpts) : Prop :=
  ∃ id : ℕ, id < m.len ∧ ∃ job, m id = some job ∧ ∃ i, Allowed opts i ∧ 0 ≤ job.cr i ∧
    ((∃ o ∈ opts, o.killEvenIfNotReplicated = true) ∨ job.cr i.rev ≠ -1)

/-- A place with a rank that may be killed, or that has been selected. -/
def Selector.HasTarget (s : Selector) : Prop :=
  ∃ id : ℕ, id < s.repMap.len ∧ ∃ job, s.repMap id = some job ∧ ∃ i, Allowed s.opts i ∧
    0 ≤ job.cr i ∧ (s.killEvenIfNotReplicated = true ∨
      job.cr i.rev ≠ -1 ∧ s.rankQueued (job.cr i.rev) = false)

/-! ## One turn -/

namespace Selector

variable {s : Selector} {cnt : ℕ}

theorem allowed_randomRankIndex (s : Selector) (d : Draw) :
    Allowed s.opts (s.randomRankIndex d) := by
  unfold Allowed randomRankIndex
  cases s.opts with
  | none => rfl
  | some o =>
    dsimp only
    split
    · exact Or.inl ‹_›
    · exact Or.inr rfl

theorem exists_randomRankIndex {i : Fin 2} (h : Allowed s.opts i) (id : ℕ) (interval : ℤ) :
    ∃ k, s.randomRankIndex ⟨id, k, interval⟩ = i := by
  refine ⟨i, ?_⟩
  unfold Allowed at h
  rw [randomRankIndex]
  cases hopts : s.opts with
  | none =>
    rw [hopts] at h
    exact h.symm
  | some o =>
    rw [hopts] at h
    dsimp only at h ⊢
    by_cases hany : o.imageToKill = killAny
    · rw [if_pos hany]
    · rw [if_neg hany]
      exact (h.resolve_left hany).symm

theorem getNewTurn_target (h : s.HasTarget) :
    ∃ d rank, d.InRange s.repMap ∧ ∀ cnt, s.getNewTurn cnt d =
      if s.rankQueued rank then .ok (if cnt = 5 then .error else .again (cnt + 1))
      else .ok (.found ⟨rank, second * d.interval⟩) := by
  obtain ⟨id, hid, job, hjob, i, hi, hrank, hother⟩ := h
  obtain ⟨k, hk⟩ := exists_randomRankIndex hi id 0
  refine ⟨⟨id, k, 0⟩, job.cr i, hid, fun cnt ↦ ?_⟩
  have htest : ¬(!s.killEvenIfNotReplicated && (decide (job.cr i.rev = -1)
      || s.rankQueued (job.cr i.rev))) = true := by
    rcases hother with hkill | ⟨hpresent, hfree⟩
    · simp [hkill]
    · simp [hpresent, hfree]
  rw [getNewTurn, hjob]
  dsimp only
  rw [hk, if_neg (not_lt.mpr hrank), if_neg htest]
  split
  · split <;> rfl
  · rfl

theorem hasTarget_of_getNewTurn {d : Draw} {e : TurnEnd} (hd : d.InRange s.repMap)
    (h : s.getNewTurn cnt d = .ok e) (he : e ≠ .again cnt) : s.HasTarget := by
  rw [getNewTurn] at h
  split at h
  next => exact absurd h (by simp)
  next job hjob =>
    dsimp only at h
    split at h
    · exact absurd (Except.ok.inj h).symm he
    next hrank =>
    split at h
    · exact absurd (Except.ok.inj h).symm he
    next hother =>
    refine ⟨d.randomJob, hd, job, hjob, s.randomRankIndex d, s.allowed_randomRankIndex d,
      not_lt.mp hrank, ?_⟩
    cases hkill : s.killEvenIfNotReplicated with
    | true => exact Or.inl rfl
    | false => exact Or.inr (by simpa [hkill] using hother)

theorem moves_iff : s.Moves cnt ↔ s.HasTarget := by
  constructor
  · rintro ⟨d, e, hd, h, he⟩
    exact hasTarget_of_getNewTurn hd h he
  · intro h
    obtain ⟨d, rank, hd, hturn⟩ := getNewTurn_target h
    have hturn := hturn cnt
    split at hturn
    · refine ⟨d, _, hd, hturn, ?_⟩
      split <;> simp
    · exact ⟨d, _, hd, hturn, by simp⟩

theorem Returns.hasTarget (h : s.Returns cnt) : s.HasTarget := by
  induction h with
  | error hd h => exact hasTarget_of_getNewTurn hd h (by simp)
  | found hd h => exact hasTarget_of_getNewTurn hd h (by simp)
  | again _ _ _ ih => exact ih

theorem HasTarget.returns (h : s.HasTarget) (hcnt : cnt ≤ 5) : s.Returns cnt := by
  obtain ⟨d, rank, hd, hturn⟩ := getNewTurn_target h
  obtain ⟨m, hm⟩ : ∃ m, 5 - cnt = m := ⟨_, rfl⟩
  induction m generalizing cnt with
  | zero =>
    obtain rfl : cnt = 5 := by omega
    have hturn := hturn 5
    split at hturn
    · exact .error hd hturn
    · exact .found hd hturn
  | succ m ih =>
    have hne : cnt ≠ 5 := by omega
    have hturn := hturn cnt
    rw [if_neg hne] at hturn
    split at hturn
    · exact .again hd hturn (ih (by omega) (by omega))
    · exact .found hd hturn

theorem getNewTurn_eq_again {d : Draw} {cnt' : ℕ} (h : s.getNewTurn cnt d = .ok (.again cnt')) :
    cnt' = cnt ∨ cnt ≠ 5 ∧ cnt' = cnt + 1 := by
  rw [getNewTurn] at h
  split at h
  next => exact absurd h (by simp)
  next =>
    dsimp only at h
    split at h
    · exact Or.inl (TurnEnd.again.inj (Except.ok.inj h)).symm
    split at h
    · exact Or.inl (TurnEnd.again.inj (Except.ok.inj h)).symm
    split at h
    · split at h
      · exact absurd h (by simp)
      next hcnt => exact Or.inr ⟨hcnt, (TurnEnd.again.inj (Except.ok.inj h)).symm⟩
    · exact absurd h (by simp)

theorem place_of_getNewTurn {d : Draw} {q : QueuedProcesses}
    (h : s.getNewTurn cnt d = .ok (.found q)) :
    ∃ job, s.repMap d.randomJob = some job ∧ job.cr (s.randomRankIndex d) = q.rank ∧
      0 ≤ q.rank := by
  rw [getNewTurn] at h
  split at h
  next => exact absurd h (by simp)
  next job hjob =>
    dsimp only at h
    split at h
    · exact absurd h (by simp)
    next hrank =>
    split at h
    · exact absurd h (by simp)
    split at h
    · split at h <;> exact absurd h (by simp)
    obtain rfl := TurnEnd.found.inj (Except.ok.inj h)
    exact ⟨job, hjob, rfl, not_lt.mp hrank⟩

end Selector

/-! ## Over all calls -/

variable {m : RepMap} {intervals : ℤ} {opts : Option SelectorOpts} {s : State}

/-- What else holds between two turns. -/
structure SearchInvariant (m : RepMap) (opts : Option SelectorOpts) (s : State) : Prop where
  cnt : ∀ cnt calls, s.pc = .searching cnt calls → cnt ≤ 5
  allowed : ∀ q ∈ s.selected, ∃ id job i, m id = some job ∧ job.cr i = q.rank ∧ 0 ≤ q.rank ∧
    Allowed opts i

theorem Pc.cnt_ofCalls {calls cnt calls' : ℕ} (h : Pc.ofCalls calls = .searching cnt calls') :
    cnt ≤ 5 := by
  cases calls with
  | zero => exact absurd h (by simp [Pc.ofCalls])
  | succ calls =>
    obtain ⟨rfl, -⟩ := Pc.searching.inj h
    exact Nat.zero_le _

theorem Reachable.searchInvariant (h : Reachable m intervals opts s) :
    s.selector.repMap = m ∧ s.selector.opts = opts ∧ SearchInvariant m opts s := by
  induction h with
  | refl => exact ⟨rfl, rfl, by simp [newSelector], by simp [newSelector]⟩
  | tail _ hstep ih =>
    obtain ⟨hmap, hopts, hcnt, hallowed⟩ := ih
    cases hstep with
    | next hpc => exact ⟨hmap, hopts, fun _ _ h ↦ @Pc.cnt_ofCalls 1 _ _ h, hallowed⟩
    | nextN hpc n => exact ⟨hmap, hopts, fun _ _ h ↦ Pc.cnt_ofCalls h, hallowed⟩
    | @turn cnt calls hpc d e hturn =>
      cases e with
      | again cnt' =>
        refine ⟨hmap, hopts, fun cnt₁ calls₁ hpc₁ ↦ ?_, hallowed⟩
        obtain ⟨rfl, -⟩ := Pc.searching.inj hpc₁
        have hle := hcnt cnt calls hpc
        rcases Selector.getNewTurn_eq_again hturn with rfl | ⟨hne, rfl⟩ <;> omega
      | error => exact ⟨hmap, hopts, fun _ _ h ↦ Pc.cnt_ofCalls h, hallowed⟩
      | found q =>
        refine ⟨hmap, hopts, fun _ _ h ↦ Pc.cnt_ofCalls h, fun q' hq' ↦ ?_⟩
        rcases List.mem_append.mp hq' with hq' | hq'
        · exact hallowed q' hq'
        · obtain rfl := List.mem_singleton.mp hq'
          obtain ⟨job, hjob, hrank, hnonneg⟩ := Selector.place_of_getNewTurn hturn
          exact ⟨_, job, _, hmap ▸ hjob, hrank, hnonneg,
            hopts ▸ Selector.allowed_randomRankIndex _ d⟩

/-- With different ranks, what has been selected does not matter. -/
theorem Reachable.hasTarget_iff (h : Reachable m intervals opts s) (hm : m.Distinct) :
    s.selector.HasTarget ↔ m.HasTarget opts := by
  obtain ⟨hmap, hopts, hsearch⟩ := h.searchInvariant
  have hinv := h.invariant hm
  have hkill : s.selector.killEvenIfNotReplicated = true ↔
      ∃ o ∈ opts, o.killEvenIfNotReplicated = true := by
    rw [Selector.killEvenIfNotReplicated, hopts]
    cases opts <;> simp
  rw [Selector.HasTarget, RepMap.HasTarget, hmap, hopts, hkill]
  constructor
  · rintro ⟨id, hid, job, hjob, i, hi, hrank, hother⟩
    exact ⟨id, hid, job, hjob, i, hi, hrank, hother.imp_right And.left⟩
  · rintro ⟨id, hid, job, hjob, i, hi, hrank, hother | hpresent⟩
    · exact ⟨id, hid, job, hjob, i, hi, hrank, Or.inl hother⟩
    by_cases hall : s.selector.killEvenIfNotReplicated = true
    · exact ⟨id, hid, job, hjob, i, hi, hrank, Or.inl (hkill.mp hall)⟩
    by_cases hfree : s.selector.rankQueued (job.cr i.rev) = false
    · exact ⟨id, hid, job, hjob, i, hi, hrank, Or.inr ⟨hpresent, hfree⟩⟩
    -- the other rank has been selected, and then its own place is a target
    obtain ⟨q, hq, hqrank⟩ := (hinv.queued _).mp (Bool.eq_true_of_not_eq_false hfree)
    have hnonneg := (hm.places id job hjob i.rev).resolve_left hpresent
    obtain ⟨id', job', i', hjob', hrank', -, hallowed⟩ := hsearch.allowed q hq
    obtain ⟨rfl, rfl⟩ := hm.distinct _ _ _ _ _ _ hjob hjob' hnonneg (hqrank.symm.trans hrank'.symm)
    obtain ⟨id₂, job₂, i₂, hjob₂, hrank₂, -, -, hfree₂⟩ :=
      hinv.other (Bool.eq_false_of_not_eq_true hall) q hq
    obtain ⟨rfl, rfl⟩ := hm.distinct _ _ _ _ _ _ hjob hjob₂ hnonneg (hqrank.symm.trans hrank₂.symm)
    obtain rfl := Option.some_inj.mp (hjob.symm.trans hjob₂)
    rw [Fin.rev_rev] at hfree₂
    refine ⟨id, hid, job, hjob, i.rev, hallowed, hnonneg, Or.inr ?_⟩
    rw [Fin.rev_rev]
    exact ⟨fun hnone ↦ absurd (hnone ▸ hrank) (by decide), hfree₂⟩

/-- **When `getNew` can end.** In a state of a call that any earlier calls have led to, some draws
end the call, and some draw does not leave the loop where it is, exactly when there is a place whose
rank may be killed or has been selected. For a map with different ranks this is so in every such
state, or in none. -/
theorem Reachable.returns_iff (h : Reachable m intervals opts s) {cnt calls : ℕ}
    (hpc : s.pc = .searching cnt calls) :
    ((s.selector.Returns cnt ∧ s.selector.Moves cnt) ↔ s.selector.HasTarget) ∧
      (m.Distinct →
        ((s.selector.Returns cnt ∧ s.selector.Moves cnt) ↔ m.HasTarget opts)) := by
  have hcnt := h.searchInvariant.2.2.cnt cnt calls hpc
  have hiff : (s.selector.Returns cnt ∧ s.selector.Moves cnt) ↔ s.selector.HasTarget :=
    ⟨fun hboth ↦ hboth.1.hasTarget,
      fun htarget ↦ ⟨htarget.returns hcnt, Selector.moves_iff.mpr htarget⟩⟩
  exact ⟨hiff, fun hm ↦ hiff.trans (h.hasTarget_iff hm)⟩

theorem initReplicationMap_one (jm : Manager.JobMap 1) (hjm : (jm.jMap 0).ranks.length ≤ 2) :
    ∃ m, initReplicationMap jm.mapText.text = .ok m ∧ m.len = 1 ∧
      ∀ id, m id = if id = 0 then some (.ofRanks ((jm.jMap 0).ranks.map Nat.cast)) else none := by
  have htext := initReplicationMap_text jm.mapText
  have hrows : ∀ row ∈ jm.mapText.rows, row.workers.length ≤ 2 := by
    intro row hrow
    obtain ⟨k, -, rfl⟩ := List.mem_map.mp hrow
    rw [Subsingleton.elim k 0]
    simpa using hjm
  rw [if_pos hrows] at htext
  obtain ⟨m, hm, hrecorded⟩ := htext
  have hid : ∀ id, m id = if id = 0 then some (.ofRanks ((jm.jMap 0).ranks.map Nat.cast))
      else none := by
    intro id
    rw [hrecorded, Manager.JobMap.mapText]
    dsimp only
    rw [List.finRange_succ]
    by_cases h : id = 0
    · subst h
      simp [Function.comp_def]
    · simp [h, Ne.symm h]
  refine ⟨m, hm, ?_, hid⟩
  have hkeys : {id | (m id).isSome} = {(0 : ℤ)} := by
    ext id
    rw [Set.mem_ofPred_eq, hid, Set.mem_singleton_iff]
    split <;> simp [*]
  rw [RepMap.len, hkeys, Set.ncard_singleton]

/-- The first call with the first map of `manager -j 1 -r 2`. -/
theorem Reachable.returns_first : ∃ m s,
    initReplicationMap (Manager.JobMap.initJobMap 1 2).mapText.text = .ok m ∧
      Reachable m 1 none s ∧ s.pc = .searching 0 0 ∧ s.selector.Returns 0 := by
  obtain ⟨m, hm, hlen, hid⟩ := initReplicationMap_one (.initJobMap 1 2) (by decide)
  have hreach : Reachable m 1 none { newSelector m 1 none with pc := .searching 0 0 } :=
    .single (.next rfl)
  refine ⟨m, _, hm, hreach, rfl, ((hreach.returns_iff rfl).1.mpr ?_).1⟩
  exact ⟨0, hlen ▸ Nat.zero_lt_one, _, hid 0, 0, rfl, by decide, Or.inr ⟨by decide, rfl⟩⟩

/-- The first call with the map of `manager -j 1 -r 1`, whose job has no second rank. -/
theorem Reachable.not_returns_single : ∃ m s,
    initReplicationMap (Manager.JobMap.initJobMap 1 1).mapText.text = .ok m ∧ 0 < m.len ∧
      Reachable m 1 none s ∧ s.pc = .searching 0 0 ∧ ¬s.selector.Returns 0 ∧
      ¬s.selector.Moves 0 := by
  obtain ⟨m, hm, hlen, hid⟩ := initReplicationMap_one (.initJobMap 1 1) (by decide)
  have hnot : ¬(newSelector m 1 none).selector.HasTarget := by
    rintro ⟨id, -, job, hjob, i, hi, -, hkill | ⟨hpresent, -⟩⟩
    · exact absurd hkill Bool.false_ne_true
    · have hjob : m id = some job := hjob
      rw [hid] at hjob
      split at hjob
      · obtain rfl := Option.some_inj.mp hjob
        obtain rfl : i = compute := hi
        exact hpresent (by decide)
      · exact absurd hjob (by simp)
  refine ⟨m, { newSelector m 1 none with pc := .searching 0 0 }, hm, hlen ▸ Nat.zero_lt_one,
    .single (.next rfl), rfl, ?_, ?_⟩
  · exact fun h ↦ hnot h.hasTarget
  · exact fun h ↦ hnot (Selector.moves_iff.mp h)

end EntangledMPI.FaultInjector
