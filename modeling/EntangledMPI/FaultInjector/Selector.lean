import EntangledMPI.FaultInjector.ReplicationMap
import Mathlib.Logic.Relation

/-!
# The ranks the fault injector selects

`getNew` draws a job and one of its two places until it finds a rank that may be killed. With
`KillEvenIfNotReplicated` unset, a rank may be killed only while the other rank of its job has not
been selected. Every turn takes its random draws as an argument, and `Step` runs the calls of `Next`
and `NextN` one turn after the other; a search need not end.

## Main result

`Reachable.selected_sound`: no rank is selected twice, and without `KillEvenIfNotReplicated` every
job keeps a rank.
-/

namespace EntangledMPI.FaultInjector

open TextInput

/-! ## `getNew` -/

/-- `KILL_REPLICA` and `KILL_ANY`. -/
def killReplica : ℤ := 1

def killAny : ℤ := 2

/-- The places `0` and `1` of `CR`; the other place of `i`, `1 - i`, is `i.rev`. -/
def compute : Fin 2 := ⟨0, Nat.zero_lt_two⟩

def replica : Fin 2 := ⟨1, Nat.one_lt_two⟩

structure SelectorOpts where
  imageToKill : ℤ
  killEvenIfNotReplicated : Bool

structure QueuedProcesses where
  rank : ℤ
  waitInterval : ℤ

/-- A selector; `opts` is `none` where the pointer is `nil`. -/
structure Selector where
  intervals : ℤ
  repMap : RepMap
  rankQueued : ℤ → Bool
  opts : Option SelectorOpts

/-- What one turn draws: a job, a place in it, and the interval of the distribution. -/
structure Draw where
  randomJob : ℕ
  randomIndex : Fin 2
  interval : ℤ

/-- How a turn of the loop ends: with another one, with an error, or with a rank. -/
inductive TurnEnd
  | again (cnt : ℕ)
  | error
  | found (q : QueuedProcesses)

/-- `time.Second`. -/
def second : ℤ := 1000000000

namespace Selector

def killEvenIfNotReplicated (s : Selector) : Bool :=
  match s.opts with
  | none => false
  | some opts => opts.killEvenIfNotReplicated

def randomRankIndex (s : Selector) (d : Draw) : Fin 2 :=
  match s.opts with
  | none => compute
  | some opts =>
    if opts.imageToKill = killAny then d.randomIndex
    else if opts.imageToKill = killReplica then replica else compute

/-- One turn of the loop of `getNew`. -/
def getNewTurn (s : Selector) (cnt : ℕ) (d : Draw) : Except Panic TurnEnd :=
  match s.repMap d.randomJob with
  | none => .error .nilDereference
  | some job =>
    let randomRank := job.cr (s.randomRankIndex d)
    let otherRank := job.cr (s.randomRankIndex d).rev
    if randomRank < 0 then .ok (.again cnt)
    else if !s.killEvenIfNotReplicated && (otherRank = -1 || s.rankQueued otherRank) then
      .ok (.again cnt)
    else if s.rankQueued randomRank then
      if cnt = 5 then .ok .error else .ok (.again (cnt + 1))
    else .ok (.found ⟨randomRank, second * d.interval⟩)

end Selector

/-! ## `Next` and `NextN` -/

/-- Between two calls, or in the loop of `getNew` with `calls` calls of `Next` to follow. -/
inductive Pc
  | idle
  | searching (cnt calls : ℕ)

/-- A selector, and what its calls have selected so far. -/
structure State where
  selector : Selector
  pc : Pc
  selected : List QueuedProcesses

/-- Go on with the calls of `Next` that are left. -/
def Pc.ofCalls : ℕ → Pc
  | 0 => .idle
  | calls + 1 => .searching 0 calls

/-- The number of calls `NextN` makes. -/
def Selector.iter (s : Selector) (n : ℤ) : ℕ := if n = 0 then s.intervals.toNat else n.toNat

/-- The end of a turn: a rank is queued, and an error of `Next` is passed over by `NextN`. -/
def State.endTurn (s : State) (calls : ℕ) : TurnEnd → State
  | .again cnt => { s with pc := .searching cnt calls }
  | .error => { s with pc := .ofCalls calls }
  | .found q =>
    { selector := { s.selector with
        rankQueued := Function.update s.selector.rankQueued q.rank true }
      pc := .ofCalls calls
      selected := s.selected ++ [q] }

inductive Step : State → State → Prop
  | next {s : State} (hpc : s.pc = .idle) : Step s { s with pc := .ofCalls 1 }
  | nextN {s : State} (hpc : s.pc = .idle) (n : ℤ) :
      Step s { s with pc := .ofCalls (s.selector.iter n) }
  | turn {s : State} {cnt calls : ℕ} (hpc : s.pc = .searching cnt calls) (d : Draw) {e : TurnEnd}
      (hturn : s.selector.getNewTurn cnt d = .ok e) : Step s (s.endTurn calls e)

/-- `NewSelector`, for a map that has been read. -/
def newSelector (repMap : RepMap) (intervals : ℤ) (opts : Option SelectorOpts) : State where
  selector := ⟨intervals, repMap, fun _ ↦ false, opts⟩
  pc := .idle
  selected := []

def Reachable (repMap : RepMap) (intervals : ℤ) (opts : Option SelectorOpts) (s : State) : Prop :=
  Relation.ReflTransGen Step (newSelector repMap intervals opts) s

/-! ## Maps with different ranks -/

/-- Every place holds a rank or `-1`, and no rank is in two places. -/
structure RepMap.Distinct (m : RepMap) : Prop where
  places : ∀ id job, m id = some job → ∀ i, job.cr i = -1 ∨ 0 ≤ job.cr i
  distinct : ∀ id job i id' job' i', m id = some job → m id' = some job' → 0 ≤ job.cr i →
    job.cr i = job'.cr i' → id = id' ∧ i = i'

theorem Job.cr_ofRanks_of_nonneg {ranks : List ℤ} {i : Fin 2} (h : 0 ≤ (Job.ofRanks ranks).cr i) :
    ∃ hi : (i : ℕ) < ranks.length, (Job.ofRanks ranks).cr i = ranks.get ⟨i, hi⟩ := by
  by_cases hi : (i : ℕ) < ranks.length
  · exact ⟨hi, List.getD_eq_getElem _ _ hi⟩
  · have hunused : (Job.ofRanks ranks).cr i = -1 := List.getD_eq_default _ _ (not_lt.mp hi)
    rw [hunused] at h
    exact absurd h (by decide)

theorem exists_row_of_initReplicationMap {t : MapText} {m : RepMap}
    (hm : initReplicationMap t.text = .ok m) {id : ℤ} {job : Job} (hjob : m id = some job) :
    ∃ row ∈ t.rows, row.jobId.value = id ∧ job = .ofRanks (row.workers.map Numeral.value) := by
  have htext := initReplicationMap_text t
  split at htext
  next =>
    obtain ⟨m', hm', hrecorded⟩ := htext
    obtain rfl := Except.ok.inj (hm'.symm.trans hm)
    rw [hrecorded] at hjob
    obtain ⟨row, hrow, rfl⟩ := Option.map_eq_some_iff.mp hjob
    exact ⟨row, List.mem_reverse.mp (List.mem_of_find?_eq_some hrow),
      by simpa using List.find?_some hrow, rfl⟩
  next =>
    rw [htext] at hm
    exact absurd hm (by simp)

/-- The maps read from a text that `parse_map_file` accepts are of this kind. -/
theorem RepMap.distinct_of_accepted {t : MapText} (h : t.Accepted) {m : RepMap}
    (hm : initReplicationMap t.text = .ok m) : m.Distinct := by
  obtain ⟨hrows, hpairwise⟩ := List.nodup_flatMap.mp h.nodup
  constructor
  · intro id job hjob i
    obtain ⟨row, hrow, -, rfl⟩ := exists_row_of_initReplicationMap hm hjob
    by_cases hi : (i : ℕ) < (row.workers.map Numeral.value).length
    · right
      have hget : (Job.ofRanks (row.workers.map Numeral.value)).cr i
          = (row.workers.map Numeral.value).get ⟨i, hi⟩ := List.getD_eq_getElem _ _ hi
      obtain ⟨w, hw, hvalue⟩ := List.mem_map.mp (List.get_mem _ ⟨i, hi⟩)
      rw [hget, ← hvalue]
      exact (h.lt_cores row hrow w hw).1
    · exact Or.inl (List.getD_eq_default _ _ (not_lt.mp hi))
  · intro id job i id' job' i' hjob hjob' hnonneg heq
    obtain ⟨row, hrow, rfl, rfl⟩ := exists_row_of_initReplicationMap hm hjob
    obtain ⟨row', hrow', rfl, rfl⟩ := exists_row_of_initReplicationMap hm hjob'
    obtain ⟨hi, hget⟩ := Job.cr_ofRanks_of_nonneg hnonneg
    obtain ⟨hi', hget'⟩ := Job.cr_ofRanks_of_nonneg (heq ▸ hnonneg)
    rw [hget, hget'] at heq
    -- two places with one rank: in one row no rank stands twice, and two rows share none
    by_cases hrows' : row = row'
    · subst hrows'
      have hinj := List.nodup_iff_injective_get.mp (hrows row hrow)
      exact ⟨rfl, Fin.ext (Fin.mk.inj_iff.mp (hinj heq))⟩
    · have hsymm : Std.Symm (Function.onFun List.Disjoint
          fun row : MapRow ↦ row.workers.map Numeral.value) := ⟨fun _ _ hd ↦ hd.symm⟩
      have hdisjoint := hpairwise.forall hrow hrow' hrows'
      have hmem := List.get_mem _ ⟨i', hi'⟩
      rw [← heq] at hmem
      exact absurd hmem (List.disjoint_left.mp hdisjoint (List.get_mem _ ⟨i, hi⟩))

/-- What the selections of a run are to be. -/
structure Sound (m : RepMap) (opts : Option SelectorOpts) (selected : List QueuedProcesses) :
    Prop where
  /-- No rank is selected twice. -/
  nodup : (selected.map QueuedProcesses.rank).Nodup
  /-- Unless the options allow it, only a rank of a job with two ranks is selected. -/
  replicated : (∀ o ∈ opts, o.killEvenIfNotReplicated = false) → ∀ q ∈ selected, ∃ id job,
    m id = some job ∧ (∀ i, 0 ≤ job.cr i) ∧ ∃ i, job.cr i = q.rank
  /-- And every job keeps one of its ranks. -/
  survivor : (∀ o ∈ opts, o.killEvenIfNotReplicated = false) → ∀ id job, m id = some job →
    (∃ i, 0 ≤ job.cr i) → ∃ i, 0 ≤ job.cr i ∧ ∀ q ∈ selected, q.rank ≠ job.cr i

/-! ## The invariant -/

theorem eq_rev_iff_ne {k i : Fin 2} : k = i.rev ↔ k ≠ i := by
  fin_cases i <;> fin_cases k <;> decide

theorem Selector.getNewTurn_eq_found {s : Selector} {cnt : ℕ} {d : Draw} {q : QueuedProcesses}
    (h : s.getNewTurn cnt d = .ok (.found q)) :
    ∃ id job i, s.repMap id = some job ∧ job.cr i = q.rank ∧ 0 ≤ q.rank ∧
      s.rankQueued q.rank = false ∧ (s.killEvenIfNotReplicated = false →
        job.cr i.rev ≠ -1 ∧ s.rankQueued (job.cr i.rev) = false) := by
  rw [getNewTurn] at h
  split at h
  next => exact absurd h (by simp)
  next job hjob =>
    dsimp only at h
    split at h
    · exact absurd h (by simp)
    next hrank =>
    split at h
    · exact absurd h (by simp)
    next hother =>
    split at h
    · split at h
      · exact absurd h (by simp)
      · exact absurd h (by simp)
    next hqueued =>
    obtain rfl := TurnEnd.found.inj (Except.ok.inj h)
    refine ⟨_, job, s.randomRankIndex d, hjob, rfl, not_lt.mp hrank, by simpa using hqueued, ?_⟩
    intro hkill
    simpa [hkill] using hother

/-- What holds between two turns. -/
structure Invariant (m : RepMap) (opts : Option SelectorOpts) (s : State) : Prop where
  repMap : s.selector.repMap = m
  opts : s.selector.opts = opts
  queued : ∀ r, s.selector.rankQueued r = true ↔ ∃ q ∈ s.selected, q.rank = r
  nodup : (s.selected.map QueuedProcesses.rank).Nodup
  /-- The other rank of the job of a selected one is there, and not selected. -/
  other : s.selector.killEvenIfNotReplicated = false → ∀ q ∈ s.selected, ∃ id job i,
    m id = some job ∧ job.cr i = q.rank ∧ 0 ≤ q.rank ∧ job.cr i.rev ≠ -1 ∧
      s.selector.rankQueued (job.cr i.rev) = false

namespace Invariant

variable {m : RepMap} {opts : Option SelectorOpts} {s s' : State}

theorem newSelector (m : RepMap) (intervals : ℤ) (opts : Option SelectorOpts) :
    Invariant m opts (newSelector m intervals opts) where
  repMap := rfl
  opts := rfl
  queued r := by simp [FaultInjector.newSelector]
  nodup := List.nodup_nil
  other _ q hq := absurd hq List.not_mem_nil

theorem withPc (h : Invariant m opts s) (pc : Pc) : Invariant m opts { s with pc := pc } :=
  ⟨h.repMap, h.opts, h.queued, h.nodup, h.other⟩

/-- **A rank that is found** keeps its distance from those selected before. -/
theorem found (h : Invariant m opts s) (hm : m.Distinct) {cnt calls : ℕ} {d : Draw}
    {q : QueuedProcesses} (hturn : s.selector.getNewTurn cnt d = .ok (.found q)) :
    Invariant m opts (s.endTurn calls (.found q)) := by
  obtain ⟨id, job, i, hjob, hrank, hnonneg, hfree, hother⟩ := Selector.getNewTurn_eq_found hturn
  rw [h.repMap] at hjob
  have hnew : ∀ q' ∈ s.selected, q'.rank ≠ q.rank := by
    intro q' hq' heq
    rw [(h.queued q.rank).mpr ⟨q', hq', heq⟩] at hfree
    exact Bool.false_ne_true hfree.symm
  refine ⟨h.repMap, h.opts, ?_, ?_, ?_⟩
  · intro r
    change Function.update s.selector.rankQueued q.rank true r = true ↔ ∃ q' ∈ s.selected ++ [q], _
    by_cases hr : r = q.rank
    · subst hr
      simp
    · rw [Function.update_of_ne hr, h.queued]
      simp [Ne.symm hr]
  · change ((s.selected ++ [q]).map QueuedProcesses.rank).Nodup
    rw [List.map_append, List.nodup_append]
    refine ⟨h.nodup, List.nodup_singleton _, ?_⟩
    intro r hr r' hr'
    obtain ⟨q', hq', rfl⟩ := List.mem_map.mp hr
    rw [List.mem_singleton.mp hr']
    exact hnew q' hq'
  · intro hkill q' hq'
    change ∃ id job i, _ ∧ _ ∧ _ ∧ _ ∧ Function.update s.selector.rankQueued q.rank true _ = false
    obtain ⟨hpresent, hfreeOther⟩ := hother hkill
    rcases List.mem_append.mp hq' with hq' | hq'
    · obtain ⟨id', job', i', hjob', hrank', hnonneg', hpresent', hfree'⟩ := h.other hkill q' hq'
      refine ⟨id', job', i', hjob', hrank', hnonneg', hpresent', ?_⟩
      -- if the rank found were the other one of that job, its own other one would be selected
      have hne : job'.cr i'.rev ≠ q.rank := by
        intro heq
        obtain ⟨rfl, rfl⟩ := hm.distinct _ _ _ _ _ _ hjob hjob' (hrank ▸ hnonneg)
          (hrank.trans heq.symm)
        obtain rfl := Option.some_inj.mp (hjob.symm.trans hjob')
        rw [Fin.rev_rev, hrank', (h.queued q'.rank).mpr ⟨q', hq', rfl⟩] at hfreeOther
        exact Bool.false_ne_true hfreeOther.symm
      rw [Function.update_of_ne hne, hfree']
    · obtain rfl := List.mem_singleton.mp hq'
      refine ⟨id, job, i, hjob, hrank, hnonneg, hpresent, ?_⟩
      have hne : job.cr i.rev ≠ q'.rank := by
        intro heq
        exact eq_rev_iff_ne.mp rfl (hm.distinct _ _ _ _ _ _ hjob hjob (hrank ▸ hnonneg)
          (hrank.trans heq.symm)).2.symm
      rw [Function.update_of_ne hne, hfreeOther]

/-- **Every step keeps the invariant.** -/
theorem step (h : Invariant m opts s) (hm : m.Distinct) (hstep : Step s s') :
    Invariant m opts s' := by
  cases hstep with
  | next hpc => exact h.withPc _
  | nextN hpc n => exact h.withPc _
  | @turn _ _ _ d e hturn =>
    cases e with
    | again cnt => exact h.withPc _
    | error => exact h.withPc _
    | found q => exact h.found hm hturn

theorem sound (h : Invariant m opts s) (hm : m.Distinct) : Sound m opts s.selected := by
  have hkill : (∀ o ∈ opts, o.killEvenIfNotReplicated = false) →
      s.selector.killEvenIfNotReplicated = false := by
    intro hopts
    rw [Selector.killEvenIfNotReplicated, h.opts]
    cases opts with
    | none => rfl
    | some o => exact hopts o rfl
  refine ⟨h.nodup, ?_, ?_⟩
  · intro hopts q hq
    obtain ⟨id, job, i, hjob, hrank, hnonneg, hpresent, -⟩ := h.other (hkill hopts) q hq
    refine ⟨id, job, hjob, ?_, i, hrank⟩
    intro k
    by_cases hk : k = i
    · rw [hk, hrank]
      exact hnonneg
    · obtain rfl : k = i.rev := eq_rev_iff_ne.mpr hk
      exact (hm.places id job hjob _).resolve_left hpresent
  · rintro hopts id job hjob ⟨i, hi⟩
    by_cases hsel : ∃ q ∈ s.selected, q.rank = job.cr i
    · -- the rank was selected, so the other one is there and was not
      obtain ⟨q, hq, hrank⟩ := hsel
      obtain ⟨id', job', i', hjob', hrank', -, hpresent, hfree⟩ := h.other (hkill hopts) q hq
      obtain ⟨rfl, rfl⟩ := hm.distinct _ _ _ _ _ _ hjob hjob' hi (hrank.symm.trans hrank'.symm)
      obtain rfl := Option.some_inj.mp (hjob.symm.trans hjob')
      refine ⟨i.rev, (hm.places _ _ hjob _).resolve_left hpresent, ?_⟩
      intro q' hq' heq
      rw [(h.queued _).mpr ⟨q', hq', heq⟩] at hfree
      exact Bool.false_ne_true hfree.symm
    · exact ⟨i, hi, fun q hq heq ↦ hsel ⟨q, hq, heq⟩⟩

end Invariant

theorem Reachable.invariant {m : RepMap} {intervals : ℤ} {opts : Option SelectorOpts} {s : State}
    (h : Reachable m intervals opts s) (hm : m.Distinct) : Invariant m opts s := by
  induction h with
  | refl => exact Invariant.newSelector m intervals opts
  | tail _ hstep ih => exact ih.step hm hstep

/-- **The injected faults never take away a whole job**, unless the options say so, and no rank is
selected twice. -/
theorem Reachable.selected_sound {m : RepMap} (hm : m.Distinct) {intervals : ℤ}
    {opts : Option SelectorOpts} {s : State} (h : Reachable m intervals opts s) :
    Sound m opts s.selected := (h.invariant hm).sound hm

/-- A call of `Next` with the first map of `manager -j 2 -r 3`. -/
theorem Reachable.selected_sound_first : ∃ m s,
    initReplicationMap (Manager.JobMap.initJobMap 2 3).mapText.text = .ok m ∧
      Reachable m 1 none s ∧ s.selected = [⟨0, second * 60⟩] ∧ Sound m none s.selected := by
  have hinv := Manager.invariant_initial (j := 2) (r := 3) (by decide) 0
  have hwhole : (Manager.JobMap.initJobMap 2 3).Whole 3 := ⟨hinv.conserved, hinv.nonempty⟩
  have hread : (initReplicationMap (Manager.JobMap.initJobMap 2 3).mapText.text).map
      (fun m ↦ (m 0).map fun job ↦ (job.cr 0, job.cr 1)) = .ok (some (0, 2)) := by
    decide +kernel
  cases hm : initReplicationMap (Manager.JobMap.initJobMap 2 3).mapText.text with
  | error e =>
    rw [hm] at hread
    exact absurd hread (by simp [Except.map])
  | ok m =>
    rw [hm] at hread
    obtain ⟨job, hjob, hcr⟩ := Option.map_eq_some_iff.mp (Except.ok.inj hread)
    obtain ⟨hfirst, hsecond⟩ := Prod.mk.inj hcr
    have hturn : (newSelector m 1 none).selector.getNewTurn 0 ⟨0, 0, 60⟩
        = .ok (.found ⟨0, second * 60⟩) := by
      simp [Selector.getNewTurn, newSelector, hjob, Selector.randomRankIndex, hfirst, hsecond,
        compute]
    have hrun : Reachable m 1 none
        (({ newSelector m 1 none with pc := .searching 0 0 } : State).endTurn 0
          (.found ⟨0, second * 60⟩)) :=
      Relation.ReflTransGen.head (.next rfl) (.single (.turn rfl ⟨0, 0, 60⟩ hturn))
    exact ⟨m, _, rfl, hrun, rfl,
      Reachable.selected_sound (RepMap.distinct_of_accepted hwhole.accepted_mapText hm) hrun⟩

end EntangledMPI.FaultInjector
