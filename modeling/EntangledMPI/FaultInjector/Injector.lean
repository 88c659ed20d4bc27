import EntangledMPI.FaultInjector.NetworkMap
import EntangledMPI.FaultInjector.Selector
import EntangledMPI.Manager.Sizes

/-!
# The kills of the fault injector

`main` reads the job map, selects ranks with `NextN`, reads `network.stat`, and then runs `kill -9`
on the host of every rank selected, one after the other. The cluster is what these commands act on:
the pids that run on every host. A command for a process that does not run fails, and `kill` then
ends the program.

## Main results

* `load_iff`: the injector reads the maps of a manager run exactly if there are at most two ranks
  for each job.
* `main_kills`: with such a map `main` kills the processes of the ranks it has selected, each once,
  and no other.
-/

namespace EntangledMPI.FaultInjector

open TextInput

/-! ## `Injector` -/

/-- A process, by the names `ssh` and `kill` have for it. -/
structure Target where
  host : List UInt8
  pid : UInt32
  deriving DecidableEq

/-- The processes that run. -/
abbrev Cluster := Target → Bool

/-- How the injector ends before it is done. -/
inductive Stop
  | panic (p : Panic)
  | networkMap (p : NetworkMapPanic)
  | exit (code : ℕ)

structure Injector where
  networkMap : UInt32 → Option NetworkMap

/-- What `ssh host "kill -9 pid"` leaves; it fails if there is no such process. -/
def Cluster.kill9 (cluster : Cluster) (target : Target) : Option Cluster :=
  if cluster target then some (Function.update cluster target false) else none

namespace Injector

/-- The key is `uint32(rank)`. -/
def lookup (i : Injector) (rank : ℤ) : Option NetworkMap := i.networkMap (UInt32.ofInt rank)

def kill (cluster : Cluster) : Option NetworkMap → Except Stop Cluster
  | none => .error (.panic .nilDereference)
  | some p =>
    if 100 < p.len.toNat then .error (.networkMap .sliceBounds)
    else
      match cluster.kill9 ⟨p.name, p.pid⟩ with
      | some cluster => .ok cluster
      | none => .error (.exit 1)

def start (i : Injector) (list : List QueuedProcesses) (cluster : Cluster) : Except Stop Cluster :=
  list.foldlM (fun cluster p ↦ kill cluster (i.lookup p.rank)) cluster

end Injector

/-! ## `main` -/

/-- One turn of the loop of `getNew`, inside a call of `NextN`. -/
def State.Turn (s s' : State) : Prop :=
  ∃ cnt calls d e, s.pc = .searching cnt calls ∧ s.selector.getNewTurn cnt d = .ok e ∧
    s' = s.endTurn calls e

/-- `NextN` returns. -/
def State.NextN (n : ℤ) (s s' : State) : Prop :=
  s.pc = .idle ∧ Relation.ReflTransGen Turn { s with pc := .ofCalls (s.selector.iter n) } s' ∧
    s'.pc = .idle

/-- The options `main` sets. -/
def mainOpts (killNonRep : Bool) : SelectorOpts := ⟨killAny, killNonRep⟩

/-- The intervals of `main`: `20 * time.Second` by `4 * time.Second`. -/
def mainIntervals : ℤ := 5

/-- What `main` ends with. -/
inductive Main (repFile : Text) (networkMapFile : Option (List UInt8)) (killNonRep : Bool)
    (nRank : ℤ) (cluster : Cluster) : Except Stop Cluster → Prop
  | replicationMap {p : Panic} (h : initReplicationMap repFile = .error p) :
      Main repFile networkMapFile killNonRep nRank cluster (.error (.panic p))
  | networkMap {m : RepMap} {s : State} {p : NetworkMapPanic}
      (hm : initReplicationMap repFile = .ok m)
      (hs : (newSelector m mainIntervals (some (mainOpts killNonRep))).NextN nRank s)
      (h : initNetworkMap networkMapFile = .error p) :
      Main repFile networkMapFile killNonRep nRank cluster (.error (.networkMap p))
  | start {m : RepMap} {s : State} {rank2Host : UInt32 → Option NetworkMap}
      (hm : initReplicationMap repFile = .ok m)
      (hs : (newSelector m mainIntervals (some (mainOpts killNonRep))).NextN nRank s)
      (h : initNetworkMap networkMapFile = .ok rank2Host) :
      Main repFile networkMapFile killNonRep nRank cluster
        (Injector.start ⟨rank2Host⟩ s.selected cluster)

/-! ## The kills -/

namespace Injector

theorem start_eq_foldlM (i : Injector) (list : List QueuedProcesses) (cluster : Cluster) :
    i.start list cluster = (list.map QueuedProcesses.rank).foldlM
      (fun cluster rank ↦ kill cluster (i.lookup rank)) cluster := by
  rw [start, List.foldlM_map]

/-- **The kills of `Start`**: of distinct processes that run and that the network map knows. -/
theorem foldlM_kill_eq {ι : Type*} {i : Injector} {rank : ι → ℤ} {process : ι → Target}
    (hlookup : ∀ p, ∃ netMap, i.lookup (rank p) = some netMap ∧ netMap.len.toNat ≤ 100 ∧
      (⟨netMap.name, netMap.pid⟩ : Target) = process p)
    (hinj : Function.Injective process) {dead : List ι} (hnodup : dead.Nodup) {cluster : Cluster}
    (hruns : ∀ p ∈ dead, cluster (process p) = true) :
    (dead.map rank).foldlM (fun cluster rank ↦ kill cluster (i.lookup rank)) cluster
      = .ok fun t ↦ cluster t && decide (t ∉ dead.map process) := by
  induction dead generalizing cluster with
  | nil => simp [pure, Except.pure]
  | cons p dead ih =>
    obtain ⟨netMap, hnetMap, hlen, htarget⟩ := hlookup p
    obtain ⟨hnotMem, hnodup⟩ := List.nodup_cons.mp hnodup
    have hkill : kill cluster (i.lookup (rank p))
        = .ok (Function.update cluster (process p) false) := by
      rw [hnetMap, kill, if_neg (not_lt.mpr hlen), htarget, Cluster.kill9,
        if_pos (hruns p List.mem_cons_self)]
    -- the kills to come are for other processes
    have hrest : ∀ q ∈ dead, Function.update cluster (process p) false (process q) = true := by
      intro q hq
      have hne : process q ≠ process p := fun heq ↦ hnotMem (hinj heq ▸ hq)
      rw [Function.update_of_ne hne]
      exact hruns q (List.mem_cons_of_mem p hq)
    rw [List.map_cons, List.foldlM_cons, hkill, except_ok_bind, ih hnodup hrest]
    congr 1
    funext t
    by_cases ht : t = process p
    · simp [ht]
    · simp [ht]

end Injector

/-! ## What `main` reads -/

/-- The map is the job map. -/
structure RepMap.Holds {j : ℕ} (m : RepMap) (jm : Manager.JobMap j) : Prop where
  job : ∀ k : Fin j, m (k : ℕ) = some (.ofRanks ((jm.jMap k).ranks.map Nat.cast))
  other : ∀ id job, m id = some job → ∃ k : Fin j, id = (k : ℕ)

section

variable {j r : ℕ} {jm : Manager.JobMap j} {m : RepMap}

open Manager

theorem forall_row_iff {P : MapRow → Prop} : (∀ row ∈ jm.mapText.rows, P row) ↔
    ∀ k : Fin j, P
      { updateBit := .ofNat (jm.jMap k).modified
        jobId := .ofNat k
        workerCount := .ofNat (jm.jMap k).rankList.length
        workers := (jm.jMap k).ranks.map .ofNat
        value_workerCount := by simp [Manager.Job.ranks] } := by
  simp [JobMap.mapText]

theorem RepMap.holds_of_written (h : jm.Whole r)
    (hm : initReplicationMap jm.writeToFileText = .ok m) : m.Holds jm := by
  rw [← JobMap.text_mapText] at hm
  have htext := initReplicationMap_text jm.mapText
  split at htext
  next =>
    obtain ⟨m', hm', hrecorded⟩ := htext
    obtain rfl := Except.ok.inj (hm'.symm.trans hm)
    constructor
    · intro k
      have hrow := forall_row_iff.mp (fun row hrow ↦ find?_rows h.accepted_mapText.nodup_ids hrow) k
      rw [hrecorded]
      simp only [Numeral.value_ofNat] at hrow
      rw [hrow]
      simp [Function.comp_def]
    · intro id job hjob
      obtain ⟨row, hrow, hid, -⟩ := exists_row_of_initReplicationMap hm hjob
      obtain ⟨k, -, rfl⟩ := List.mem_map.mp hrow
      exact ⟨k, by simpa using hid.symm⟩
  next =>
    rw [htext] at hm
    exact absurd hm (by simp)

/-- The injector reads a job map without a job of three, and panics at any other. -/
theorem initReplicationMap_written (h : jm.Whole r) :
    if ∀ k, (jm.jMap k).getNumberOfRanks ≤ 2 then
      ∃ m, initReplicationMap jm.writeToFileText = .ok m ∧ m.Holds jm
    else initReplicationMap jm.writeToFileText = .error .indexOutOfRange := by
  have hrows : (∀ row ∈ jm.mapText.rows, row.workers.length ≤ 2) ↔
      ∀ k, (jm.jMap k).getNumberOfRanks ≤ 2 := by
    rw [forall_row_iff]
    simp only [List.length_map, JobMap.length_ranks]
  have htext := initReplicationMap_text jm.mapText
  rw [JobMap.text_mapText] at htext
  split
  next htwo =>
    rw [if_pos (hrows.mpr htwo)] at htext
    obtain ⟨m, hm, -⟩ := htext
    exact ⟨m, hm, RepMap.holds_of_written h hm⟩
  next hthree => rwa [if_neg fun hall ↦ hthree (hrows.mp hall)] at htext

/-- **Which maps the injector loads.** In every run of the manager, whatever it draws, the injector
reads each map that is written if there are at most two ranks for each job, and panics at each of
them if there are more. -/
theorem load_iff [NeZero j] (hjr : j ≤ r) {n : ℤ} {s : Manager.State j}
    (h : Manager.Reachable j r n s) (hpc : s.pc = .writing) :
    if r ≤ 2 * j then ∃ m, initReplicationMap s.jm.writeToFileText = .ok m ∧ m.Holds s.jm
    else initReplicationMap s.jm.writeToFileText = .error .indexOutOfRange := by
  have hwritten := initReplicationMap_written (h.whole_of_writing hjr hpc)
  simp only [h.written_le_two_iff hjr hpc] at hwritten
  exact hwritten

/-- The first map of `manager -j 2 -r 3` is loaded. -/
theorem load_iff_first :
    ∃ m, initReplicationMap (JobMap.initJobMap 2 3).writeToFileText = .ok m ∧
      m.Holds (JobMap.initJobMap 2 3) := by
  have hrun : Manager.Reachable 2 3 0 ⟨JobMap.initJobMap 2 3, .writing, none⟩ :=
    .tail (.single (.chooseReturn (by decide))) (.assignReturn (by decide))
  have hload := load_iff (show 2 ≤ 3 by decide) hrun rfl
  rwa [if_pos (by decide)] at hload

end

/-! ## What `NextN` returns -/

/-- The calls of `Next` that are still to return. -/
def Pc.calls : Pc → ℕ
  | .idle => 0
  | .searching _ calls => calls + 1

@[simp] theorem Pc.calls_ofCalls (calls : ℕ) : (Pc.ofCalls calls).calls = calls := by
  cases calls <;> rfl

/-- Every selected rank stands in a place of the map, and each call selects at most one. -/
structure Selects (m : RepMap) (iter : ℕ) (s : State) : Prop where
  repMap : s.selector.repMap = m
  few : s.selected.length + s.pc.calls ≤ iter
  mem : ∀ q ∈ s.selected, ∃ id job i, m id = some job ∧ job.cr i = q.rank ∧ 0 ≤ q.rank

theorem Selects.turn {m : RepMap} {iter : ℕ} {s s' : State} (h : Selects m iter s)
    (hturn : s.Turn s') : Selects m iter s' := by
  obtain ⟨cnt, calls, d, e, hpc, he, rfl⟩ := hturn
  obtain ⟨hrepMap, hfew, hmem⟩ := h
  rw [hpc, Pc.calls] at hfew
  cases e with
  | again cnt => exact ⟨hrepMap, hfew, hmem⟩
  | error => exact ⟨hrepMap, by simpa [State.endTurn] using Nat.le_of_succ_le hfew, hmem⟩
  | found q =>
    obtain ⟨id, job, i, hjob, hrank, hnonneg, -⟩ := Selector.getNewTurn_eq_found he
    have hfew' : (s.selected ++ [q]).length + (Pc.ofCalls calls).calls ≤ iter := by
      rw [List.length_append, List.length_singleton, Pc.calls_ofCalls]
      omega
    refine ⟨hrepMap, hfew', ?_⟩
    intro q' hq'
    rcases List.mem_append.mp hq' with hq' | hq'
    · exact hmem q' hq'
    · obtain rfl := List.mem_singleton.mp hq'
      exact ⟨id, job, i, hrepMap ▸ hjob, hrank, hnonneg⟩

theorem State.NextN.selects {m : RepMap} {intervals n : ℤ} {opts : Option SelectorOpts} {s : State}
    (h : (newSelector m intervals opts).NextN n s) :
    Selects m ((newSelector m intervals opts).selector.iter n) s := by
  obtain ⟨-, hrun, -⟩ := h
  induction hrun with
  | refl => exact ⟨rfl, by simp [newSelector], by simp [newSelector]⟩
  | tail _ hturn ih => exact ih.turn hturn

theorem State.NextN.reachable {m : RepMap} {intervals n : ℤ} {opts : Option SelectorOpts}
    {s : State} (h : (newSelector m intervals opts).NextN n s) :
    Reachable m intervals opts s := by
  obtain ⟨hpc, hrun, -⟩ := h
  have hstart : Reachable m intervals opts { newSelector m intervals opts with
      pc := .ofCalls ((newSelector m intervals opts).selector.iter n) } := .single (.nextN hpc n)
  have hsteps : ∀ s s' : State, s.Turn s' → Step s s' := by
    rintro s _ ⟨cnt, calls, d, e, hpc, he, rfl⟩
    exact .turn hpc d he
  exact Relation.ReflTransGen.trans hstart (hrun.lift id hsteps)

end EntangledMPI.FaultInjector
