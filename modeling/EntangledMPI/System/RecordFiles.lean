import EntangledMPI.FaultInjector.NetworkMap
import EntangledMPI.Manager.StackFile

/-!
# The two files between the processes and the Go programs

Every process writes its record into `network.stat` and into `rep_stack.info`, over and over; the
files are absent at first. The processes write in any order: the collective open is taken as one
open for each process, and nobody waits for the others between two rounds. The fault injector reads
the first file, the manager the second. Ranks are `int`s, so there are at most `2 ^ 31` processes.

## Main result

`files_read`: after any number of rounds both readers have what was written last.
-/

namespace EntangledMPI.RecordFiles

open RecordFile FaultInjector Manager

variable {n : ℕ}

/-! ## The writers -/

/-- What the process of rank `r` does to `network.stat` the `k`-th time. -/
def networkStatWrites (system : Fin n → ℕ → SystemInfo)
    (buffer : Fin n → ℕ → Fin hostnameLenMax → UInt8) (r : Fin n) (k : ℕ) :
    List UInt8 → List UInt8 :=
  networkStatInit (Int32.ofNat r) (system r k) (buffer r k)

/-- What the process of rank `r` does to `rep_stack.info` the `k`-th time. -/
def repStackWrites (address : Fin n → ℕ → UInt64) (repIdx : ℕ → Int32) (r : Fin n) (k : ℕ) :
    List UInt8 → List UInt8 :=
  saveRepAndStackInfo (Int32.ofNat r) (address r k) (repIdx k)

variable {system : Fin n → ℕ → SystemInfo} {buffer : Fin n → ℕ → Fin hostnameLenMax → UInt8}
  {address : Fin n → ℕ → UInt64} {repIdx : ℕ → Int32} {s : Writers n}

theorem file_networkStat (hpos : 0 < n) (hn : n ≤ 2 ^ 31)
    (h : Writers.Reachable (networkStatWrites system buffer) s) {k : ℕ}
    (hk : ∀ r, s.written r = k + 1) :
    s.file = some ((List.finRange n).flatMap fun r : Fin n ↦
      (netStat (Int32.ofNat r) (system r k) (buffer r k)).bytes) := by
  have hsize : 0 < sizeofNetworkStat := by decide
  have hwrite (r : Fin n) (k : ℕ) (file : List UInt8) :=
    networkStatInit_ofNat (r := r) (by omega) (system r k) (buffer r k) file
  exact h.file_eq_flatMap hpos hsize (fun _ _ ↦ NetworkStat.length_bytes _) hwrite hk

theorem file_repStack (hpos : 0 < n) (hn : n ≤ 2 ^ 31)
    (h : Writers.Reachable (repStackWrites address repIdx) s) {k : ℕ}
    (hk : ∀ r, s.written r = k + 1) :
    s.file = some ((List.finRange n).flatMap fun r : Fin n ↦
      RepAndStackInfo.bytes ⟨repIdx k, Int32.ofNat r, address r k⟩) := by
  have hsize : 0 < sizeofRepAndStackInfo := by decide
  have hwrite (r : Fin n) (k : ℕ) (file : List UInt8) :=
    saveRepAndStackInfo_ofNat (r := r) (by omega) (address r k) (repIdx k) file
  exact h.file_eq_flatMap hpos hsize (fun _ _ ↦ RepAndStackInfo.length_bytes _) hwrite hk

/-! ## The readers -/

/-- The map has the pid and the hostname of every process, and no other rank. -/
structure HasProcesses (system : Fin n → SystemInfo) (rank2Host : UInt32 → Option NetworkMap) :
    Prop where
  process : ∀ r : Fin n, ∃ netMap, rank2Host (UInt32.ofNat r) = some netMap ∧
    (netMap.pid.toNat : ℤ) = (system r).pid.toInt ∧ netMap.name = (system r).hostname
  other : ∀ rank, n ≤ rank.toNat → rank2Host rank = none

/-- Every rank of a process has got its stack address, at its place in the job map. -/
def HasAddresses {j : ℕ} (address : Fin n → UInt64) (jm jm' : JobMap j) : Prop :=
  ∀ (k : Fin j) (i : ℕ) (rank : Rank) (r : Fin n), (jm.jMap k).rankList[i]? = some rank →
    rank.rank = r → (jm'.jMap k).rankList[i]? = some { rank with stackAdd := address r }

/-- **The readers agree with the writers.** After any number of rounds, in which the processes write
in any order, `initNetworkMap` has the pids and hostnames that were written last and no other rank,
and a full read of `InitStackData` has the stack addresses and the replication index that were
written last. -/
theorem files_read (hpos : 0 < n) (hn : n ≤ 2 ^ 31) {net stack : Writers n}
    (hnet : Writers.Reachable (networkStatWrites system buffer) net) {k : ℕ}
    (hnetk : ∀ r, net.written r = k + 1)
    (hstack : Writers.Reachable (repStackWrites address repIdx) stack) {l : ℕ}
    (hstackl : ∀ r, stack.written r = l + 1) :
    (∃ rank2Host, initNetworkMap net.file = .ok rank2Host ∧
      HasProcesses (fun r ↦ system r k) rank2Host) ∧
    ∀ {j : ℕ} (jm : JobMap j),
      ∃ jm', StackFile.initStackData stack.file false jm = .ok (jm', true) ∧
        jm'.repIDx = (repIdx l).toInt ∧ HasAddresses (fun r ↦ address r l) jm jm' := by
  constructor
  · obtain ⟨rank2Host, hread, hprocess, hother⟩ :=
      initNetworkMap_netStat hn (fun r ↦ system r k) fun r ↦ buffer r k
    rw [file_networkStat hpos hn hnet hnetk]
    refine ⟨rank2Host, hread, fun r ↦ ⟨_, hprocess r, ?_, ?_⟩, hother⟩
    · exact NetworkMap.pid_netStat _ _ _
    · exact NetworkMap.name_netStat _ _ _
  · intro j jm
    rw [file_repStack hpos hn hstack hstackl]
    exact StackFile.initStackData_processes hpos hn (repIdx l) (fun r ↦ address r l) jm

/-- Two processes on one host. -/
def twoSystems : Fin 2 → ℕ → SystemInfo
  | 0, _ => ⟨7, by decide, [110], by decide, by decide⟩
  | 1, _ => ⟨8, by decide, [110], by decide, by decide⟩

def networkStatTwo : Fin 2 → ℕ → List UInt8 → List UInt8 :=
  networkStatWrites twoSystems fun _ _ _ ↦ 0

/-- The replication index counts the rounds, and so do the stack addresses of each process. -/
def repStackTwo : Fin 2 → ℕ → List UInt8 → List UInt8 :=
  repStackWrites (fun r k ↦ UInt64.ofNat (4096 * (r + 1) + k)) fun k ↦ Int32.ofNat k

/-- The second process is ahead of the first, by two rounds in `rep_stack.info`. -/
theorem files_read_twoProcesses :
    (∃ rank2Host, initNetworkMap
        (((Writers.start 2).turn networkStatTwo 1).turn networkStatTwo 0).file = .ok rank2Host ∧
      HasProcesses (fun r ↦ twoSystems r 0) rank2Host) ∧
    ∃ jm', StackFile.initStackData
        (((((Writers.start 2).turn repStackTwo 1).turn repStackTwo 1).turn repStackTwo 0).turn
          repStackTwo 0).file false (JobMap.initJobMap 1 2) = .ok (jm', true) ∧
      jm'.repIDx = 1 ∧ HasAddresses (fun r : Fin 2 ↦ UInt64.ofNat (4096 * (r + 1) + 1))
        (JobMap.initJobMap 1 2) jm' := by
  have hnet : Writers.Reachable networkStatTwo
      (((Writers.start 2).turn networkStatTwo 1).turn networkStatTwo 0) :=
    (Writers.Reachable.turn .refl rfl).turn rfl
  have hstack : Writers.Reachable repStackTwo
      (((((Writers.start 2).turn repStackTwo 1).turn repStackTwo 1).turn repStackTwo 0).turn
        repStackTwo 0) :=
    (((Writers.Reachable.turn .refl rfl).turn rfl).turn rfl).turn rfl
  have hread := files_read Nat.two_pos (by omega) hnet (k := 0) (by decide) hstack (l := 1)
    (by decide)
  exact ⟨hread.1, hread.2 (JobMap.initJobMap 1 2)⟩

end EntangledMPI.RecordFiles
