import EntangledMPI.Library.Assignments
import EntangledMPI.Misc.RecordWriters

/-!
# The network map of the fault injector

`initNetworkMap` reads `network.stat` into a map from ranks to hosts. The Go structure has the
fields of the C structure with the same widths, all unsigned.
-/

namespace EntangledMPI.FaultInjector

open ByteStream RecordFile

/-- A `NetworkMap`; a `map[uint32]*NetworkMap` is a function, `none` where a key is missing. -/
structure NetworkMap where
  rank : UInt32
  pid : UInt32
  len : UInt32
  hostname : Fin 100 → UInt8

namespace NetworkMap

/-- `unsafe.Sizeof(NetworkMap{})`. -/
def size : ℕ := 112

instance : NeZero size := ⟨by decide⟩

/-- `NetworkMap{}`. -/
def zero : NetworkMap := ⟨0, 0, 0, fun _ ↦ 0⟩

/-- `binary.Read` into a new `NetworkMap`, which stays as it is if there are too few bytes. -/
def read (data : List UInt8) : NetworkMap :=
  if data.length < size then zero
  else
    let rank := freadInt 0 ⟨data, false⟩
    let pid := freadInt 0 rank.2
    let len := freadInt 0 pid.2
    ⟨rank.1, pid.1, len.1, fun i ↦ len.2.rest.getD i 0⟩

/-- `netMap.Hostname[:netMap.Len]`. -/
def name (netMap : NetworkMap) : List UInt8 := (List.ofFn netMap.hostname).take netMap.len.toNat

end NetworkMap

/-- How `initNetworkMap` panics: the file cannot be opened, or a length is out of range. -/
inductive NetworkMapPanic
  | open
  | sliceBounds
  deriving DecidableEq

/-- One turn of the loop, with the bytes just read. -/
def networkMapTurn (rank2Host : UInt32 → Option NetworkMap) (data : List UInt8) :
    Except NetworkMapPanic (UInt32 → Option NetworkMap) :=
  let netMap := NetworkMap.read data
  let rank2Host := Function.update rank2Host netMap.rank (some netMap)
  if netMap.len.toNat ≤ 100 then .ok rank2Host else .error .sliceBounds

/-- `initNetworkMap`, on a file that is `none` if it is absent. -/
def initNetworkMap (networkMapFile : Option (List UInt8)) :
    Except NetworkMapPanic (UInt32 → Option NetworkMap) :=
  match networkMapFile with
  | none => .error .open
  | some bytes =>
    readLoop NetworkMap.size networkMapTurn (List.replicate NetworkMap.size 0) bytes fun _ ↦ none

/-! ## The records of `network_stat_init` -/

/-- The C structure as the Go program has it. -/
def NetworkMap.ofStat (netStat : NetworkStat) : NetworkMap :=
  ⟨netStat.rank.toUInt32, netStat.processId.toUInt32, netStat.hostnameLen.toUInt32,
    netStat.hostname⟩

theorem NetworkMap.read_bytes (netStat : NetworkStat) : read netStat.bytes = ofStat netStat := by
  have hlength : ¬netStat.bytes.length < size := by
    rw [netStat.length_bytes]
    decide
  rw [read, if_neg hlength]
  simp only [NetworkStat.bytes, encodeInt, freadInt_append]
  rw [ofStat]
  congr 1
  funext i
  rw [List.getD_eq_getElem _ _ (by rw [List.length_ofFn]; exact i.isLt), List.getElem_ofFn]
  rfl

theorem networkMapTurn_bytes {netStat : NetworkStat}
    (hlen : netStat.hostnameLen.toUInt32.toNat ≤ 100) (rank2Host : UInt32 → Option NetworkMap) :
    networkMapTurn rank2Host netStat.bytes =
      .ok (Function.update rank2Host netStat.rank.toUInt32 (some (.ofStat netStat))) := by
  rw [networkMapTurn, NetworkMap.read_bytes]
  exact if_pos hlen

/-- **What `initNetworkMap` returns.** Every rank that has a record is mapped to its last one. -/
theorem initNetworkMap_flatMap {β : Type*} {stat : β → NetworkStat}
    (hlen : ∀ b, (stat b).hostnameLen.toUInt32.toNat ≤ 100) (l : List β) :
    initNetworkMap (some (l.flatMap fun b ↦ (stat b).bytes)) = .ok fun rank ↦
      (l.reverse.find? fun b ↦ (stat b).rank.toUInt32 = rank).map fun b ↦ .ofStat (stat b) := by
  have hdata : (List.replicate NetworkMap.size (0 : UInt8)).length ≤ NetworkMap.size :=
    List.length_replicate.le
  -- the Go structure is as large as the C structure
  have hrecord : ∀ b, (stat b).bytes.length = NetworkMap.size := fun b ↦ (stat b).length_bytes
  rw [initNetworkMap, readLoop_flatMap_of_ok hrecord
    (fun rank2Host b ↦ networkMapTurn_bytes (hlen b) rank2Host) hdata]
  congr 1
  funext rank
  rw [Assignments.foldl_update_apply (fun b ↦ (stat b).rank.toUInt32)
    fun b ↦ some (NetworkMap.ofStat (stat b))]
  cases l.reverse.find? fun b ↦ (stat b).rank.toUInt32 = rank <;> rfl

/-! ## The records of all processes -/

section

variable (rank : Int32) (system : SystemInfo) (buffer : Fin hostnameLenMax → UInt8)

theorem toNat_hostnameLen_netStat :
    (netStat rank system buffer).hostnameLen.toUInt32.toNat = system.hostname.length := by
  have hlt : system.hostname.length < 2 ^ 32 := system.length_lt.trans (by decide)
  rw [hostnameLen_netStat, Int32.toUInt32_ofNat', UInt32.toNat_ofNat_of_lt' hlt]

theorem NetworkMap.pid_netStat :
    ((ofStat (netStat rank system buffer)).pid.toNat : ℤ) = system.pid.toInt := by
  have hpid : 0 ≤ system.pid := Int32.le_of_lt system.pid_pos
  have hunsigned := Int32.toNat_toUInt32_of_le hpid
  rw [Int32.toInt_eq_toNatClampNeg hpid, ← hunsigned]
  rfl

theorem NetworkMap.name_netStat :
    (ofStat (netStat rank system buffer)).name = system.hostname := by
  have hbuffer : List.ofFn (ofStat (netStat rank system buffer)).hostname =
      system.hostname ++ 0 :: (List.ofFn buffer).drop (system.hostname.length + 1) :=
    ofFn_gethostname system.length_lt buffer
  have hlen := toNat_hostnameLen_netStat rank system buffer
  rw [name, hbuffer]
  exact List.take_left' hlen.symm

end

theorem toUInt32_ofNat_injective {n : ℕ} (hn : n ≤ 2 ^ 31) :
    Function.Injective fun r : Fin n ↦ (Int32.ofNat r).toUInt32 := by
  have hinj : Function.Injective Int32.toUInt32 :=
    Function.LeftInverse.injective Int32.toInt32_toUInt32
  exact hinj.comp (ofNat_injective hn)

/-- On the records of `n` processes the map has the ranks below `n` and no others. -/
theorem initNetworkMap_netStat {n : ℕ} (hn : n ≤ 2 ^ 31) (system : Fin n → SystemInfo)
    (buffer : Fin n → Fin hostnameLenMax → UInt8) :
    ∃ rank2Host, initNetworkMap (some ((List.finRange n).flatMap fun r : Fin n ↦
        (netStat (Int32.ofNat r) (system r) (buffer r)).bytes)) = .ok rank2Host ∧
      (∀ r : Fin n, rank2Host (UInt32.ofNat r) =
        some (.ofStat (netStat (Int32.ofNat r) (system r) (buffer r)))) ∧
      ∀ rank, n ≤ rank.toNat → rank2Host rank = none := by
  have hlen : ∀ r : Fin n,
      (netStat (Int32.ofNat r) (system r) (buffer r)).hostnameLen.toUInt32.toNat ≤ 100 := by
    intro r
    rw [toNat_hostnameLen_netStat]
    exact (system r).length_lt.le
  refine ⟨_, initNetworkMap_flatMap hlen _, fun r ↦ ?_, fun rank hrank ↦ ?_⟩
  · have hfind := Assignments.find?_reverse_of_unique (List.mem_finRange r)
      fun _ _ hkey ↦ toUInt32_ofNat_injective hn hkey
    exact congrArg _ hfind
  · rw [Option.map_eq_none_iff, List.find?_eq_none]
    intro r _ hkey
    have hr : (r : ℕ) < 2 ^ 32 := by omega
    obtain rfl := of_decide_eq_true hkey
    rw [netStat, Int32.toUInt32_ofNat', UInt32.toNat_ofNat_of_lt' hr] at hrank
    omega

end EntangledMPI.FaultInjector
