import EntangledMPI.Library.RecordFile
import Mathlib.Data.List.GetD
import Mathlib.Tactic.NormNum

/-!
# The records the processes write

`network_stat_init` and `save_rep_and_stack_info` write one record each, a structure as it lies in
memory, into a file all processes share: the rank tells the place. Neither structure has padding.
-/

namespace EntangledMPI

open ByteStream RecordFile

/-- An `int`, low byte first. -/
def encodeInt (v : Int32) : List UInt8 := encode 4 v.toUInt32.toNat

@[simp] theorem length_encodeInt (v : Int32) : (encodeInt v).length = 4 := length_encode _ _

/-- `sizeof(...) * node.rank` as an `MPI_Offset`: the product is taken in `size_t`. -/
def recordOffset (size : ℕ) (rank : Int32) : Int64 :=
  (UInt64.ofNat size * rank.toInt64.toUInt64).toInt64

/-- No rank is so large that the offset wraps. -/
theorem recordOffset_ofNat {size r : ℕ} (hsize : size ≤ 2 ^ 31) (hr : r < 2 ^ 31) :
    (recordOffset size (Int32.ofNat r)).toNatClampNeg = size * r := by
  have hmul : size * r < 2 ^ 63 :=
    calc size * r ≤ 2 ^ 31 * 2 ^ 31 := Nat.mul_le_mul hsize hr.le
      _ < 2 ^ 63 := by norm_num
  have hwide : (Int32.ofNat r).toInt64 = Int64.ofNat r := by
    refine Int32.toInt64_ofNat' ?_
    rw [Int32.toInt_maxValue]
    omega
  have hunsigned : (Int64.ofNat r).toUInt64 = UInt64.ofNat r := rfl
  rw [recordOffset, hwide, hunsigned, ← UInt64.ofNat_mul, UInt64.toInt64_ofNat',
    Int64.toNatClampNeg_ofNat_of_lt hmul]

theorem ofNat_injective {n : ℕ} (hn : n ≤ 2 ^ 31) :
    Function.Injective fun r : Fin n ↦ Int32.ofNat r := by
  intro r q h
  have hval := congrArg Int32.toNatClampNeg h
  dsimp only at hval
  rw [Int32.toNatClampNeg_ofNat_of_lt (by omega), Int32.toNatClampNeg_ofNat_of_lt (by omega)]
    at hval
  exact Fin.ext hval

/-! ## `network_stat_init` -/

/-- `HOSTNAME_LEN`. -/
def hostnameLenMax : ℕ := 100

structure NetworkStat where
  rank : Int32
  processId : Int32
  hostnameLen : Int32
  hostname : Fin hostnameLenMax → UInt8

def sizeofNetworkStat : ℕ := 112

def NetworkStat.bytes (netStat : NetworkStat) : List UInt8 :=
  encodeInt netStat.rank ++ (encodeInt netStat.processId ++
    (encodeInt netStat.hostnameLen ++ List.ofFn netStat.hostname))

theorem NetworkStat.length_bytes (netStat : NetworkStat) :
    netStat.bytes.length = sizeofNetworkStat := by
  simp only [bytes, List.length_append, length_encodeInt, List.length_ofFn]
  rfl

/-- What the system tells a process: its pid and the name of its host. The name has no NUL byte and
leaves room for one. -/
structure SystemInfo where
  pid : Int32
  pid_pos : 0 < pid
  hostname : List UInt8
  nul_notMem : 0 ∉ hostname
  length_lt : hostname.length < hostnameLenMax

/-- The name and a NUL byte are copied, as far as there is room; what was behind them stays. -/
def gethostname (name : List UInt8) (buffer : Fin hostnameLenMax → UInt8) :
    Fin hostnameLenMax → UInt8 :=
  fun i ↦ (name ++ [0]).getD i (buffer i)

/-- The number of bytes before the first NUL byte. -/
def strlen (s : List UInt8) : ℕ := s.findIdx fun b ↦ b = 0

/-- The record `network_stat_init` fills; `buffer` is what lies in its `hostname` before. -/
def netStat (rank : Int32) (system : SystemInfo) (buffer : Fin hostnameLenMax → UInt8) :
    NetworkStat :=
  let hostname := gethostname system.hostname buffer
  { rank := rank
    hostnameLen := Int32.ofNat (strlen (List.ofFn hostname))
    processId := system.pid
    hostname := hostname }

/-- What `network_stat_init` does to the file. -/
def networkStatInit (rank : Int32) (system : SystemInfo) (buffer : Fin hostnameLenMax → UInt8)
    (file : List UInt8) : List UInt8 :=
  writeAt (recordOffset sizeofNetworkStat rank).toNatClampNeg (netStat rank system buffer).bytes
    file

theorem ofFn_getD {n : ℕ} {l : List UInt8} (h : l.length ≤ n) (buffer : Fin n → UInt8) :
    (List.ofFn fun i ↦ l.getD i (buffer i)) = l ++ (List.ofFn buffer).drop l.length := by
  have hlength : (l ++ (List.ofFn buffer).drop l.length).length = n := by
    rw [List.length_append, List.length_drop, List.length_ofFn]
    omega
  refine List.ext_getElem (by rw [List.length_ofFn, hlength]) fun i hi _ ↦ ?_
  rw [List.getElem_ofFn, List.getElem_append]
  split
  · next hlt => rw [List.getD_eq_getElem _ _ hlt]
  · next hge =>
    rw [List.getD_eq_default _ _ (Nat.le_of_not_lt hge), List.getElem_drop, List.getElem_ofFn]
    congr 2
    omega

theorem ofFn_gethostname {name : List UInt8} (h : name.length < hostnameLenMax)
    (buffer : Fin hostnameLenMax → UInt8) :
    List.ofFn (gethostname name buffer) =
      name ++ 0 :: (List.ofFn buffer).drop (name.length + 1) := by
  have hlength : (name ++ [0]).length = name.length + 1 := List.length_append
  have hcopy := ofFn_getD (l := name ++ [0]) (by omega) buffer
  rw [hlength, List.append_assoc] at hcopy
  exact hcopy

theorem strlen_append {name : List UInt8} (h : 0 ∉ name) (rest : List UInt8) :
    strlen (name ++ 0 :: rest) = name.length := by
  induction name with
  | nil => rfl
  | cons b name ih =>
    obtain ⟨hb, hname⟩ := List.ne_and_not_mem_of_not_mem_cons h
    rw [List.cons_append, strlen, List.findIdx_cons, decide_eq_false (Ne.symm hb)]
    exact congrArg Nat.succ (ih hname)

theorem hostnameLen_netStat (rank : Int32) (system : SystemInfo)
    (buffer : Fin hostnameLenMax → UInt8) :
    (netStat rank system buffer).hostnameLen = Int32.ofNat system.hostname.length := by
  rw [netStat, ofFn_gethostname system.length_lt, strlen_append system.nul_notMem]

theorem networkStatInit_ofNat {r : ℕ} (hr : r < 2 ^ 31) (system : SystemInfo)
    (buffer : Fin hostnameLenMax → UInt8) (file : List UInt8) :
    networkStatInit (Int32.ofNat r) system buffer file =
      writeAt (sizeofNetworkStat * r) (netStat (Int32.ofNat r) system buffer).bytes file := by
  rw [networkStatInit, recordOffset_ofNat (by decide) hr]

/-! ## `save_rep_and_stack_info` -/

structure RepAndStackInfo where
  replicationIdx : Int32
  rank : Int32
  stackAddress : UInt64

def sizeofRepAndStackInfo : ℕ := 16

def RepAndStackInfo.bytes (repStack : RepAndStackInfo) : List UInt8 :=
  encodeInt repStack.replicationIdx ++ (encodeInt repStack.rank ++
    encode 8 repStack.stackAddress.toNat)

theorem RepAndStackInfo.length_bytes (repStack : RepAndStackInfo) :
    repStack.bytes.length = sizeofRepAndStackInfo := by
  simp only [bytes, List.length_append, length_encodeInt, length_encode]
  rfl

/-- What `save_rep_and_stack_info` does to the file. -/
def saveRepAndStackInfo (rank : Int32) (stackHigherAddress : UInt64) (repIdx : Int32)
    (file : List UInt8) : List UInt8 :=
  let repStack : RepAndStackInfo :=
    { replicationIdx := repIdx
      rank := rank
      stackAddress := stackHigherAddress }
  writeAt (recordOffset sizeofRepAndStackInfo rank).toNatClampNeg repStack.bytes file

theorem saveRepAndStackInfo_ofNat {r : ℕ} (hr : r < 2 ^ 31) (stackHigherAddress : UInt64)
    (repIdx : Int32) (file : List UInt8) :
    saveRepAndStackInfo (Int32.ofNat r) stackHigherAddress repIdx file =
      writeAt (sizeofRepAndStackInfo * r)
        (RepAndStackInfo.bytes ⟨repIdx, Int32.ofNat r, stackHigherAddress⟩) file := by
  rw [saveRepAndStackInfo, recordOffset_ofNat (by decide) hr]

end EntangledMPI
