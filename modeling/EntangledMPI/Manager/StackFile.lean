import EntangledMPI.Library.Assignments
import EntangledMPI.Manager.JobMap
import EntangledMPI.Misc.RecordWriters
import Mathlib.Data.List.Find

/-!
# The stack data in the file

`InitStackData` on the bytes of `rep_stack.info`, with the Go types of its records. On whole records
of ranks it is `JobMap.initStackData`.

## Main result

`initStackData_flatMap`: the two agree.
-/

namespace EntangledMPI.Manager.StackFile

open ByteStream RecordFile

/-- A record, and a variable `stackInfo`. -/
structure StackAddrRepIdx where
  repIDx : Int32
  rank : Int32
  stackAdd : UInt64

namespace StackAddrRepIdx

/-- `unsafe.Sizeof(StackAddrRepIdx{})`. -/
def size : ℕ := 16

instance : NeZero size := ⟨by decide⟩

/-- `StackAddrRepIdx{}`. -/
def zero : StackAddrRepIdx := ⟨0, 0, 0⟩

/-- `binary.Read`, which fails if there are too few bytes. -/
def read (data : List UInt8) : Option StackAddrRepIdx :=
  if data.length < size then none
  else
    let repIDx := freadInt 0 ⟨data, false⟩
    let rank := freadInt 0 repIDx.2
    let stackAdd := freadWord 0 rank.2
    some ⟨repIDx.1.toInt32, rank.1.toInt32, stackAdd.1⟩

end StackAddrRepIdx

/-- How `InitStackData` panics: the file cannot be opened, or a record cannot be decoded. -/
inductive StackPanic
  | open
  | read
  deriving DecidableEq

variable {j : ℕ}

/-- How the loop is left early: with a panic, or with the job map and the result. -/
inductive Exit (j : ℕ)
  | panics (p : StackPanic)
  | returns (jm : JobMap j) (result : Bool)

/-- The variables of the loop. A missing key of `mappings` reads as zero. -/
structure Locals where
  mappings : Int32 → UInt64
  stackInfo : StackAddrRepIdx

/-- One turn of the loop, with the bytes just read. -/
def stackTurn (jm : JobMap j) (onlyRepIDx : Bool) (s : Locals) (data : List UInt8) :
    Except (Exit j) Locals :=
  match StackAddrRepIdx.read data with
  | none => .error (.panics .read)
  | some stackInfo =>
    if onlyRepIDx then
      if stackInfo.repIDx ≠ Int32.ofInt jm.repIDx then
        .error (.returns { jm with repIDx := stackInfo.repIDx.toInt } false)
      else .error (.returns jm true)
    else .ok ⟨Function.update s.mappings stackInfo.rank stackInfo.stackAdd, stackInfo⟩

/-- `InitStackData`, on a file that is `none` if it is absent. -/
def initStackData (file : Option (List UInt8)) (onlyRepIDx : Bool) (jm : JobMap j) :
    Except StackPanic (JobMap j × Bool) :=
  match file with
  | none => .error .open
  | some bytes =>
    let data := List.replicate StackAddrRepIdx.size 0
    match readLoop StackAddrRepIdx.size (stackTurn jm onlyRepIDx) data bytes
        ⟨fun _ ↦ 0, .zero⟩ with
    | .error (.panics p) => .error p
    | .error (.returns jm result) => .ok (jm, result)
    | .ok s =>
      .ok
        ({ jm with
            repIDx := s.stackInfo.repIDx.toInt
            jMap := fun k ↦
              { jm.jMap k with
                rankList := (jm.jMap k).rankList.map fun r ↦
                  { r with stackAdd := s.mappings (Int32.ofNat r.rank) } } },
          true)

/-! ## The records of `save_rep_and_stack_info` -/

/-- The C structure as the Go program has it. -/
def StackAddrRepIdx.ofInfo (repStack : RepAndStackInfo) : StackAddrRepIdx :=
  ⟨repStack.replicationIdx, repStack.rank, repStack.stackAddress⟩

theorem StackAddrRepIdx.read_bytes (repStack : RepAndStackInfo) :
    read repStack.bytes = some (ofInfo repStack) := by
  have hlength : ¬repStack.bytes.length < size := by
    rw [repStack.length_bytes]
    decide
  have hword := freadWord_append 0 repStack.stackAddress [] false
  rw [List.append_nil] at hword
  rw [read, if_neg hlength]
  simp only [RepAndStackInfo.bytes, encodeInt, freadInt_append, hword]
  rfl

/-- What one record does to the variables of a full read. -/
def Locals.assign (s : Locals) (repStack : RepAndStackInfo) : Locals :=
  ⟨Function.update s.mappings repStack.rank repStack.stackAddress, .ofInfo repStack⟩

theorem stackTurn_bytes (jm : JobMap j) (s : Locals) (repStack : RepAndStackInfo) :
    stackTurn jm false s repStack.bytes = .ok (s.assign repStack) := by
  rw [stackTurn, StackAddrRepIdx.read_bytes]
  rfl

theorem stackInfo_foldl_assign (infos : List RepAndStackInfo) (s : Locals) :
    (infos.foldl Locals.assign s).stackInfo =
      (infos.getLast?.map StackAddrRepIdx.ofInfo).getD s.stackInfo := by
  induction infos using List.reverseRecOn with
  | nil => rfl
  | append_singleton infos info =>
    rw [List.foldl_append, List.getLast?_append]
    rfl

theorem mappings_foldl_assign (infos : List RepAndStackInfo) (s : Locals) (rank : Int32) :
    (infos.foldl Locals.assign s).mappings rank =
      (infos.reverse.find? fun info ↦ info.rank = rank).elim (s.mappings rank)
        RepAndStackInfo.stackAddress := by
  have hmappings : (infos.foldl Locals.assign s).mappings =
      infos.foldl (fun m info ↦ Function.update m info.rank info.stackAddress) s.mappings := by
    induction infos generalizing s with
    | nil => rfl
    | cons info infos ih => exact ih (s.assign info)
  rw [hmappings, Assignments.foldl_update_apply]

/-- The address in the last record of a rank, zero if it has none. -/
def lastAddress (infos : List RepAndStackInfo) (rank : Int32) : UInt64 :=
  (infos.reverse.find? fun info ↦ info.rank = rank).elim 0 RepAndStackInfo.stackAddress

/-- The Go structure is as large as the C structure. -/
theorem length_bytes_eq_size (repStack : RepAndStackInfo) :
    repStack.bytes.length = StackAddrRepIdx.size := repStack.length_bytes

theorem length_data_le :
    (List.replicate StackAddrRepIdx.size (0 : UInt8)).length ≤ StackAddrRepIdx.size :=
  List.length_replicate.le

theorem initStackData_full (infos : List RepAndStackInfo) (jm : JobMap j) :
    initStackData (some (infos.flatMap RepAndStackInfo.bytes)) false jm =
      .ok
        ({ jm with
            repIDx := (infos.getLast?.map fun info ↦ info.replicationIdx.toInt).getD 0
            jMap := fun k ↦
              { jm.jMap k with
                rankList := (jm.jMap k).rankList.map fun r ↦
                  { r with stackAdd := lastAddress infos (Int32.ofNat r.rank) } } },
          true) := by
  have hloop := readLoop_flatMap_of_ok (l := infos) length_bytes_eq_size (stackTurn_bytes jm)
    length_data_le ⟨fun _ ↦ 0, .zero⟩
  have hrepIDx : (infos.foldl Locals.assign ⟨fun _ ↦ 0, .zero⟩).stackInfo.repIDx.toInt =
      (infos.getLast?.map fun info ↦ info.replicationIdx.toInt).getD 0 := by
    rw [stackInfo_foldl_assign]
    cases infos.getLast? <;> rfl
  simp only [initStackData, hloop, hrepIDx, mappings_foldl_assign]
  rfl

theorem initStackData_first (jm : JobMap j) (info : RepAndStackInfo)
    (infos : List RepAndStackInfo) :
    initStackData (some ((info :: infos).flatMap RepAndStackInfo.bytes)) true jm =
      if info.replicationIdx ≠ Int32.ofInt jm.repIDx then
        .ok ({ jm with repIDx := info.replicationIdx.toInt }, false)
      else .ok (jm, true) := by
  have hturn (s : Locals) : stackTurn jm true s info.bytes =
      if info.replicationIdx ≠ Int32.ofInt jm.repIDx then
        .error (.returns { jm with repIDx := info.replicationIdx.toInt } false)
      else .error (.returns jm true) := by
    rw [stackTurn, StackAddrRepIdx.read_bytes]
    rfl
  have hloop : readLoop StackAddrRepIdx.size (stackTurn jm true)
      (List.replicate StackAddrRepIdx.size 0) ((info :: infos).flatMap RepAndStackInfo.bytes)
      ⟨fun _ ↦ 0, .zero⟩ = _ :=
    readLoop_flatMap (fun info _ ↦ length_bytes_eq_size info) length_data_le _
  rw [List.foldlM_cons, hturn] at hloop
  split at hloop
  · next hne =>
    rw [if_pos hne]
    simp only [initStackData, hloop]
    rfl
  · next heq =>
    rw [if_neg heq]
    simp only [initStackData, hloop]
    rfl

/-! ## Whole records -/

/-- A record without the widths of its fields. -/
def record (repStack : RepAndStackInfo) : Manager.StackAddrRepIdx :=
  ⟨repStack.replicationIdx.toInt, repStack.rank.toNatClampNeg, repStack.stackAddress⟩

theorem rank_eq_ofNat_iff {v : Int32} (hv : 0 ≤ v) {r : ℕ} (hr : r < 2 ^ 31) :
    v = Int32.ofNat r ↔ v.toNatClampNeg = r := by
  constructor
  · rintro rfl
    exact Int32.toNatClampNeg_ofNat_of_lt hr
  · rintro rfl
    exact (Int32.ofNat_toNatClampNeg v hv).symm

theorem stackMappings_record {infos : List RepAndStackInfo} (hrank : ∀ info ∈ infos, 0 ≤ info.rank)
    {r : ℕ} (hr : r < 2 ^ 31) :
    stackMappings (infos.map record) r = lastAddress infos (Int32.ofNat r) := by
  have hfind : (infos.reverse.find? fun info ↦ (record info).rank = r) =
      infos.reverse.find? fun info ↦ info.rank = Int32.ofNat r := by
    refine List.find?_congr fun info hinfo ↦ ?_
    exact decide_eq_decide.mpr
      (rank_eq_ofNat_iff (hrank info (List.mem_reverse.mp hinfo)) hr).symm
  have hcomp : ((fun r' ↦ decide (Manager.StackAddrRepIdx.rank r' = r)) ∘ record) =
      fun info ↦ decide ((record info).rank = r) := rfl
  rw [stackMappings, ← List.map_reverse, List.find?_map, hcomp, hfind, lastAddress]
  cases infos.reverse.find? fun info ↦ info.rank = Int32.ofNat r <;> rfl

theorem initStackData_record {infos : List RepAndStackInfo} (hrank : ∀ info ∈ infos, 0 ≤ info.rank)
    {jm : JobMap j} (hjm : ∀ k, ∀ r ∈ (jm.jMap k).rankList, r.rank < 2 ^ 31) :
    initStackData (some (infos.flatMap RepAndStackInfo.bytes)) false jm =
      .ok (jm.initStackData (infos.map record) false, true) := by
  have hrepIDx : ((infos.map record).getLast?.map Manager.StackAddrRepIdx.repIDx).getD 0 =
      (infos.getLast?.map fun info ↦ info.replicationIdx.toInt).getD 0 := by
    rw [List.getLast?_map]
    cases infos.getLast? <;> rfl
  have hrankList : ∀ k, ((jm.jMap k).rankList.map fun r ↦
      { r with stackAdd := stackMappings (infos.map record) r.rank }) =
      (jm.jMap k).rankList.map fun r ↦
        { r with stackAdd := lastAddress infos (Int32.ofNat r.rank) } := by
    intro k
    refine List.map_congr_left fun r hr ↦ ?_
    rw [stackMappings_record hrank (hjm k r hr)]
  rw [initStackData_full]
  simp only [JobMap.initStackData, hrepIDx, hrankList]

/-- **`InitStackData` on whole records.** On records of ranks it does what `JobMap.initStackData`
does, the replication index of the job map being an `int32`. -/
theorem initStackData_flatMap {infos : List RepAndStackInfo}
    (hrank : ∀ info ∈ infos, 0 ≤ info.rank) {jm : JobMap j}
    (hjm : ∀ k, ∀ r ∈ (jm.jMap k).rankList, r.rank < 2 ^ 31)
    (hrepIDx : (Int32.ofInt jm.repIDx).toInt = jm.repIDx) (onlyRepIDx : Bool) :
    ∃ result, initStackData (some (infos.flatMap RepAndStackInfo.bytes)) onlyRepIDx jm =
      .ok (jm.initStackData (infos.map record) onlyRepIDx, result) := by
  cases onlyRepIDx with
  | false => exact ⟨true, initStackData_record hrank hjm⟩
  | true =>
    cases infos with
    | nil =>
      -- nothing is read, so the loop ends as in a full read
      refine ⟨true, Eq.trans ?_ (initStackData_record hrank hjm)⟩
      unfold initStackData readLoop
      rfl
    | cons info infos =>
      rw [initStackData_first]
      split
      · exact ⟨false, rfl⟩
      · next heq =>
        have hsame : info.replicationIdx.toInt = jm.repIDx := by
          rw [of_not_not heq, hrepIDx]
        refine ⟨true, ?_⟩
        rw [List.map_cons, JobMap.initStackData, record, hsame]

/-! ## The records of all processes -/

/-- On the records of `n` processes a full read gives every rank below `n` its address. -/
theorem initStackData_processes {n : ℕ} (hpos : 0 < n) (hn : n ≤ 2 ^ 31) (repIdx : Int32)
    (address : Fin n → UInt64) (jm : JobMap j) :
    ∃ jm', initStackData (some ((List.finRange n).flatMap fun r : Fin n ↦
        RepAndStackInfo.bytes ⟨repIdx, Int32.ofNat r, address r⟩)) false jm = .ok (jm', true) ∧
      jm'.repIDx = repIdx.toInt ∧
      ∀ (k : Fin j) (i : ℕ) (rank : Rank) (r : Fin n), (jm.jMap k).rankList[i]? = some rank →
        rank.rank = r → (jm'.jMap k).rankList[i]? = some { rank with stackAdd := address r } := by
  let info (r : Fin n) : RepAndStackInfo := ⟨repIdx, Int32.ofNat r, address r⟩
  have hbytes : ((List.finRange n).flatMap fun r ↦ (info r).bytes) =
      ((List.finRange n).map info).flatMap RepAndStackInfo.bytes := by
    rw [List.flatMap_map]
  have hlast (r : Fin n) :
      lastAddress ((List.finRange n).map info) (Int32.ofNat r) = address r := by
    have hfind := Assignments.find?_reverse_of_unique (List.mem_finRange r)
      fun _ _ hkey ↦ ofNat_injective hn hkey
    rw [lastAddress, ← List.map_reverse, List.find?_map]
    exact congrArg (fun o ↦ (o.map info).elim 0 RepAndStackInfo.stackAddress) hfind
  refine ⟨_, (congrArg (fun bytes ↦ initStackData (some bytes) false jm) hbytes).trans
    (initStackData_full _ jm), ?_, ?_⟩
  · have hne : (List.finRange n) ≠ [] := by
      rw [Ne, List.finRange_eq_nil_iff]
      omega
    rw [List.getLast?_map, List.getLast?_eq_some_getLast hne]
    rfl
  · intro k i rank r hrank hr
    dsimp only
    rw [List.getElem?_map, hrank, Option.map_some, hr, hlast r]

end EntangledMPI.Manager.StackFile
