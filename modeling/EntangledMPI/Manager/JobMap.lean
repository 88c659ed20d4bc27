import EntangledMPI.Shared
import Mathlib.Algebra.BigOperators.Fin
import Mathlib.Data.List.FinRange

/-!
# The process manager

The Go program that writes `replication.map`. Its map has the keys `0 .. j - 1` from the start and
never gains or loses one, so a `map[int]*Job` is a function on `Fin j`, and a random draw
`Int32n(len(JMap))` is an element of `Fin j`.

The loops of `Choose` and `Assign` are written one turn at a time, each turn taking its random draws
as arguments, and `Step` runs the update loop of `main` one turn after the other. The states between
two turns are then states of the run, which is what the invariants speak about.
-/

namespace EntangledMPI.Manager

/-! ## Jobs -/

structure Rank where
  rank : ℕ
  prevJob : ℤ
  stackAdd : UInt64
  deriving DecidableEq, Repr

/-- `Rank{}`. -/
instance : Inhabited Rank := ⟨⟨0, 0, 0⟩⟩

structure Job where
  jobID : ℕ
  rankList : List Rank
  modified : ℕ
  deriving DecidableEq, Repr

def newJob (jobID : ℕ) : Job := ⟨jobID, [], 1⟩

namespace Job

def insertRank (job : Job) (rank : Rank) : Job :=
  { job with rankList := job.rankList ++ [rank] }

def getRank (job : Job) (i : ℕ) : Rank :=
  if job.rankList.length < i + 1 then default else job.rankList.getD i default

def getNumberOfRanks (job : Job) : ℕ := job.rankList.length

/-- `append(RankList[:i], RankList[i+1:]...)`. -/
def removeI (job : Job) (i : ℕ) : Job :=
  { job with rankList := job.rankList.take i ++ job.rankList.drop (i + 1) }

/-- The bare rank numbers of a job, as `WriteToFile` prints them. -/
def ranks (job : Job) : List ℕ := job.rankList.map Rank.rank

end Job

/-! ## The job map -/

structure JobMap (j : ℕ) where
  jMap : Fin j → Job
  repIDx : ℤ

namespace JobMap

variable {j : ℕ}

/-- Change the job at one key through its pointer. -/
def modifyJob (jm : JobMap j) (k : Fin j) (f : Job → Job) : JobMap j :=
  { jm with jMap := Function.update jm.jMap k (f (jm.jMap k)) }

/-- `InitJobMap`: the ranks `0 .. r - 1` are dealt to the jobs in turn. -/
def initJobMap (j : ℕ) [NeZero j] (r : ℕ) : JobMap j :=
  (List.range r).foldl (fun jm i ↦ jm.modifyJob (Fin.ofNat j i) fun job ↦ job.insertRank ⟨i, -1, 0⟩)
    ⟨fun k ↦ newJob k, 0⟩

def countTotalRanks (jm : JobMap j) : ℕ := ∑ k, (jm.jMap k).rankList.length

def resetModified (jm : JobMap j) : JobMap j :=
  { jm with jMap := fun k ↦ { jm.jMap k with modified := 0 } }

/-- One turn of the loop of `Choose` that gets past `len(c) >= n`. -/
def chooseTurn (randomJob : Fin j) (randomRankIndex : Fin 2) (s : JobMap j × List Rank) :
    JobMap j × List Rank :=
  if (s.1.jMap randomJob).getNumberOfRanks = 1 then s
  else
    (s.1.modifyJob randomJob fun job ↦ { job.removeI randomRankIndex with modified := 1 },
      s.2 ++ [(s.1.jMap randomJob).getRank randomRankIndex])

/-- One turn of the loop of `Assign`; the number is `allocationCounter`. -/
def assignTurn (newList : List Rank) (randomJob : Fin j) (s : JobMap j × ℕ) : JobMap j × ℕ :=
  let job := s.1.jMap randomJob
  let next := newList.getD s.2 default
  if job.getNumberOfRanks = 2 then s
  else if next.prevJob ≠ (randomJob : ℤ) ∧
      (job.rankList.getD 0 default).stackAdd = next.stackAdd then
    (s.1.modifyJob randomJob fun job ↦ { job.insertRank next with modified := 1 }, s.2 + 1)
  else s

/-- The fields `WriteToFile` prints, in order, keys ascending. The prose it ends the file with is
not a number, so a reader that converts integers stops there. -/
def writeToFile (jm : JobMap j) : List ℤ :=
  (jm.countTotalRanks : ℤ) :: (j : ℤ) :: (List.finRange j).flatMap fun k ↦
    ((jm.jMap k).modified : ℤ) :: ((k : ℕ) : ℤ) :: ((jm.jMap k).rankList.length : ℤ) ::
      (jm.jMap k).ranks.map Nat.cast

end JobMap

/-! ## The stack data -/

/-- One record of `rep_stack.info`. -/
structure StackAddrRepIdx where
  repIDx : ℤ
  rank : ℕ
  stackAdd : UInt64
  deriving DecidableEq, Repr

/-- `mappings` after every record was read: a later record of a rank replaces an earlier one, and a
missing key reads as zero. -/
def stackMappings (records : List StackAddrRepIdx) (rank : ℕ) : UInt64 :=
  ((records.reverse.find? fun record ↦ record.rank = rank).map StackAddrRepIdx.stackAdd).getD 0

variable {j : ℕ}

/-- `InitStackData` on the records of an existing file. With `onlyRepIDx` it stops at the first
record. -/
def JobMap.initStackData (records : List StackAddrRepIdx) (onlyRepIDx : Bool) (jm : JobMap j) :
    JobMap j :=
  match onlyRepIDx, records with
  | true, first :: _ => { jm with repIDx := first.repIDx }
  | _, _ =>
    { jm with
      repIDx := (records.getLast?.map StackAddrRepIdx.repIDx).getD 0
      jMap := fun k ↦
        { jm.jMap k with
          rankList := (jm.jMap k).rankList.map fun r ↦
            { r with stackAdd := stackMappings records r.rank } } }

/-! ## The update loop of `main` -/

/-- Where the update loop stands: inside `Choose` with the list `c` at turn `i`, inside `Assign`
with `allocationCounter`, or before one of the three calls that end a round. -/
inductive Pc
  | choosing (i : ℕ) (c : List Rank)
  | assigning (newList : List Rank) (allocationCounter : ℕ)
  | writing
  | resetting
  | loading
  deriving DecidableEq, Repr

/-- The manager and the content of `replication.map`, `none` before the first write. -/
structure State (j : ℕ) where
  jm : JobMap j
  pc : Pc
  file : Option (List ℤ)

def State.initial (j : ℕ) [NeZero j] (r : ℕ) : State j :=
  ⟨JobMap.initJobMap j r, .choosing 0 [], none⟩

/-- One turn of a loop, or one call, of the update loop, for the choice count `n`. -/
inductive Step (n : ℤ) : State j → State j → Prop
  | choose {jm : JobMap j} {i : ℕ} {c : List Rank} {file : Option (List ℤ)}
      (hi : i < j / 2) (hc : (c.length : ℤ) < n) (randomJob : Fin j) (randomRankIndex : Fin 2) :
      Step n ⟨jm, .choosing i c, file⟩
        ⟨(JobMap.chooseTurn randomJob randomRankIndex (jm, c)).1,
          .choosing (i + 1) (JobMap.chooseTurn randomJob randomRankIndex (jm, c)).2, file⟩
  | chooseReturn {jm : JobMap j} {i : ℕ} {c : List Rank} {file : Option (List ℤ)}
      (h : ¬(i < j / 2 ∧ (c.length : ℤ) < n)) :
      Step n ⟨jm, .choosing i c, file⟩ ⟨jm, .assigning c 0, file⟩
  | assign {jm : JobMap j} {newList : List Rank} {allocationCounter : ℕ} {file : Option (List ℤ)}
      (h : allocationCounter < newList.length) (randomJob : Fin j) :
      Step n ⟨jm, .assigning newList allocationCounter, file⟩
        ⟨(JobMap.assignTurn newList randomJob (jm, allocationCounter)).1,
          .assigning newList (JobMap.assignTurn newList randomJob (jm, allocationCounter)).2, file⟩
  | assignReturn {jm : JobMap j} {newList : List Rank} {allocationCounter : ℕ}
      {file : Option (List ℤ)} (h : ¬allocationCounter < newList.length) :
      Step n ⟨jm, .assigning newList allocationCounter, file⟩ ⟨jm, .writing, file⟩
  | writeToFile {jm : JobMap j} {file : Option (List ℤ)} :
      Step n ⟨jm, .writing, file⟩ ⟨jm, .resetting, some jm.writeToFile⟩
  | resetModified {jm : JobMap j} {file : Option (List ℤ)} :
      Step n ⟨jm, .resetting, file⟩ ⟨jm.resetModified, .loading, file⟩
  | initStackData {jm : JobMap j} {file : Option (List ℤ)} (records : List StackAddrRepIdx)
      (onlyRepIDx : Bool) :
      Step n ⟨jm, .loading, file⟩ ⟨jm.initStackData records onlyRepIDx, .choosing 0 [], file⟩

/-- The states the manager reaches from `InitJobMap`. -/
def Reachable (j : ℕ) [NeZero j] (r : ℕ) (n : ℤ) (s : State j) : Prop :=
  Relation.ReflTransGen (Step n) (State.initial j r) s

end EntangledMPI.Manager
