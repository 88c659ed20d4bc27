import EntangledMPI.Checkpoint.RoundTrip

/-!
# The stack and its context in another process

`setjmp` stores the registers that `getPC`, `getRSP` and `getRBP` read under the pointer guard of
the process, and `longjmp` expects them under its own. A checkpoint has them in the clear. A restore
lays the saved stack under the top of its own and moves RSP and RBP by the same distance;
`transfer_stack_seg` copies the stack to where it was, and aborts if the tops differ.

## Main result

`restoreStackSeg_moves`: the context and the stack of a restore are those saved, moved as a whole.
-/

namespace EntangledMPI.Checkpoint

open ByteStream Replication

/-! ## The pointer guard -/

/-- `rol`. -/
def rol (n : ℕ) (v : UInt64) : UInt64 := ⟨v.toBitVec.rotateLeft n⟩

/-- `ror`. -/
def ror (n : ℕ) (v : UInt64) : UInt64 := ⟨v.toBitVec.rotateRight n⟩

theorem rotateRight_rotateLeft {w n : ℕ} (hn : n < w) (x : BitVec w) :
    (x.rotateLeft n).rotateRight n = x := by
  ext i hi
  simp only [BitVec.getElem_rotateRight, BitVec.getElem_rotateLeft, Nat.mod_eq_of_lt hn]
  split <;> split <;> first | omega | (congr 1; omega)

theorem ror_rol {n : ℕ} (hn : n < 64) (v : UInt64) : ror n (rol n v) = v :=
  UInt64.toBitVec_inj.mp (rotateRight_rotateLeft hn v.toBitVec)

/-- `PTR_ENCRYPT`, with the pointer guard at `%fs:0x30`. -/
def ptrEncrypt (guard v : Address) : Address := rol 17 (v ^^^ guard)

/-- `PTR_DECRYPT`. -/
def ptrDecrypt (guard v : Address) : Address := ror 17 v ^^^ guard

@[simp] theorem ptrDecrypt_ptrEncrypt (guard v : Address) :
    ptrDecrypt guard (ptrEncrypt guard v) = v := by
  rw [ptrDecrypt, ptrEncrypt, ror_rol (by decide), UInt64.xor_assoc, UInt64.xor_self,
    UInt64.xor_zero]

/-! ## The process -/

structure JmpBuf where
  jmpbuf : Fin 8 → Address

def jbRBP : Fin 8 := 1

def jbRSP : Fin 8 := 6

def jbPC : Fin 8 := 7

/-- What the stack segment functions use of a process. -/
structure StackProcess where
  pointerGuard : Address
  context : JmpBuf
  stackHigherAddress : Address
  stackLowerAddress : Address
  stack : Address → UInt8

namespace StackProcess

def getRegister (p : StackProcess) (i : Fin 8) : Address :=
  ptrDecrypt p.pointerGuard (p.context.jmpbuf i)

def setRegister (p : StackProcess) (i : Fin 8) (v : Address) : StackProcess :=
  { p with context := ⟨Function.update p.context.jmpbuf i (ptrEncrypt p.pointerGuard v)⟩ }

def getPC (p : StackProcess) : Address := p.getRegister jbPC

def getRBP (p : StackProcess) : Address := p.getRegister jbRBP

def getRSP (p : StackProcess) : Address := p.getRegister jbRSP

def setPC (p : StackProcess) (pc : Address) : StackProcess := p.setRegister jbPC pc

def setRBP (p : StackProcess) (rbp : Address) : StackProcess := p.setRegister jbRBP rbp

def setRSP (p : StackProcess) (rsp : Address) : StackProcess := p.setRegister jbRSP rsp

/-- The three registers, as they are put in a file or a message. -/
def processContext (p : StackProcess) : Context := ⟨p.getPC, p.getRSP, p.getRBP⟩

def saveStackSeg (p : StackProcess) : StackProcess × List UInt8 :=
  let p := { p with stackLowerAddress := p.getRSP }
  let stackSize := (getStackSize p.stackHigherAddress p.stackLowerAddress).toInt64.toUInt64
  (p, encodeContext p.processContext ++ encode 8 stackSize.toNat ++
    readAt p.stack p.stackLowerAddress stackSize.toNat)

def restoreStackSeg (u : Unspecified) (p : StackProcess) (f : Stream) : StackProcess × Stream :=
  let (record, f) := fread 24 (encodeContext u.processContext) f
  let processContext := decodeContext record
  let (stackSize, f) := freadWord u.stackSize f
  let p := { p with stackLowerAddress := p.stackHigherAddress - (stackSize - 4) }
  let p := p.setPC processContext.rip
  let p := p.setRSP p.stackLowerAddress
  let p := p.setRBP (processContext.rbp + (p.stackLowerAddress - processContext.rsp))
  let (bytes, f) := fread stackSize.toNat [] f
  ({ p with stack := writeAt p.stack p.stackLowerAddress bytes }, f)

/-- `transfer_stack_seg` at the sender and at one receiver, with its broadcasts; `none` is
`MPI_Abort`. -/
def transferStackSeg (sender receiver : StackProcess) : Option (StackProcess × StackProcess) :=
  let sender := { sender with stackLowerAddress := sender.getRSP }
  let stackSize := getStackSize sender.stackHigherAddress sender.stackLowerAddress
  let processContext := sender.processContext
  let receiver := receiver.setPC processContext.rip
  let receiver := receiver.setRSP processContext.rsp
  let receiver := receiver.setRBP processContext.rbp
  let receiver := { receiver with
    stackLowerAddress := receiver.stackHigherAddress - (stackSize - 4).toInt64.toUInt64 }
  if sender.stackLowerAddress ≠ receiver.stackLowerAddress then none
  else
    some (sender, { receiver with
      stack := writeAt receiver.stack receiver.stackLowerAddress
        (readAt sender.stack sender.stackLowerAddress stackSize.toInt.toNat) })

/-! ## The registers -/

variable {p q r : StackProcess} {i k : Fin 8} {v : Address}

@[simp] theorem getRegister_setRegister_self : (p.setRegister i v).getRegister i = v := by
  simp [getRegister, setRegister]

theorem getRegister_setRegister_of_ne (h : k ≠ i) :
    (p.setRegister i v).getRegister k = p.getRegister k := by
  simp [getRegister, setRegister, h]

theorem processContext_set (p : StackProcess) (pc rsp rbp : Address) :
    (((p.setPC pc).setRSP rsp).setRBP rbp).processContext = ⟨pc, rsp, rbp⟩ := by
  have hrspPC : jbPC ≠ jbRSP := by decide
  have hrbpPC : jbPC ≠ jbRBP := by decide
  have hrbpRSP : jbRSP ≠ jbRBP := by decide
  simp [processContext, getPC, getRSP, getRBP, setPC, setRSP, setRBP,
    getRegister_setRegister_of_ne hrspPC, getRegister_setRegister_of_ne hrbpPC,
    getRegister_setRegister_of_ne hrbpRSP]

/-! ## As a checkpoint sees it -/

/-- The process in the clear. -/
def decrypted (p : StackProcess) (image : Image) : Image :=
  { image with
    stackHigherAddress := p.stackHigherAddress
    stackLowerAddress := p.stackLowerAddress
    stack := p.stack
    context := p.processContext }

/-- The process with the registers and the stack that a checkpoint of `p` has, under its own
`stackHigherAddress`. -/
def withStack (q p : StackProcess) : StackProcess :=
  let stackSize := (getStackSize p.stackHigherAddress p.getRSP).toInt64.toUInt64
  let lower := q.stackHigherAddress - (stackSize - 4)
  let s := { q with stackLowerAddress := lower }
  { ((s.setPC p.getPC).setRSP lower).setRBP (p.getRBP + (lower - p.getRSP)) with
    stack := writeAt q.stack lower (readAt p.stack p.getRSP stackSize.toNat) }

theorem processContext_stack (s : StackProcess) (stack : Address → UInt8) :
    { s with stack := stack }.processContext = s.processContext := rfl

theorem processContext_withStack :
    (q.withStack p).processContext =
      let lower := q.stackHigherAddress
        - ((getStackSize p.stackHigherAddress p.getRSP).toInt64.toUInt64 - 4)
      ⟨p.getPC, lower, p.getRBP + (lower - p.getRSP)⟩ := by
  rw [withStack]
  exact (processContext_stack _ _).trans (processContext_set _ _ _ _)

theorem stack_withStack :
    (q.withStack p).stack =
      let stackSize := (getStackSize p.stackHigherAddress p.getRSP).toInt64.toUInt64
      writeAt q.stack (q.stackHigherAddress - (stackSize - 4))
        (readAt p.stack p.getRSP stackSize.toNat) := rfl

theorem restoreStackSeg_append (u : Unspecified) (rest : List UInt8) (eof : Bool) :
    q.restoreStackSeg u ⟨p.saveStackSeg.2 ++ rest, eof⟩ = (q.withStack p, ⟨rest, eof⟩) := by
  have hnil : ([] : List UInt8).length
      ≤ (getStackSize p.stackHigherAddress p.getRSP).toInt64.toUInt64.toNat := Nat.zero_le _
  simp only [restoreStackSeg, saveStackSeg, List.append_assoc, freadWord_append,
    fread_append_of_length (length_encodeContext _) (length_encodeContext _).le,
    fread_append_of_length (length_readAt _ _ _) hnil, decodeContext_encodeContext]
  rfl

/-- **The guard is transparent.** In the clear, a restore from what the guarded process saves is the
restore of a checkpoint. -/
theorem restoreStackSeg_decrypted (u : Unspecified) (image saved : Image) (rest : List UInt8)
    (eof : Bool) :
    (q.decrypted image).restoreStackSeg u ⟨(p.decrypted saved).saveStackSeg ++ rest, eof⟩ =
      ((q.restoreStackSeg u ⟨p.saveStackSeg.2 ++ rest, eof⟩).1.decrypted image, ⟨rest, eof⟩) := by
  have hdecrypted : (q.withStack p).decrypted image
      = (q.decrypted image).withStack (p.decrypted saved) := by
    rw [decrypted, processContext_withStack]
    rfl
  rw [Image.restoreStackSeg_append, restoreStackSeg_append, hdecrypted]

/-! ## The size of the stack -/

theorem toInt_toInt64_of_lt {x : UInt64} (h : x.toNat < 2 ^ 63) : x.toInt64.toInt = x.toNat := by
  change x.toBitVec.toInt = _
  rw [BitVec.toInt_eq_toNat_of_lt (by simpa using (by omega : 2 * x.toNat < 2 ^ 64))]
  rfl

theorem toNat_stackSize (hsize : (p.stackHigherAddress - p.getRSP).toNat + 4 < 2 ^ 31) :
    (p.stackHigherAddress - p.getRSP + 4).toNat
      = (p.stackHigherAddress - p.getRSP).toNat + 4 := by
  rw [UInt64.toNat_add]
  exact Nat.mod_eq_of_lt (by simpa using (by omega : _ + 4 < 2 ^ 64))

theorem toInt_getStackSize (hsize : (p.stackHigherAddress - p.getRSP).toNat + 4 < 2 ^ 31) :
    (getStackSize p.stackHigherAddress p.getRSP).toInt
      = (p.stackHigherAddress - p.getRSP).toNat + 4 := by
  have hnat := toNat_stackSize hsize
  rw [getStackSize, Int64.toInt_toInt32, toInt_toInt64_of_lt (by omega), hnat,
    Int.bmod_eq_of_le (by omega) (by omega)]
  rfl

theorem stackSize_eq (hsize : (p.stackHigherAddress - p.getRSP).toNat + 4 < 2 ^ 31) :
    (getStackSize p.stackHigherAddress p.getRSP).toInt64.toUInt64
      = p.stackHigherAddress - p.getRSP + 4 := by
  have hnat := toNat_stackSize hsize
  refine (stackSize_eq_iff _).mpr ?_
  rw [toInt_toInt64_of_lt (by omega), hnat]
  omega

theorem getStackSize_sub (hsize : (p.stackHigherAddress - p.getRSP).toNat + 4 < 2 ^ 31) :
    (getStackSize p.stackHigherAddress p.getRSP - 4).toInt64.toUInt64
      = p.stackHigherAddress - p.getRSP := by
  have hint : (getStackSize p.stackHigherAddress p.getRSP - 4).toInt64
      = (p.stackHigherAddress - p.getRSP).toInt64 := by
    apply Int64.toInt_inj.mp
    rw [Int32.toInt_toInt64, Int32.toInt_sub, toInt_getStackSize hsize,
      toInt_toInt64_of_lt (by omega), show (4 : Int32).toInt = 4 from rfl, add_sub_cancel_right]
    exact Int.bmod_eq_of_le (by omega) (by omega)
  rw [hint]
  exact UInt64.toUInt64_toInt64 _

/-! ## Where a restore leaves the stack -/

/-- `r` is `q` with the context and the stack of `p`, moved to the top of the stack of `q`. -/
structure Moves (p q r : StackProcess) : Prop where
  pc : r.getPC = p.getPC
  rsp : r.getRSP = q.stackHigherAddress - (p.stackHigherAddress - p.getRSP)
  frame : r.getRBP - r.getRSP = p.getRBP - p.getRSP
  bytes : ∀ k < p.stackHigherAddress - p.getRSP + 4,
    r.stack (r.getRSP + k) = p.stack (p.getRSP + k)

theorem writeAt_readAt_add (m m' : Address → UInt8) (a b : Address) {n k : UInt64} (hk : k < n) :
    writeAt m' b (readAt m a n.toNat) (b + k) = m (a + k) := by
  have hlt := UInt64.lt_iff_toNat_lt.mp hk
  rw [writeAt, readAt, UInt64.add_comm b k, UInt64.add_sub_cancel, List.getElem?_map,
    List.getElem?_range hlt, Option.map_some, Option.getD_some, UInt64.ofNat_toNat]

theorem moves_withStack (hsize : (p.stackHigherAddress - p.getRSP).toNat + 4 < 2 ^ 31) :
    Moves p q (q.withStack p) := by
  have hcontext := @processContext_withStack p q
  have hlower : q.stackHigherAddress
      - ((getStackSize p.stackHigherAddress p.getRSP).toInt64.toUInt64 - 4)
      = q.stackHigherAddress - (p.stackHigherAddress - p.getRSP) := by
    rw [stackSize_eq hsize, UInt64.add_sub_cancel]
  dsimp only at hcontext
  rw [hlower] at hcontext
  have hpc : (q.withStack p).getPC = _ := congrArg Context.rip hcontext
  have hrsp : (q.withStack p).getRSP = _ := congrArg Context.rsp hcontext
  have hrbp : (q.withStack p).getRBP = _ := congrArg Context.rbp hcontext
  refine ⟨hpc, hrsp, ?_, fun k hk ↦ ?_⟩
  · rw [hrbp, hrsp]
    grind
  · rw [hrsp, ← hlower, stack_withStack]
    rw [← stackSize_eq hsize] at hk
    exact writeAt_readAt_add _ _ _ _ hk

/-- With the same top the restore is what a receiver gets. -/
theorem transferStackSeg_eq (hsize : (p.stackHigherAddress - p.getRSP).toNat + 4 < 2 ^ 31)
    (htop : q.stackHigherAddress = p.stackHigherAddress) :
    p.transferStackSeg q = some (p.saveStackSeg.1, q.withStack p) := by
  have hback : p.stackHigherAddress - (p.stackHigherAddress - p.getRSP) = p.getRSP := by grind
  have hlower : q.stackHigherAddress
      - ((getStackSize p.stackHigherAddress p.getRSP).toInt64.toUInt64 - 4) = p.getRSP := by
    rw [stackSize_eq hsize, UInt64.add_sub_cancel, htop, hback]
  have hsent : q.stackHigherAddress
      - (getStackSize p.stackHigherAddress p.getRSP - 4).toInt64.toUInt64 = p.getRSP := by
    rw [getStackSize_sub hsize, htop, hback]
  have hcount : (getStackSize p.stackHigherAddress p.getRSP).toInt.toNat
      = (getStackSize p.stackHigherAddress p.getRSP).toInt64.toUInt64.toNat := by
    rw [stackSize_eq hsize, toNat_stackSize hsize, toInt_getStackSize hsize]
    omega
  have htransfer : p.transferStackSeg q =
      if p.getRSP ≠ q.stackHigherAddress
          - (getStackSize p.stackHigherAddress p.getRSP - 4).toInt64.toUInt64 then none
      else some (p.saveStackSeg.1, { ((q.setPC p.getPC).setRSP p.getRSP).setRBP p.getRBP with
        stackLowerAddress := q.stackHigherAddress
          - (getStackSize p.stackHigherAddress p.getRSP - 4).toInt64.toUInt64
        stack := writeAt q.stack (q.stackHigherAddress
            - (getStackSize p.stackHigherAddress p.getRSP - 4).toInt64.toUInt64)
          (readAt p.stack p.getRSP (getStackSize p.stackHigherAddress p.getRSP).toInt.toNat) }) :=
    rfl
  rw [htransfer, hsent, if_neg (not_not.mpr rfl), hcount, withStack]
  dsimp only
  rw [hlower, UInt64.sub_self, UInt64.add_zero]
  rfl

/-- **The context and the stack of a restore.** They are those of the checkpoint, moved as a whole
to the top of the stack of the process that is restored, and put under its own pointer guard. With
the same top the process is in the state in which `transfer_stack_seg` leaves a receiver. -/
theorem restoreStackSeg_moves (p q : StackProcess)
    (hsize : (p.stackHigherAddress - p.getRSP).toNat + 4 < 2 ^ 31) (u : Unspecified)
    (rest : List UInt8) :
    let r := (q.restoreStackSeg u ⟨p.saveStackSeg.2 ++ rest, false⟩).1
    Moves p q r ∧ (q.stackHigherAddress = p.stackHigherAddress →
      p.transferStackSeg q = some (p.saveStackSeg.1, r)) := by
  rw [restoreStackSeg_append]
  exact ⟨moves_withStack hsize, transferStackSeg_eq hsize⟩

/-- A stack of `100` bytes and another top. -/
theorem restoreStackSeg_moves_higher :
    let p := (((⟨5, ⟨fun _ ↦ 0⟩, 1000, 0, fun a ↦ a.toUInt8⟩ : StackProcess).setPC 64).setRSP
      904).setRBP 950
    let q : StackProcess := ⟨9, ⟨fun _ ↦ 0⟩, 2000, 0, fun _ ↦ 0⟩
    q.stackHigherAddress ≠ p.stackHigherAddress ∧
      Moves p q (q.restoreStackSeg Image.counting ⟨p.saveStackSeg.2 ++ [], false⟩).1 :=
  ⟨by decide, (restoreStackSeg_moves _ _ (by decide) Image.counting []).1⟩

end StackProcess

end EntangledMPI.Checkpoint
