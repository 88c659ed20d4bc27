import EntangledMPI.Library.ByteStream
import EntangledMPI.Replication.HeapReplica

/-!
# Checkpoints

`init_ckpt` writes one file with no markers: the two data segments, each behind its length, the
context, the stack behind its length, the number of allocations, for every entry of the list its
container and the bytes of the block the container points to, and two flags. `init_ckpt_restore`
reads the same fields in the same order.

A read at the end of the file leaves the variable as it is, so a restore also depends on what its
variables held before: `Unspecified` has the locals the code does not initialise, and what `malloc`
returns.

Containers are pointer variables, and where they lie in the data segments or on the stack a restored
process has them under the same addresses. The model keeps them apart, in `heap.seg.memory`; `data`,
`bss` and `stack` are the other bytes.
-/

namespace EntangledMPI.Checkpoint

open ByteStream Replication

/-! ## The process -/

structure Context where
  rip : Address
  rsp : Address
  rbp : Address
  deriving DecidableEq

/-- What a checkpoint saves of a process. `context` is the `jmp_buf` as `getPC`, `getRSP` and
`getRBP` read it. -/
structure Image where
  data : List UInt8
  bss : List UInt8
  stackHigherAddress : Address
  stackLowerAddress : Address
  stack : Address → UInt8
  context : Context
  heap : Heap
  passSenderContAdd : UInt32
  passReceiverContAdd : UInt32

/-- What the code leaves unspecified in a restore: the locals it does not initialise, the block and
the cell `malloc` returns in each turn, and the bytes of the new block. -/
structure Unspecified where
  countBytesUninit : UInt64
  countBytesInit : UInt64
  processContext : Context
  stackSize : UInt64
  container : MallocContainer
  malloc : ℕ → Address × Address
  fill : ℕ → ℕ → UInt8

/-- The `n` bytes from the address `a` on. -/
def readAt (m : Address → UInt8) (a : Address) (n : ℕ) : List UInt8 :=
  (List.range n).map fun i ↦ m (a + UInt64.ofNat i)

/-- The memory with `bytes` from the address `a` on. -/
def writeAt (m : Address → UInt8) (a : Address) (bytes : List UInt8) : Address → UInt8 := fun x ↦
  bytes[(x - a).toNat]?.getD (m x)

def encodeContext (c : Context) : List UInt8 := encodeWords [c.rip, c.rsp, c.rbp]

def decodeContext (l : List UInt8) : Context := ⟨word l 0, word l 1, word l 2⟩

def encodeContainer (c : MallocContainer) : List UInt8 :=
  encodeWords [c.containerAddress, c.linkedAddress, c.allocatedAddress, c.size]

def decodeContainer (l : List UInt8) : MallocContainer := ⟨word l 0, word l 1, word l 2, word l 3⟩

/-! ## Saving -/

/-- `get_stack_size`. -/
def getStackSize (stackHigherAddress stackLowerAddress : Address) : Int32 :=
  (stackHigherAddress - stackLowerAddress + 4).toInt64.toInt32

namespace Image

def saveDataSeg (p : Image) : List UInt8 :=
  encode 8 p.data.length ++ p.data ++ encode 8 p.bss.length ++ p.bss

/-- `stack_size`, a `size_t`. -/
def stackSize (p : Image) : UInt64 :=
  (getStackSize p.stackHigherAddress p.context.rsp).toInt64.toUInt64

def saveStackSeg (p : Image) : List UInt8 :=
  encodeContext p.context ++ encode 8 p.stackSize.toNat ++
    readAt p.stack p.context.rsp p.stackSize.toNat

/-- The loop of `save_heap_seg` from the cell `temp` on. -/
def saveFrom (h : Heap) : ℕ → Option Address → Option (List UInt8)
  | _, none => some []
  | 0, some _ => none
  | fuel + 1, some temp => do
    let element ← h.seg.cell temp
    let bytes ← h.readBlock (h.seg.memory element.content.containerAddress) element.content.size
    let rest ← saveFrom h fuel element.next
    return encodeContainer element.content ++ bytes ++ rest

def saveHeapSeg (p : Image) : Option (List UInt8) := do
  let entries ← saveFrom p.heap (2 ^ 64) p.heap.seg.head
  return encode 4 p.heap.seg.mallocNumberOfAllocations ++ entries

def saveFrameworkData (p : Image) : List UInt8 :=
  encode 4 p.passSenderContAdd.toNat ++ encode 4 p.passReceiverContAdd.toNat

/-- `init_ckpt`: the bytes it writes. -/
def initCkpt (p : Image) : Option (List UInt8) := do
  let heap ← p.saveHeapSeg
  return p.saveDataSeg ++ p.saveStackSeg ++ heap ++ p.saveFrameworkData

/-! ## Restoring -/

def restoreDataSeg (u : Unspecified) (p : Image) (f : Stream) : Image × Stream :=
  let (countBytesUninit, f) := freadWord u.countBytesUninit f
  let (data, f) := fread countBytesUninit.toNat p.data f
  let (countBytesInit, f) := freadWord u.countBytesInit f
  let (bss, f) := fread countBytesInit.toNat p.bss f
  ({ p with data := data, bss := bss }, f)

def restoreStackSeg (u : Unspecified) (p : Image) (f : Stream) : Image × Stream :=
  let (record, f) := fread 24 (encodeContext u.processContext) f
  let processContext := decodeContext record
  let (stackSize, f) := freadWord u.stackSize f
  let stackLowerAddress := p.stackHigherAddress - (stackSize - 4)
  let (bytes, f) := fread stackSize.toNat [] f
  ({ p with
      stackLowerAddress := stackLowerAddress
      context := ⟨processContext.rip, stackLowerAddress,
        processContext.rbp + (stackLowerAddress - processContext.rsp)⟩
      stack := writeAt p.stack stackLowerAddress bytes }, f)

/-- The loop of `restore_heap_seg`, with the number of turns left and the number of the turn. -/
def restoreFrom (u : Unspecified) : ℕ → ℕ → MallocContainer → Heap → Stream → Option (Heap × Stream)
  | 0, _, _, h, f => some (h, f)
  | n + 1, i, tempContainer, h, f => do
    let (record, f) := fread 32 (encodeContainer tempContainer) f
    let tempContainer := decodeContainer record
    let (block, element) := u.malloc i
    let (bytes, f) :=
      fread tempContainer.size.toNat ((List.range tempContainer.size.toNat).map (u.fill i)) f
    let seg ← h.seg.place
      ⟨tempContainer.containerAddress, tempContainer.linkedAddress, tempContainer.size, block,
        element⟩
    restoreFrom u n (i + 1) { tempContainer with allocatedAddress := block }
      ⟨seg, Function.update h.block block (some bytes), h.segments⟩ f

def restoreHeapSeg (u : Unspecified) (p : Image) (f : Stream) : Option (Image × Stream) := do
  let (count, f) := freadInt (UInt32.ofNat p.heap.seg.mallocNumberOfAllocations) f
  let n := count.toInt32.toInt.toNat
  let (heap, f) ← restoreFrom u n 0 u.container
    { p.heap with seg := { p.heap.seg with mallocNumberOfAllocations := n } } f
  return ({ p with heap := heap }, f)

def restoreFrameworkData (p : Image) (f : Stream) : Image × Stream :=
  let (passSenderContAdd, f) := freadInt p.passSenderContAdd f
  let (passReceiverContAdd, f) := freadInt p.passReceiverContAdd f
  ({ p with
      passSenderContAdd := passSenderContAdd
      passReceiverContAdd := passReceiverContAdd }, f)

/-- `init_ckpt_restore` from a file with the given bytes. -/
def initCkptRestore (u : Unspecified) (p : Image) (file : List UInt8) :
    Option (Image × Stream) := do
  let (p, f) := restoreDataSeg u p ⟨file, false⟩
  let (p, f) := restoreStackSeg u p f
  let (p, f) ← restoreHeapSeg u p f
  return restoreFrameworkData p f

end Image

end EntangledMPI.Checkpoint
