import EntangledMPI.Checkpoint.StackContext
import EntangledMPI.Library.Broadcasts

/-!
# Making a replica

`init_rep` gives a process the memory of another one: the two data segments, the registers and the
stack, the heap, and two flags of the framework. All of it goes through broadcasts in the
communicator of the migration, one after the other. A receiver learns on the way how many there will
be: the size of the stack, the number of allocations and the size of each block are messages that
come before those they are needed for. Every size is narrowed to an `int` on the way: that of the
stack by `get_stack_size`, those of the data segments and of the blocks by the count of the
broadcast.

## Main result

`Image.replicated_iff`: every receiver takes part in just the broadcasts of the sender, with the
lengths the sender has given them, and becomes a replica, exactly when the list of the heap can be
replayed.
-/

namespace EntangledMPI

namespace Replication

theorem Heap.Replicates.congr {h r r' : Heap} {containers : List MallocContainer}
    (hrep : h.Replicates r containers) (hsegments : r.segments = r'.segments)
    (hblock : r.block = r'.block) (hmemory : ∀ x, r.seg.memory x = r'.seg.memory x) :
    h.Replicates r' containers := by
  refine ⟨fun c hc ↦ ?_, ?_, ?_⟩
  · rw [HasVariables, ← hsegments]
    exact hrep.placed c hc
  · intro c hc
    rw [← hblock, ← hmemory]
    exact hrep.bytes c hc
  · intro c hc c' hc'
    rw [← hmemory, ← hmemory]
    exact hrep.sharing c hc c' hc'

end Replication

namespace Checkpoint

open Broadcasts ByteStream Replication

/-! ## At the sender -/

namespace Image

/-- `countBytes`, an `int`. -/
def countBytes (segment : List UInt8) : ℕ := (UInt32.ofNat segment.length).toInt32.toInt.toNat

/-- `transfer_data_seg`, after the barrier. -/
def sendDataSeg (p : Image) : List (List UInt8) :=
  [p.data.take (countBytes p.data), p.bss.take (countBytes p.bss)]

/-- `transfer_stack_seg`; `stack_size` is an `int`. -/
def sendStackSeg (p : Image) : List (List UInt8) :=
  let stackLowerAddress := p.context.rsp
  let stackSize := getStackSize p.stackHigherAddress stackLowerAddress
  [encodeContext p.context, encode 4 stackSize.toUInt32.toNat, encode 8 stackLowerAddress.toNat,
    readAt p.stack stackLowerAddress stackSize.toInt.toNat]

/-- One turn of `transfer_heap_seg`. Nothing sets `container.allocated_address` at rank `0`. -/
def sendTurn (allocatedAddress : Address) (m : Message) : List (List UInt8) :=
  let container : MallocContainer := ⟨m.containerAddress, m.linkedAddress, allocatedAddress, m.size⟩
  if container.IsAlias then [encodeContainer container] else [encodeContainer container, m.bytes]

/-- `transfer_heap_seg`, with what its turns find. -/
def sendHeapSeg (p : Image) (allocatedAddress : Address) (messages : List Message) :
    List (List UInt8) :=
  encode 4 p.heap.seg.totalMallocAllocationSize.toNat ::
    encode 4 p.heap.seg.mallocNumberOfAllocations :: messages.flatMap (sendTurn allocatedAddress)

/-- `transfer_framework_data`. -/
def sendFrameworkData (p : Image) : List (List UInt8) :=
  [encode 4 p.passSenderContAdd.toNat, encode 4 p.passReceiverContAdd.toNat]

/-- `init_rep` at rank `0`, if it reads no byte behind the end of a block. -/
def sendRep (p : Image) (allocatedAddress : Address) : Option (List (List UInt8)) := do
  let messages ← p.heap.sendHeapSeg
  return p.sendDataSeg ++ p.sendStackSeg ++ p.sendHeapSeg allocatedAddress messages ++
    p.sendFrameworkData

/-! ## At a receiver -/

def receiveDataSeg (p : Image) : Receiver UInt8 Image := do
  let data ← bcast (countBytes p.data)
  let bss ← bcast (countBytes p.bss)
  return { p with
    data := data ++ p.data.drop (countBytes p.data)
    bss := bss ++ p.bss.drop (countBytes p.bss) }

/-- It calls `MPI_Abort` where the stacks begin at different addresses. -/
def receiveStackSeg (p : Image) : Receiver UInt8 Image := do
  let record ← bcast 24
  let size ← bcast 4
  let stackSize := (UInt32.ofNat (decode size)).toInt32
  let stackLowerAddress := p.stackHigherAddress - (stackSize - 4).toInt64.toUInt64
  let stackLAddComp ← bcast 8
  if UInt64.ofNat (decode stackLAddComp) ≠ stackLowerAddress then fail
  else do
    let bytes ← bcast stackSize.toInt.toNat
    return { p with
      context := decodeContext record
      stackLowerAddress := stackLowerAddress
      stack := writeAt p.stack stackLowerAddress bytes }

/-- The loop of `transfer_heap_seg`, with the number of turns left, the number of the turn, and what
`malloc` returns in each. -/
def receiveTurns (malloc : ℕ → Address × Address) : ℕ → ℕ → Heap → Receiver UInt8 Heap
  | 0, _, h => pure h
  | n + 1, i, h => do
    let record ← bcast 32
    let container := decodeContainer record
    if container.IsAlias then
      receiveTurns malloc n (i + 1)
        ⟨{ h.seg with
            memory := Function.update h.seg.memory container.containerAddress
              (h.seg.memory container.linkedAddress) }, h.block, h.segments⟩
    else do
      let count ← ofOption (Heap.bcastSize container.size)
      let bytes ← bcast count.toNat
      let seg ← ofOption (h.seg.place ⟨container.containerAddress, container.linkedAddress,
        container.size, (malloc i).1, (malloc i).2⟩)
      receiveTurns malloc n (i + 1)
        ⟨seg, Function.update h.block (malloc i).1 (some bytes), h.segments⟩

def receiveHeapSeg (malloc : ℕ → Address × Address) (p : Image) : Receiver UInt8 Image := do
  let total ← bcast 4
  let seg ← ofOption ({ p.heap.seg with
    totalMallocAllocationSize := bcastInt p.heap.seg.totalMallocAllocationSize
      (UInt64.ofNat (decode total)) }.repClearDiscontiguous)
  let count ← bcast 4
  let n := (UInt32.ofNat (decode count)).toInt32.toInt.toNat
  let heap ← receiveTurns malloc n 0
    ⟨{ seg with mallocNumberOfAllocations := n }, p.heap.block, p.heap.segments⟩
  return { p with heap := heap }

def receiveFrameworkData (p : Image) : Receiver UInt8 Image := do
  let passSenderContAdd ← bcast 4
  let passReceiverContAdd ← bcast 4
  return { p with
    passSenderContAdd := UInt32.ofNat (decode passSenderContAdd)
    passReceiverContAdd := UInt32.ofNat (decode passReceiverContAdd) }

/-- `init_rep` at the other ranks. -/
def receiveRep (malloc : ℕ → Address × Address) (p : Image) : Receiver UInt8 Image := do
  let p ← p.receiveDataSeg
  let p ← p.receiveStackSeg
  let p ← p.receiveHeapSeg malloc
  p.receiveFrameworkData

/-! ## The parts of the exchange -/

variable {p q : Image}

theorem countBytes_of_lt {segment : List UInt8} (h : segment.length < 2 ^ 31) :
    countBytes segment = segment.length := toNat_toInt32 h

theorem accepts_receiveDataSeg (hdata : q.data.length = p.data.length)
    (hbss : q.bss.length = p.bss.length) (hdataSize : p.data.length < 2 ^ 31)
    (hbssSize : p.bss.length < 2 ^ 31) :
    Accepts q.receiveDataSeg p.sendDataSeg { q with data := p.data, bss := p.bss } := by
  have hdataCount := countBytes_of_lt hdataSize
  have hbssCount := countBytes_of_lt hbssSize
  have hdataCount' := countBytes_of_lt (hdata ▸ hdataSize)
  have hbssCount' := countBytes_of_lt (hbss ▸ hbssSize)
  rw [sendDataSeg, hdataCount, hbssCount, List.take_length, List.take_length]
  refine .bcast (hdata.symm.trans hdataCount'.symm) (.bcast (hbss.symm.trans hbssCount'.symm) ?_)
  rw [hdataCount', hbssCount', List.drop_length, List.drop_length, List.append_nil,
    List.append_nil]
  exact accepts_pure _

theorem accepts_receiveFrameworkData : Accepts q.receiveFrameworkData p.sendFrameworkData
    { q with
      passSenderContAdd := p.passSenderContAdd, passReceiverContAdd := p.passReceiverContAdd } := by
  have hflag : ∀ flag : UInt32, UInt32.ofNat (decode (encode 4 flag.toNat)) = flag := by
    intro flag
    rw [decode_encode flag.toNat_lt, UInt32.ofNat_toNat]
  have haccepts : Accepts q.receiveFrameworkData p.sendFrameworkData _ :=
    .bcast (length_encode 4 _) (.bcast (length_encode 4 _) (accepts_pure _))
  rwa [hflag, hflag] at haccepts

theorem getStackSize_fits {top rsp : Address} (hsize : (top - rsp).toNat + 4 < 2 ^ 31) :
    (getStackSize top rsp - 4).toInt64.toUInt64 = top - rsp ∧
      (getStackSize top rsp).toInt.toNat = (top - rsp + 4).toNat := by
  have hrsp : ((⟨0, ⟨fun _ ↦ 0⟩, top, 0, fun _ ↦ 0⟩ : StackProcess).setRSP rsp).getRSP = rsp :=
    StackProcess.getRegister_setRegister_self
  have hfits : (((⟨0, ⟨fun _ ↦ 0⟩, top, 0, fun _ ↦ 0⟩ : StackProcess).setRSP rsp).stackHigherAddress
      - ((⟨0, ⟨fun _ ↦ 0⟩, top, 0, fun _ ↦ 0⟩ : StackProcess).setRSP rsp).getRSP).toNat + 4
        < 2 ^ 31 := by
    rw [hrsp]
    exact hsize
  have hsub := StackProcess.getStackSize_sub hfits
  have hint := StackProcess.toInt_getStackSize hfits
  have hnat := StackProcess.toNat_stackSize hfits
  rw [hrsp] at hsub hint hnat
  refine ⟨hsub, ?_⟩
  have htop : ((⟨0, ⟨fun _ ↦ 0⟩, top, 0, fun _ ↦ 0⟩ : StackProcess).setRSP rsp).stackHigherAddress
      = top := rfl
  rw [htop] at hint hnat
  rw [hint, hnat]
  omega

theorem accepts_receiveStackSeg (htop : q.stackHigherAddress = p.stackHigherAddress)
    (hsize : (p.stackHigherAddress - p.context.rsp).toNat + 4 < 2 ^ 31) :
    Accepts q.receiveStackSeg p.sendStackSeg
      { q with
        context := p.context
        stackLowerAddress := p.context.rsp
        stack := writeAt q.stack p.context.rsp (readAt p.stack p.context.rsp
          (p.stackHigherAddress - p.context.rsp + 4).toNat) } := by
  obtain ⟨hlower, hcount⟩ := getStackSize_fits hsize
  have hint : (UInt32.ofNat (decode (encode 4
      (getStackSize p.stackHigherAddress p.context.rsp).toUInt32.toNat))).toInt32
        = getStackSize p.stackHigherAddress p.context.rsp := by
    rw [decode_encode (UInt32.toNat_lt _), UInt32.ofNat_toNat]
    rfl
  have hcomp : UInt64.ofNat (decode (encode 8 p.context.rsp.toNat)) = p.context.rsp := by
    rw [decode_encode (UInt64.toNat_lt _), UInt64.ofNat_toNat]
  refine .bcast (length_encodeContext _)
    (.bcast (length_encode 4 _) (.bcast (length_encode 8 _) ?_))
  have hback : p.stackHigherAddress - (p.stackHigherAddress - p.context.rsp) = p.context.rsp := by
    grind
  simp only [hint, hcomp, hlower, htop, hback, ne_eq, not_true_eq_false, ↓reduceIte]
  refine .bcast (length_readAt _ _ _) ?_
  rw [decodeContext_encodeContext, hcount]
  exact accepts_pure _

/-! ## The heap -/

/-- The messages as they are received, from turn `i` on. -/
def deliver (malloc : ℕ → Address × Address) : ℕ → List Message → List Delivery
  | _, [] => []
  | i, m :: messages => ⟨m, (malloc i).1, (malloc i).2⟩ :: deliver malloc (i + 1) messages

theorem map_message_deliver (malloc : ℕ → Address × Address) (i : ℕ) (messages : List Message) :
    (deliver malloc i messages).map Delivery.message = messages := by
  induction messages generalizing i with
  | nil => rfl
  | cons m messages ih => rw [deliver, List.map_cons, ih]

theorem exists_deliver (i : ℕ) (deliveries : List Delivery) :
    ∃ malloc, deliver malloc i (deliveries.map Delivery.message) = deliveries := by
  refine ⟨fun k ↦ (deliveries[k - i]?.map fun d ↦ (d.block, d.element)).getD (0, 0), ?_⟩
  suffices hfrom : ∀ (malloc : ℕ → Address × Address) (l : List Delivery) (i : ℕ),
      (∀ k d, l[k]? = some d → malloc (i + k) = (d.block, d.element)) →
        deliver malloc i (l.map Delivery.message) = l by
    refine hfrom _ deliveries i fun k d hd ↦ ?_
    rw [Nat.add_sub_cancel_left, hd]
    rfl
  intro malloc l
  induction l with
  | nil => exact fun _ _ ↦ rfl
  | cons d l ih =>
    intro i hmalloc
    have hfirst := hmalloc 0 d rfl
    rw [List.map_cons, deliver, ih (i + 1) fun k d' hd ↦ ?_]
    · rw [Nat.add_zero] at hfirst
      rw [hfirst]
    · rw [Nat.add_assoc, Nat.add_comm 1 k]
      exact hmalloc (k + 1) d' hd

/-- The message is about a container of `rep_assign_malloc_context`. -/
def IsAlias (m : Message) : Prop := m.size = 0 ∧ m.linkedAddress ≠ 0

/-- The bytes are as many as the count of their broadcast. -/
def HasCount (m : Message) : Prop :=
  ∃ count, Heap.bcastSize m.size = some count ∧ m.bytes.length = count.toNat

/-- **The turns** take the containers and the blocks of the sender, whatever blocks `malloc`
returns. -/
theorem accepts_receiveTurns (malloc : ℕ → Address × Address) (allocatedAddress : Address)
    {messages : List Message} (hlength : ∀ m ∈ messages, ¬IsAlias m → HasCount m)
    (i : ℕ) (h : Heap) {seg : HeapSeg}
    (hseg : ((deliver malloc i messages).map Delivery.incoming).foldlM HeapSeg.receiveTurn h.seg
      = some seg) :
    Accepts (receiveTurns malloc messages.length i h)
      (messages.flatMap (sendTurn allocatedAddress))
      ⟨seg, (deliver malloc i messages).foldl Heap.receiveBlock h.block, h.segments⟩ := by
  induction messages generalizing i h with
  | nil =>
    obtain rfl := Option.some_inj.mp hseg
    exact accepts_pure _
  | cons m messages ih =>
    have hrest : ∀ m ∈ messages, ¬IsAlias m → HasCount m := fun m' hm' ↦
      hlength m' (List.mem_cons_of_mem _ hm')
    rw [deliver, List.map_cons, List.foldlM_cons, Option.bind_eq_bind,
      Option.bind_eq_some_iff] at hseg
    obtain ⟨seg', hturn, hseg⟩ := hseg
    rw [deliver, List.foldl_cons, List.flatMap_cons, List.length_cons, receiveTurns]
    -- all three ask the same of the fields of a message
    have hincoming : (⟨m, (malloc i).1, (malloc i).2⟩ : Delivery).incoming.IsAlias ↔ IsAlias m :=
      Iff.rfl
    have hcontainer : MallocContainer.IsAlias
        ⟨m.containerAddress, m.linkedAddress, allocatedAddress, m.size⟩ ↔ IsAlias m := Iff.rfl
    by_cases halias : IsAlias m
    · rw [HeapSeg.receiveTurn, if_pos (hincoming.mpr halias)] at hturn
      rw [sendTurn, if_pos (hcontainer.mpr halias), Heap.receiveBlock,
        if_pos (hincoming.mpr halias)]
      refine .bcast (length_encodeContainer _) ?_
      rw [decodeContainer_encodeContainer, if_pos (hcontainer.mpr halias)]
      obtain rfl := Option.some_inj.mp hturn
      exact ih hrest (i + 1) _ hseg
    · rw [HeapSeg.receiveTurn, if_neg (hincoming.not.mpr halias)] at hturn
      rw [sendTurn, if_neg (hcontainer.not.mpr halias), Heap.receiveBlock,
        if_neg (hincoming.not.mpr halias)]
      refine .bcast (length_encodeContainer _) ?_
      rw [decodeContainer_encodeContainer, if_neg (hcontainer.not.mpr halias)]
      obtain ⟨count, hcount, hbytes⟩ := hlength m List.mem_cons_self halias
      refine .ofOption hcount (.bcast hbytes (.ofOption hturn ?_))
      exact ih hrest (i + 1) ⟨seg', _, h.segments⟩ hseg

theorem length_deliver (malloc : ℕ → Address × Address) (i : ℕ) (messages : List Message) :
    (deliver malloc i messages).length = messages.length := by
  rw [← List.length_map (f := Delivery.message), map_message_deliver]

theorem accepts_receiveHeapSeg {malloc : ℕ → Address × Address} {messages : List Message} {r : Heap}
    (allocatedAddress : Address) (hcount : p.heap.seg.mallocNumberOfAllocations = messages.length)
    (hint : messages.length < 2 ^ 31)
    (hlength : ∀ m ∈ messages, ¬IsAlias m → HasCount m)
    (hr : q.heap.receiveHeapSeg
      (UInt64.ofNat (decode (encode 4 p.heap.seg.totalMallocAllocationSize.toNat)))
      (deliver malloc 0 messages) = some r) :
    Accepts (q.receiveHeapSeg malloc) (p.sendHeapSeg allocatedAddress messages)
      { q with heap := r } := by
  rw [Heap.receiveHeapSeg, HeapSeg.receiveHeapSeg, Option.bind_eq_bind, Option.bind_eq_some_iff]
    at hr
  obtain ⟨seg, hseg, hr⟩ := hr
  obtain rfl := Option.some_inj.mp hr
  rw [Option.bind_eq_bind, Option.bind_eq_some_iff] at hseg
  obtain ⟨cleared, hclear, hturns⟩ := hseg
  rw [List.length_map, length_deliver] at hturns
  refine .bcast (length_encode 4 _) (.ofOption hclear (.bcast (length_encode 4 _) ?_))
  have hn : (UInt32.ofNat
      (decode (encode 4 p.heap.seg.mallocNumberOfAllocations))).toInt32.toInt.toNat
      = messages.length := by
    rw [hcount, decode_encode (hint.trans (by decide)), toNat_toInt32 hint]
  simp only [hn]
  rw [← List.append_nil (messages.flatMap _)]
  exact (accepts_receiveTurns malloc allocatedAddress hlength 0 _ hturns).bind (accepts_pure _)

/-! ## Replicas -/

/-- `r` has the memory of `p`, with blocks of its own. -/
structure Replica (p r : Image) (entries : List Entry) : Prop where
  data : r.data = p.data
  bss : r.bss = p.bss
  context : r.context = p.context
  stack : ∀ a, a - p.context.rsp < p.stackHigherAddress - p.context.rsp + 4 → r.stack a = p.stack a
  flags : r.passSenderContAdd = p.passSenderContAdd ∧
    r.passReceiverContAdd = p.passReceiverContAdd
  heap : p.heap.Replicates r.heap (entries.map Prod.snd)

/-- The sizes that `init_rep` keeps in an `int`, but those of the blocks. -/
structure Fits (p : Image) : Prop where
  data : p.data.length < 2 ^ 31
  bss : p.bss.length < 2 ^ 31
  stack : (p.stackHigherAddress - p.context.rsp).toNat + 4 < 2 ^ 31
  allocations : p.heap.seg.mallocNumberOfAllocations < 2 ^ 31

/-- The process has the segment addresses of `p`, and any list of its own. -/
structure Joins (q p : Image) : Prop where
  data : q.data.length = p.data.length
  bss : q.bss.length = p.bss.length
  stackHigherAddress : q.stackHigherAddress = p.stackHigherAddress
  segments : q.heap.segments = p.heap.segments
  list : ∃ old, q.heap.seg.Represents old

/-- Any number of receivers become replicas. Each takes part in the broadcasts of the sender, no
more and no fewer. -/
def Replicated (p : Image) (entries : List Entry) : Prop :=
  ∃ messages, p.heap.sendHeapSeg = some messages ∧
    ∀ (allocatedAddress : Address) (q : Image) (malloc : ℕ → Address × Address), q.Joins p →
      Heap.FreshDeliveries (deliver malloc 0 messages) →
        ∃ sent r, p.sendRep allocatedAddress = some sent ∧ Accepts (q.receiveRep malloc) sent r ∧
          p.Replica r entries

theorem sendRep_eq {messages : List Message} (h : p.heap.sendHeapSeg = some messages)
    (allocatedAddress : Address) : p.sendRep allocatedAddress = some (p.sendDataSeg ++
      p.sendStackSeg ++ p.sendHeapSeg allocatedAddress messages ++ p.sendFrameworkData) := by
  rw [sendRep, h]
  rfl

/-- What a receiver ends with, `r` being its heap. -/
def receivedWith (p q : Image) (r : Heap) : Image where
  data := p.data
  bss := p.bss
  stackHigherAddress := q.stackHigherAddress
  stackLowerAddress := p.context.rsp
  stack := writeAt q.stack p.context.rsp (readAt p.stack p.context.rsp
    (p.stackHigherAddress - p.context.rsp + 4).toNat)
  context := p.context
  heap := r
  passSenderContAdd := p.passSenderContAdd
  passReceiverContAdd := p.passReceiverContAdd

theorem replica_receivedWith {r : Heap} {entries : List Entry}
    (hr : p.heap.Replicates r (entries.map Prod.snd)) :
    p.Replica (p.receivedWith q r) entries where
  data := rfl
  bss := rfl
  context := rfl
  stack _ ha := writeAt_readAt _ _ _ _ ha
  flags := ⟨rfl, rfl⟩
  heap := hr

theorem accepts_receiveRep {malloc : ℕ → Address × Address} {messages : List Message} {r : Heap}
    (allocatedAddress : Address) (hq : q.Joins p)
    (hf : p.Fits)
    (hcount : p.heap.seg.mallocNumberOfAllocations = messages.length)
    (hint : messages.length < 2 ^ 31)
    (hlength : ∀ m ∈ messages, ¬IsAlias m → HasCount m)
    (hr : q.heap.receiveHeapSeg
      (UInt64.ofNat (decode (encode 4 p.heap.seg.totalMallocAllocationSize.toNat)))
      (deliver malloc 0 messages) = some r) :
    Accepts (q.receiveRep malloc) (p.sendDataSeg ++ p.sendStackSeg ++
      p.sendHeapSeg allocatedAddress messages ++ p.sendFrameworkData) (p.receivedWith q r) := by
  let q₁ : Image := { q with data := p.data, bss := p.bss }
  have hdata : Accepts q.receiveDataSeg p.sendDataSeg q₁ :=
    accepts_receiveDataSeg hq.data hq.bss hf.data hf.bss
  let q₂ : Image := { q₁ with
    context := p.context
    stackLowerAddress := p.context.rsp
    stack := writeAt q₁.stack p.context.rsp (readAt p.stack p.context.rsp
      (p.stackHigherAddress - p.context.rsp + 4).toNat) }
  have hstack : Accepts q₁.receiveStackSeg p.sendStackSeg q₂ :=
    accepts_receiveStackSeg hq.stackHigherAddress hf.stack
  have hheap : Accepts (q₂.receiveHeapSeg malloc) (p.sendHeapSeg allocatedAddress messages)
      { q₂ with heap := r } := accepts_receiveHeapSeg allocatedAddress hcount hint hlength hr
  have hflags := accepts_receiveFrameworkData (p := p) (q := { q₂ with heap := r })
  rw [List.append_assoc, List.append_assoc]
  exact hdata.bind (hstack.bind (hheap.bind hflags))

/-! ## Built heaps -/

theorem hasCount_of_sendTurn {h : Heap} {c : MallocContainer} {m : Message}
    (hm : h.sendTurn c = some m) (hnot : ¬IsAlias m) : HasCount m := by
  obtain ⟨-, hlinked, hsize⟩ := Heap.fields_of_sendTurn hm
  have hc : ¬c.IsAlias := fun halias ↦ hnot ⟨hsize.trans halias.1, hlinked ▸ halias.2⟩
  rw [h.sendTurn_malloc hc, Option.bind_eq_some_iff] at hm
  obtain ⟨count, hcount, hm⟩ := hm
  obtain ⟨bytes, hbytes, rfl⟩ := Option.map_eq_some_iff.mp hm
  exact ⟨count, hcount, length_of_readBlock hbytes⟩

theorem exists_accepts {memory : Address → Address} {entries : List Entry}
    (hs : p.heap.Sound memory entries) (hf : p.Fits) {messages : List Message}
    (hmessages : p.heap.sendHeapSeg = some messages) (allocatedAddress : Address)
    {malloc : ℕ → Address × Address} (hq : q.Joins p)
    {pairs : List (MallocContainer × Delivery)}
    (hp : p.heap.Paired (entries.map Prod.snd) (deliver malloc 0 messages) pairs)
    (hfresh : Heap.FreshDeliveries (deliver malloc 0 messages)) :
    ∃ sent r, p.sendRep allocatedAddress = some sent ∧
      Accepts (q.receiveRep malloc) sent (p.receivedWith q r) ∧
      r.segments = q.heap.segments ∧
      r.block = (deliver malloc 0 messages).foldl Heap.receiveBlock q.heap.block ∧
      ∀ x, r.seg.memory x = Sum.elim q.heap.seg.memory (fun p ↦ p.2.block)
        (Assignments.origin (pairs.map Heap.pairAssignment) x) := by
  have hpairs : pairs.length = entries.length := by
    have hfst := congrArg List.length hp.containers
    rwa [List.length_map, List.length_map] at hfst
  have hdeliveries : pairs.length = messages.length := by
    have hsnd := congrArg List.length hp.deliveries
    rwa [List.length_map, length_deliver] at hsnd
  have hcount : p.heap.seg.mallocNumberOfAllocations = messages.length :=
    hs.counted.count.trans (hpairs.symm.trans hdeliveries)
  have hlength : ∀ m ∈ messages, ¬IsAlias m → HasCount m := by
    intro m hm hnot
    rw [← map_message_deliver malloc 0 messages, ← hp.deliveries, List.map_map] at hm
    obtain ⟨pair, hmem, rfl⟩ := List.mem_map.mp hm
    exact hasCount_of_sendTurn (hp.sent pair hmem) hnot
  obtain ⟨old, hold⟩ := hq.list
  obtain ⟨r, hr, hsegments, hblock, hmemory⟩ := hp.receiveHeapSeg hold
    (UInt64.ofNat (decode (encode 4 p.heap.seg.totalMallocAllocationSize.toNat))) hfresh
  exact ⟨_, r, sendRep_eq hmessages allocatedAddress,
    accepts_receiveRep allocatedAddress hq hf hcount (hcount ▸ hf.allocations) hlength hr,
    hsegments, hblock, hmemory⟩

/-- What any receiver ends with is enough for the transfer of the heap. -/
theorem Replicated.replayable {memory : Address → Address} {entries : List Entry}
    (hs : p.heap.Sound memory entries) (hf : p.Fits) (h : p.Replicated entries) :
    p.heap.Replayable (entries.map Prod.snd) := by
  obtain ⟨messages, hmessages, hall⟩ := h
  refine Heap.Transfers.replayable hs ⟨messages, hmessages, ?_⟩
  rintro receiver old total deliveries hsegments hold rfl hfresh
  -- a process with the heap of the receiver joins, and `malloc` returns what was delivered
  let q : Image := { p with heap := receiver }
  have hq : q.Joins p := ⟨rfl, rfl, rfl, hsegments, old, hold⟩
  obtain ⟨malloc, hdeliver⟩ := exists_deliver 0 deliveries
  have hsent : (entries.map Prod.snd).mapM p.heap.sendTurn =
      some (deliveries.map Delivery.message) := hs.sendHeapSeg_eq.symm.trans hmessages
  obtain ⟨pairs, hp⟩ := Heap.exists_paired hsent
  obtain ⟨r, hr, hsegments', hblock, hmemory⟩ := hp.receiveHeapSeg hold total hfresh
  refine ⟨r, hr, ?_⟩
  rw [← hdeliver] at hp hfresh
  obtain ⟨sent, r', hsend, haccepts, hreceived, hblock', hmemory'⟩ :=
    exists_accepts hs hf hmessages 0 hq hp hfresh
  obtain ⟨sent', image, hsend', haccepts', hreplica⟩ := hall 0 q malloc hq hfresh
  obtain rfl := Option.some_inj.mp (hsend'.symm.trans hsend)
  obtain rfl := haccepts'.unique haccepts
  refine hreplica.heap.congr (hreceived.trans hsegments'.symm) (hblock'.trans ?_) fun x ↦
    (hmemory' x).trans (hmemory x).symm
  rw [hblock, hdeliver]

end Image

end Checkpoint

end EntangledMPI
