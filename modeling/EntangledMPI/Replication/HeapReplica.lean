import EntangledMPI.Library.Assignments
import EntangledMPI.Replication.HeapCount

/-!
# What a transfer of the heap gives a replica

`transfer_heap_seg` sends the entries in the order of the list. For an entry of `rep_malloc` it
sends as many bytes as the entry says, from the block the container points to at that moment; for an
entry of `rep_assign_malloc_context` it sends no bytes, and the receiver copies the pointer. The
blocks are therefore looked up where the containers point at the end, and the sizes are those of the
time of the allocation.

The receiver's pointers are the assignments of the list replayed with the blocks of its own
`malloc`, so it shares what the sender shares as soon as every pointer stems from a `rep_malloc`.

Two things are only right within limits. The size of a block, a `size_t`, is the count of a
`PMPI_Bcast`, an `int`. And the receiver accesses the pointer variables under their addresses at the
sender, where it has them only if they lie in the data segments or on the stack: the address of a
variable inside a block is one of the sender's heap.
-/

namespace EntangledMPI.Replication

open LinkedCells Assignments

/-! ## The functions -/

/-- The state of `heapseg.c`, the bytes of the blocks that `malloc` has returned, and the addresses
of the pointer variables in the data segments and on the stack, where `malloc` returns nothing. -/
structure Heap where
  seg : HeapSeg
  block : Address → Option (List UInt8)
  segments : Address → Bool

/-- `container.size == 0 && container.linked_address != 0`. -/
def MallocContainer.IsAlias (c : MallocContainer) : Prop := c.size = 0 ∧ c.linkedAddress ≠ 0

instance (c : MallocContainer) : Decidable c.IsAlias := inferInstanceAs (Decidable (_ ∧ _))

/-- What is broadcast in one turn: the container, whose `allocated_address` is not set, and the
bytes of the block. -/
structure Message where
  containerAddress : Address
  linkedAddress : Address
  size : UInt64
  bytes : List UInt8
  deriving DecidableEq

/-- A message as it is received, with the block and the cell `malloc` returns. -/
structure Delivery where
  message : Message
  block : Address
  element : Address

def Delivery.incoming (d : Delivery) : Incoming :=
  ⟨d.message.containerAddress, d.message.linkedAddress, d.message.size, d.block, d.element⟩

namespace Heap

/-- The first `size` bytes of the block at `a`, if it has so many. -/
def readBlock (h : Heap) (a : Address) (size : UInt64) : Option (List UInt8) :=
  if size = 0 then some []
  else do
    let bytes ← h.block a
    if size.toNat ≤ bytes.length then some (bytes.take size.toNat) else none

/-- `container.size` as the count of `PMPI_Bcast`, which refuses a negative one. -/
def bcastSize (size : UInt64) : Option UInt64 :=
  if size.toUInt32.toInt32 < 0 then none else some size.toUInt32.toUInt64

/-- One turn of `transfer_heap_seg` at rank `0`. -/
def sendTurn (h : Heap) (c : MallocContainer) : Option Message :=
  if c.IsAlias then some ⟨c.containerAddress, c.linkedAddress, c.size, []⟩
  else do
    let count ← bcastSize c.size
    let bytes ← h.readBlock (h.seg.memory c.containerAddress) count
    return ⟨c.containerAddress, c.linkedAddress, c.size, bytes⟩

/-- `transfer_heap_seg` at rank `0`. -/
def sendHeapSeg (h : Heap) : Option (List Message) := do
  let containers ← h.seg.sentContainers
  containers.mapM h.sendTurn

/-- The block that is filled in one turn at a receiver. Nothing initialises it behind the bytes
received. -/
def receiveBlock (block : Address → Option (List UInt8)) (d : Delivery) :
    Address → Option (List UInt8) :=
  if d.incoming.IsAlias then block else Function.update block d.block (some d.message.bytes)

/-- `transfer_heap_seg` at a receiver. -/
def receiveHeapSeg (h : Heap) (total : UInt64) (deliveries : List Delivery) : Option Heap := do
  let seg ← h.seg.receiveHeapSeg total (deliveries.map Delivery.incoming)
  return ⟨seg, deliveries.foldl receiveBlock h.block, h.segments⟩

/-- The heaps that `rep_malloc` and `rep_assign_malloc_context` build, with the program writing into
its blocks in between. `malloc` succeeds and returns no block or cell in use, and the addresses of
pointer variables are not `NULL`. -/
inductive Built (memory : Address → Address) : Heap → Prop
  | start (segments : Address → Bool) :
    Built memory ⟨HeapSeg.initial memory, fun _ ↦ none, segments⟩
  | repMalloc {h : Heap} {container : Address} {size : UInt64} {block element : Address}
      {seg : HeapSeg} {bytes : List UInt8} (hbuilt : Built memory h)
      (hlength : bytes.length = size.toNat) (hblock : block ≠ 0) (hnew : h.block block = none)
      (helement : h.seg.cell element = none)
      (hexec : h.seg.repMalloc container size block element = some seg) :
      Built memory ⟨seg, Function.update h.block block (some bytes), h.segments⟩
  | repAssignMallocContext {h : Heap} {source dest element : Address} {seg : HeapSeg}
      (hbuilt : Built memory h) (hsource : source ≠ 0) (helement : h.seg.cell element = none)
      (hexec : h.seg.repAssignMallocContext source dest element = some seg) :
      Built memory ⟨seg, h.block, h.segments⟩
  | write {h : Heap} {block : Address} {bytes bytes' : List UInt8} (hbuilt : Built memory h)
      (hold : h.block block = some bytes) (hlength : bytes'.length = bytes.length) :
      Built memory ⟨h.seg, Function.update h.block block (some bytes'), h.segments⟩

/-! ## Replication -/

/-- The pointer variables that a turn of a receiver accesses lie in the segments. -/
def HasVariables (h : Heap) (c : MallocContainer) : Prop :=
  h.segments c.containerAddress = true ∧ (c.IsAlias → h.segments c.linkedAddress = true)

/-- At the receiver every container is a pointer variable, and points to a block that has the bytes
of the sender's block, and two containers share a block exactly if they do at the sender. -/
structure Replicates (h r : Heap) (containers : List MallocContainer) : Prop where
  placed : ∀ c ∈ containers, r.HasVariables c
  bytes : ∀ c ∈ containers, ∃ l l', h.block (h.seg.memory c.containerAddress) = some l ∧
    r.block (r.seg.memory c.containerAddress) = some l' ∧ l <+: l'
  sharing : ∀ c ∈ containers, ∀ c' ∈ containers,
    (r.seg.memory c.containerAddress = r.seg.memory c'.containerAddress ↔
      h.seg.memory c.containerAddress = h.seg.memory c'.containerAddress)

/-- `malloc` returns new cells and new blocks to the receiver. -/
structure FreshDeliveries (deliveries : List Delivery) : Prop where
  elements : (receivedElements (deliveries.map Delivery.incoming)).Nodup
  blocks : deliveries.Pairwise fun d d' ↦
    ¬d.incoming.IsAlias → ¬d'.incoming.IsAlias → d.block ≠ d'.block

/-- The sender reads no byte behind the end of a block, and every receiver with the same segments
has a replica in the end. -/
def Transfers (h : Heap) (containers : List MallocContainer) : Prop :=
  ∃ messages, h.sendHeapSeg = some messages ∧
    ∀ (receiver : Heap) (old : List Entry) (total : UInt64) (deliveries : List Delivery),
      receiver.segments = h.segments → receiver.seg.Represents old →
        deliveries.map Delivery.message = messages → FreshDeliveries deliveries →
          ∃ r, receiver.receiveHeapSeg total deliveries = some r ∧ h.Replicates r containers

end Heap

/-! ## Pointers as assignments -/

/-- What an entry does to the pointers, `b` being the name of its block. -/
def assignmentOf {B : Type*} (linkedAddress containerAddress : Address) (size : UInt64) (b : B) :
    Assignment Address B :=
  if size = 0 ∧ linkedAddress ≠ 0 then .copy linkedAddress containerAddress
  else .fresh containerAddress b

section

variable {B C : Type*} {linkedAddress : Address} (containerAddress : Address) {size : UInt64}
  (b : B)

theorem assignmentOf_alias (h : size = 0 ∧ linkedAddress ≠ 0) :
    assignmentOf linkedAddress containerAddress size b = .copy linkedAddress containerAddress :=
  if_pos h

theorem assignmentOf_malloc (h : ¬(size = 0 ∧ linkedAddress ≠ 0)) :
    assignmentOf linkedAddress containerAddress size b = .fresh containerAddress b :=
  if_neg h

theorem assignmentOf_rename (g : B → C) :
    (assignmentOf linkedAddress containerAddress size b).rename g =
      assignmentOf linkedAddress containerAddress size (g b) := by
  rw [assignmentOf, assignmentOf]
  split <;> rfl

theorem eq_of_assignmentOf_eq_fresh {x : Address} {b' : B}
    (h : assignmentOf linkedAddress containerAddress size b = .fresh x b') :
    ¬(size = 0 ∧ linkedAddress ≠ 0) ∧ b = b' := by
  by_cases halias : size = 0 ∧ linkedAddress ≠ 0
  · rw [assignmentOf_alias _ _ halias] at h
    exact nomatch h
  · rw [assignmentOf_malloc _ _ halias] at h
    exact ⟨halias, (Assignment.fresh.inj h).2⟩

end

def MallocContainer.assignment (c : MallocContainer) : Assignment Address MallocContainer :=
  assignmentOf c.linkedAddress c.containerAddress c.size c

def Incoming.assignment (m : Incoming) : Assignment Address Incoming :=
  assignmentOf m.linkedAddress m.containerAddress m.size m

theorem memory_receiveHeapSeg (L : Live) (entries : List Incoming) :
    (L.receiveHeapSeg entries).memory =
      replay Incoming.block L.memory (entries.map Incoming.assignment) := by
  suffices h : ∀ L : Live, (entries.foldl Live.receiveTurn L).memory =
      replay Incoming.block L.memory (entries.map Incoming.assignment) from
    h { L with entries := [] }
  induction entries with
  | nil => exact fun L ↦ rfl
  | cons m entries ih =>
    intro L
    rw [List.foldl_cons, ih, List.map_cons, replay, replay, List.foldl_cons]
    congr 1
    by_cases halias : m.IsAlias
    · rw [Live.receiveTurn, if_pos halias, Incoming.assignment, assignmentOf_alias _ _ halias]
      rfl
    · rw [Live.receiveTurn, if_neg halias, Incoming.assignment, assignmentOf_malloc _ _ halias]
      rfl

namespace Heap

/-- The condition: the variables of the list lie in the segments; every container has its pointer
from a `rep_malloc`; the block it points to is as large as the count that the size of its entry
gives; and if a container still points to the entry's own block, the size is an `int` and the block
begins with the bytes of that one. -/
structure Replayable (h : Heap) (containers : List MallocContainer) : Prop where
  placed : ∀ c ∈ containers, h.HasVariables c
  traced : ∀ c ∈ containers, ∃ e,
    origin (containers.map MallocContainer.assignment) c.containerAddress = Sum.inr e
  fits : ∀ c ∈ containers, ¬c.IsAlias → ∃ count, bcastSize c.size = some count ∧ ∀ l,
    h.block (h.seg.memory c.containerAddress) = some l → count.toNat ≤ l.length
  kept : ∀ c ∈ containers, ¬c.IsAlias →
    (∃ c' ∈ containers, h.seg.memory c'.containerAddress = c.allocatedAddress) →
      c.size.toNat < 2 ^ 31 ∧ ∀ l l₀, h.block (h.seg.memory c.containerAddress) = some l →
        h.block c.allocatedAddress = some l₀ → l₀ <+: l

/-- What a built heap has in common with the list of its entries. -/
structure Sound (memory : Address → Address) (h : Heap) (entries : List Entry) : Prop where
  counted : h.seg.Counted ⟨entries, h.seg.memory⟩
  memory : h.seg.memory = replay MallocContainer.allocatedAddress memory
    ((entries.map Prod.snd).map MallocContainer.assignment)
  block : ∀ c ∈ entries.map Prod.snd, ¬c.IsAlias → c.allocatedAddress ≠ 0 ∧
    ∃ l, h.block c.allocatedAddress = some l ∧ l.length = c.size.toNat
  distinct : (entries.map Prod.snd).Pairwise fun c c' ↦
    ¬c.IsAlias → ¬c'.IsAlias → c.allocatedAddress ≠ c'.allocatedAddress

/-! ## Built heaps -/

theorem notMem_of_cell_none {s : HeapSeg} {entries : List Entry} (h : s.Represents entries)
    {element : Address} (hnone : s.cell element = none) : element ∉ addresses entries := by
  intro hmem
  obtain ⟨c, hc⟩ := h.linked.isSome hmem
  exact absurd (hnone.symm.trans hc) (by simp)

theorem Sound.counted_append {memory : Address → Address} {h : Heap} {entries : List Entry}
    (hs : h.Sound memory entries) (call : Call) {seg : HeapSeg} {e : Entry}
    (hlive : (call.live ⟨entries, h.seg.memory⟩).entries = entries ++ [e])
    (halloc : call.Allocates ⟨entries, h.seg.memory⟩)
    (hkeeps : (HeapCall.call call).KeepsCount ⟨entries, h.seg.memory⟩)
    (hexec : call.exec h.seg = some seg) :
    seg.Counted ⟨entries ++ [e], seg.memory⟩ ∧
      seg.memory = (call.live ⟨entries, h.seg.memory⟩).memory := by
  obtain ⟨seg', hseg', hcounted⟩ := hs.counted.call halloc hkeeps
  obtain rfl := Option.some_inj.mp (hexec.symm.trans hseg')
  have hrep := hcounted.follows.represents
  have hcount := hcounted.count
  rw [hlive] at hrep hcount
  exact ⟨⟨⟨hrep, rfl⟩, hcount⟩, hcounted.follows.memory⟩

namespace Sound

variable {memory : Address → Address} {h : Heap} {entries : List Entry}

theorem repMalloc (hs : h.Sound memory entries) {container block element : Address} {size : UInt64}
    {seg : HeapSeg} {bytes : List UInt8} (hlength : bytes.length = size.toNat) (hblock : block ≠ 0)
    (hnew : h.block block = none) (helement : h.seg.cell element = none)
    (hexec : h.seg.repMalloc container size block element = some seg) :
    Sound memory ⟨seg, Function.update h.block block (some bytes), h.segments⟩
      (entries ++ [(element, ⟨container, 0, block, size⟩)]) := by
  have hcell := notMem_of_cell_none hs.counted.follows.represents helement
  obtain ⟨hcounted, hmemory⟩ := hs.counted_append (.repMalloc container size block element)
    (e := (element, ⟨container, 0, block, size⟩)) rfl hcell trivial hexec
  -- `malloc` returns a block that no earlier entry has
  have hne : ∀ c ∈ entries.map Prod.snd, ¬c.IsAlias → c.allocatedAddress ≠ block := by
    rintro c hc halias rfl
    obtain ⟨-, l, hl, -⟩ := hs.block c hc halias
    exact absurd (hnew.symm.trans hl) (by simp)
  have halias : ¬MallocContainer.IsAlias ⟨container, 0, block, size⟩ := fun h ↦ h.2 rfl
  refine ⟨hcounted, ?_, ?_, ?_⟩
  · rw [hmemory, List.map_append, List.map_append, List.map_singleton, List.map_singleton,
      replay_concat, ← hs.memory, MallocContainer.assignment, assignmentOf_malloc _ _ halias]
    rfl
  · intro c hc hnot
    rw [List.map_append, List.mem_append] at hc
    rcases hc with hc | hc
    · obtain ⟨hzero, l, hl, hlen⟩ := hs.block c hc hnot
      exact ⟨hzero, l, (Function.update_of_ne (hne c hc hnot) _ _).trans hl, hlen⟩
    · obtain rfl := List.mem_singleton.mp hc
      exact ⟨hblock, bytes, Function.update_self _ _ _, hlength⟩
  · rw [List.map_append, List.pairwise_append]
    refine ⟨hs.distinct, List.pairwise_singleton _ _, ?_⟩
    intro c hc c' hc' hnot _
    obtain rfl := List.mem_singleton.mp hc'
    exact hne c hc hnot

theorem repAssignMallocContext (hs : h.Sound memory entries) {source dest element : Address}
    {seg : HeapSeg} (hsource : source ≠ 0) (helement : h.seg.cell element = none)
    (hexec : h.seg.repAssignMallocContext source dest element = some seg) :
    Sound memory ⟨seg, h.block, h.segments⟩
      (entries ++ [(element, ⟨dest, source, h.seg.memory source, 0⟩)]) := by
  have hcell := notMem_of_cell_none hs.counted.follows.represents helement
  have halias : MallocContainer.IsAlias ⟨dest, source, h.seg.memory source, 0⟩ := ⟨rfl, hsource⟩
  obtain ⟨hcounted, hmemory⟩ := hs.counted_append (.repAssignMallocContext source dest element)
    (e := (element, ⟨dest, source, h.seg.memory source, 0⟩)) rfl hcell trivial hexec
  -- the new entry is an alias, so those with a block of their own are the old ones
  have hlast : ∀ c ∈ List.map Prod.snd
      (entries ++ [(element, MallocContainer.mk dest source (h.seg.memory source) 0)]),
        ¬c.IsAlias → c ∈ entries.map Prod.snd := by
    intro c hc hnot
    rw [List.map_append, List.mem_append] at hc
    rcases hc with hc | hc
    · exact hc
    · obtain rfl := List.mem_singleton.mp hc
      exact absurd halias hnot
  refine ⟨hcounted, ?_, fun c hc hnot ↦ hs.block c (hlast c hc hnot) hnot, ?_⟩
  · rw [hmemory, List.map_append, List.map_append, List.map_singleton, List.map_singleton,
      replay_concat, ← hs.memory, MallocContainer.assignment, assignmentOf_alias _ _ halias]
    rfl
  · rw [List.map_append, List.pairwise_append]
    refine ⟨hs.distinct, List.pairwise_singleton _ _, ?_⟩
    intro c _ c' hc' _ hnot
    obtain rfl := List.mem_singleton.mp hc'
    exact absurd halias hnot

theorem write (hs : h.Sound memory entries) {block : Address} {bytes bytes' : List UInt8}
    (hold : h.block block = some bytes) (hlength : bytes'.length = bytes.length) :
    Sound memory ⟨h.seg, Function.update h.block block (some bytes'), h.segments⟩ entries := by
  refine ⟨hs.counted, hs.memory, ?_, hs.distinct⟩
  intro c hc hnot
  obtain ⟨hzero, l, hl, hlen⟩ := hs.block c hc hnot
  refine ⟨hzero, ?_⟩
  by_cases heq : c.allocatedAddress = block
  · rw [heq] at hl ⊢
    obtain rfl := Option.some_inj.mp (hold.symm.trans hl)
    exact ⟨bytes', Function.update_self _ _ _, hlength.trans hlen⟩
  · exact ⟨l, (Function.update_of_ne heq _ _).trans hl, hlen⟩

end Sound

/-- **A built heap** is sound. -/
theorem Built.sound {memory : Address → Address} {h : Heap} (hb : h.Built memory) :
    ∃ entries, h.Sound memory entries := by
  induction hb with
  | start segments => exact ⟨[], HeapSeg.counted_initial memory, rfl, by simp, by simp⟩
  | repMalloc _ hlength hblock hnew helement hexec ih =>
    obtain ⟨entries, hs⟩ := ih
    exact ⟨_, hs.repMalloc hlength hblock hnew helement hexec⟩
  | repAssignMallocContext _ hsource helement hexec ih =>
    obtain ⟨entries, hs⟩ := ih
    exact ⟨_, hs.repAssignMallocContext hsource helement hexec⟩
  | write _ hold hlength ih =>
    obtain ⟨entries, hs⟩ := ih
    exact ⟨entries, hs.write hold hlength⟩

end Heap

end EntangledMPI.Replication
