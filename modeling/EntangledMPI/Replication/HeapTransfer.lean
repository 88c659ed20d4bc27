import EntangledMPI.Replication.HeapList

/-!
# The list of allocations at another process

`transfer_heap_seg` rebuilds the list of rank `0` at the other ranks, and `restore_heap_seg`
rebuilds it from a checkpoint. Both trust `malloc_number_of_allocations` to say how many entries
there are. The sender walks that many cells; a receiver clears its own list, takes over the number,
and appends what it gets, except for an entry without size that has a linked address: for that it
only copies the pointer. `restore_heap_seg` appends every entry.

What `malloc` returns in a turn is part of what the turn receives.
-/

namespace EntangledMPI.Replication

open LinkedCells

/-! ## The functions -/

/-- What the loop of a receiver works on in one turn, with the block and the cell `malloc`
returns. -/
structure Incoming where
  containerAddress : Address
  linkedAddress : Address
  size : UInt64
  block : Address
  element : Address
  deriving DecidableEq

/-- The entry is treated as one of `rep_assign_malloc_context`. -/
def Incoming.IsAlias (m : Incoming) : Prop := m.size = 0 ∧ m.linkedAddress ≠ 0

instance (m : Incoming) : Decidable m.IsAlias := inferInstanceAs (Decidable (_ ∧ _))

/-- `PMPI_Bcast` of one `MPI_INT` into a `size_t` writes its lower half. -/
def bcastInt (old new : UInt64) : UInt64 := (old >>> 32) <<< 32 ||| (new <<< 32) >>> 32

namespace HeapSeg

/-- The walk of the sender from the cell `temp` on, over as many cells as it has counted. -/
def sentFrom (s : HeapSeg) : ℕ → Option Address → Option (List MallocContainer)
  | 0, _ => some []
  | _ + 1, none => none
  | n + 1, some temp => do
    let element ← s.cell temp
    let rest ← sentFrom s n element.next
    return element.content :: rest

/-- The containers `transfer_heap_seg` broadcasts at rank `0`. -/
def sentContainers (s : HeapSeg) : Option (List MallocContainer) :=
  s.sentFrom s.mallocNumberOfAllocations s.head

/-- The loop of `rep_clear_discontiguous` from the cell `temp` on. -/
def repClearFrom (s : HeapSeg) : ℕ → Option Address → Option HeapSeg
  | _, none => some { s with head := none, tail := none, mallocNumberOfAllocations := 0 }
  | 0, some _ => none
  | fuel + 1, some temp => do
    let element ← s.cell temp
    repClearFrom
      { s with
        cell := Function.update s.cell temp none
        freed := element.content.allocatedAddress :: s.freed }
      fuel element.next

def repClearDiscontiguous (s : HeapSeg) : Option HeapSeg := s.repClearFrom (2 ^ 64) s.head

/-- Allocate a block for the container and append its entry. -/
def place (s : HeapSeg) (m : Incoming) : Option HeapSeg :=
  repAppend { s with memory := Function.update s.memory m.containerAddress m.block }
    ⟨m.containerAddress, m.linkedAddress, m.block, m.size⟩ m.element

/-- One turn of `transfer_heap_seg` at a receiver. -/
def receiveTurn (s : HeapSeg) (m : Incoming) : Option HeapSeg :=
  if m.IsAlias then
    some { s with memory := Function.update s.memory m.containerAddress (s.memory m.linkedAddress) }
  else s.place m

/-- `transfer_heap_seg` at a receiver, from the total of the sender on. -/
def receiveHeapSeg (s : HeapSeg) (total : UInt64) (entries : List Incoming) : Option HeapSeg := do
  let s ← repClearDiscontiguous
    { s with totalMallocAllocationSize := bcastInt s.totalMallocAllocationSize total }
  entries.foldlM receiveTurn { s with mallocNumberOfAllocations := entries.length }

/-- `restore_heap_seg`. -/
def restoreHeapSeg (s : HeapSeg) (entries : List Incoming) : Option HeapSeg :=
  entries.foldlM place { s with mallocNumberOfAllocations := entries.length }

end HeapSeg

/-! ## What they mean -/

namespace Live

/-- A container gets a new block, and an entry for it. -/
def place (L : Live) (m : Incoming) : Live :=
  ⟨L.entries ++ [(m.element, ⟨m.containerAddress, m.linkedAddress, m.block, m.size⟩)],
    Function.update L.memory m.containerAddress m.block⟩

def receiveTurn (L : Live) (m : Incoming) : Live :=
  if m.IsAlias then
    { L with memory := Function.update L.memory m.containerAddress (L.memory m.linkedAddress) }
  else L.place m

def receiveHeapSeg (L : Live) (entries : List Incoming) : Live :=
  entries.foldl receiveTurn { L with entries := [] }

def restoreHeapSeg (L : Live) (entries : List Incoming) : Live := entries.foldl place L

end Live

/-- The cells a receiver is given. -/
def receivedElements (entries : List Incoming) : List Address :=
  (entries.filter fun m ↦ ¬m.IsAlias).map Incoming.element

theorem receivedElements_cons_of_alias (entries : List Incoming) {m : Incoming} (h : m.IsAlias) :
    receivedElements (m :: entries) = receivedElements entries := by
  rw [receivedElements, List.filter_cons_of_neg (by simpa using h), receivedElements]

theorem receivedElements_cons_of_not (entries : List Incoming) {m : Incoming} (h : ¬m.IsAlias) :
    receivedElements (m :: entries) = m.element :: receivedElements entries := by
  rw [receivedElements, List.filter_cons_of_pos (by simpa using h), List.map_cons, receivedElements]

/-! ## The cells follow -/

namespace HeapSeg

/-- The cells hold the live entries, and the pointer variables are the same. -/
structure Follows (s : HeapSeg) (L : Live) : Prop where
  represents : s.Represents L.entries
  memory : s.memory = L.memory

theorem count_repAppend {s s' : HeapSeg} {container : MallocContainer} {element : Address}
    (h : s.repAppend container element = some s') :
    s'.mallocNumberOfAllocations = s.mallocNumberOfAllocations := by
  rw [repAppend] at h
  split at h
  · rw [← Option.some_inj.mp h]
  · simp only [Option.bind_eq_bind, Option.bind_eq_some_iff] at h
    obtain ⟨tail, -, cell, -, h⟩ := h
    rw [← Option.some_inj.mp h]

namespace Follows

variable {s : HeapSeg} {L : Live}

theorem place (h : s.Follows L) {m : Incoming} (hnew : m.element ∉ addresses L.entries) :
    ∃ s', s.place m = some s' ∧ s'.Follows (L.place m) ∧
      s'.mallocNumberOfAllocations = s.mallocNumberOfAllocations := by
  have hs : HeapSeg.Represents
      { s with memory := Function.update s.memory m.containerAddress m.block } L.entries :=
    ⟨h.represents.linked, h.represents.nodup, h.represents.head, h.represents.tail⟩
  obtain ⟨s', hs', hmem, hrep⟩ :=
    hs.repAppend hnew ⟨m.containerAddress, m.linkedAddress, m.block, m.size⟩
  have hcount := count_repAppend hs'
  exact ⟨s', hs', ⟨hrep, by rw [hmem, Live.place, h.memory]⟩, hcount⟩

theorem receiveTurn (h : s.Follows L) {m : Incoming}
    (hnew : ¬m.IsAlias → m.element ∉ addresses L.entries) :
    ∃ s', s.receiveTurn m = some s' ∧ s'.Follows (L.receiveTurn m) ∧
      s'.mallocNumberOfAllocations = s.mallocNumberOfAllocations := by
  rw [HeapSeg.receiveTurn, Live.receiveTurn]
  by_cases halias : m.IsAlias
  · rw [if_pos halias, if_pos halias]
    refine ⟨_, rfl, ⟨?_, by rw [h.memory]⟩, rfl⟩
    exact ⟨h.represents.linked, h.represents.nodup, h.represents.head, h.represents.tail⟩
  · rw [if_neg halias, if_neg halias]
    exact h.place (hnew halias)

theorem foldlM_place (h : s.Follows L) {entries : List Incoming}
    (hnew : (addresses L.entries ++ entries.map Incoming.element).Nodup) :
    ∃ s', entries.foldlM HeapSeg.place s = some s' ∧ s'.Follows (L.restoreHeapSeg entries) ∧
      s'.mallocNumberOfAllocations = s.mallocNumberOfAllocations := by
  induction entries generalizing s L with
  | nil => exact ⟨s, rfl, h, rfl⟩
  | cons m entries ih =>
    rw [List.map_cons, ← List.singleton_append, ← List.append_assoc] at hnew
    have hfirst : m.element ∉ addresses L.entries := fun hmem ↦
      List.disjoint_left.mp (List.disjoint_of_nodup_append hnew.of_append_left) hmem
        List.mem_cons_self
    obtain ⟨s₁, hs₁, hfollows, hcount⟩ := h.place hfirst
    obtain ⟨s', hs', hfollows', hcount'⟩ := ih hfollows (by simpa [Live.place] using hnew)
    refine ⟨s', ?_, hfollows', hcount'.trans hcount⟩
    rw [List.foldlM_cons, hs₁]
    exact hs'

theorem foldlM_receiveTurn (h : s.Follows L) {entries : List Incoming}
    (hnew : (addresses L.entries ++ receivedElements entries).Nodup) :
    ∃ s', entries.foldlM HeapSeg.receiveTurn s = some s' ∧
      s'.Follows (entries.foldl Live.receiveTurn L) ∧
        s'.mallocNumberOfAllocations = s.mallocNumberOfAllocations := by
  induction entries generalizing s L with
  | nil => exact ⟨s, rfl, h, rfl⟩
  | cons m entries ih =>
    have hfirst : ¬m.IsAlias → m.element ∉ addresses L.entries := by
      intro halias hmem
      rw [receivedElements_cons_of_not entries halias] at hnew
      exact List.disjoint_left.mp (List.disjoint_of_nodup_append hnew) hmem List.mem_cons_self
    obtain ⟨s₁, hs₁, hfollows, hcount⟩ := h.receiveTurn hfirst
    have hrest : (addresses (L.receiveTurn m).entries ++ receivedElements entries).Nodup := by
      by_cases halias : m.IsAlias
      · rw [receivedElements_cons_of_alias entries halias] at hnew
        rwa [Live.receiveTurn, if_pos halias]
      · rw [receivedElements_cons_of_not entries halias] at hnew
        rw [Live.receiveTurn, if_neg halias]
        simpa [Live.place] using hnew
    obtain ⟨s', hs', hfollows', hcount'⟩ := ih hfollows hrest
    refine ⟨s', ?_, hfollows', hcount'.trans hcount⟩
    rw [List.foldlM_cons, hs₁]
    exact hs'

end Follows

/-! ## Clearing and walking -/

theorem repClearFrom_eq {s : HeapSeg} {before : Option Address} {entries : List Entry}
    (h : Linked s.cell before entries none) (hnodup : (addresses entries).Nodup) {fuel : ℕ}
    (hfuel : entries.length ≤ fuel) :
    ∃ s', s.repClearFrom fuel (entries.head?.map Prod.fst) = some s' ∧
      s'.Follows ⟨[], s.memory⟩ ∧ s'.mallocNumberOfAllocations = 0 := by
  induction entries generalizing s before fuel with
  | nil =>
    refine ⟨{ s with head := none, tail := none, mallocNumberOfAllocations := 0 }, ?_,
      ⟨⟨trivial, List.nodup_nil, rfl, rfl⟩, rfl⟩, rfl⟩
    cases fuel <;> rfl
  | cons e l ih =>
    obtain ⟨fuel, rfl⟩ : ∃ k, fuel = k + 1 := ⟨fuel - 1, by simp at hfuel; omega⟩
    obtain ⟨hnew, hnodup⟩ := List.nodup_cons.mp hnodup
    rw [List.head?_cons, Option.map_some, repClearFrom, h.1, Option.bind_eq_bind, Option.bind_some,
      Option.or_none]
    exact ih (h.2.update_of_notMem hnew none) hnodup (by simpa using hfuel)

theorem Represents.repClearDiscontiguous {s : HeapSeg} {entries : List Entry}
    (h : s.Represents entries) :
    ∃ s', s.repClearDiscontiguous = some s' ∧ s'.Follows ⟨[], s.memory⟩ ∧
      s'.mallocNumberOfAllocations = 0 := by
  have hclear := repClearFrom_eq h.linked h.nodup (length_le_of_nodup h.nodup)
  rwa [← h.head] at hclear

/-- The sender's walk over as many cells as there are entries. -/
theorem sentFrom_eq {s : HeapSeg} {before : Option Address} {entries : List Entry}
    (h : Linked s.cell before entries none) :
    s.sentFrom entries.length (entries.head?.map Prod.fst) = some (entries.map Prod.snd) := by
  induction entries generalizing before with
  | nil => rfl
  | cons e l ih =>
    rw [List.length_cons, List.head?_cons, Option.map_some, sentFrom, h.1, Option.bind_eq_bind,
      Option.bind_some, Option.or_none, ih h.2]
    rfl

namespace Follows

variable {s : HeapSeg} {L : Live}

/-- **A receiver** gets the entries that are no aliases, and the number the sender has counted. -/
theorem receiveHeapSeg (h : s.Follows L) (total : UInt64) {entries : List Incoming}
    (hnew : (receivedElements entries).Nodup) :
    ∃ s', s.receiveHeapSeg total entries = some s' ∧ s'.Follows (L.receiveHeapSeg entries) ∧
      s'.mallocNumberOfAllocations = entries.length := by
  have htotal : HeapSeg.Represents
      { s with totalMallocAllocationSize := bcastInt s.totalMallocAllocationSize total }
      L.entries :=
    ⟨h.represents.linked, h.represents.nodup, h.represents.head, h.represents.tail⟩
  obtain ⟨s₁, hs₁, hfollows, -⟩ := htotal.repClearDiscontiguous
  have hstart : HeapSeg.Follows { s₁ with mallocNumberOfAllocations := entries.length }
      { L with entries := [] } :=
    ⟨⟨trivial, List.nodup_nil, hfollows.represents.head, hfollows.represents.tail⟩,
      hfollows.memory.trans h.memory⟩
  obtain ⟨s', hs', hfollows', hcount⟩ := hstart.foldlM_receiveTurn hnew
  refine ⟨s', ?_, hfollows', hcount⟩
  rw [HeapSeg.receiveHeapSeg, hs₁]
  exact hs'

/-- **A restore** appends every entry of the checkpoint. -/
theorem restoreHeapSeg (h : s.Follows L) {entries : List Incoming}
    (hnew : (addresses L.entries ++ entries.map Incoming.element).Nodup) :
    ∃ s', s.restoreHeapSeg entries = some s' ∧ s'.Follows (L.restoreHeapSeg entries) ∧
      s'.mallocNumberOfAllocations = entries.length := by
  have hstart : HeapSeg.Follows { s with mallocNumberOfAllocations := entries.length } L :=
    ⟨⟨h.represents.linked, h.represents.nodup, h.represents.head, h.represents.tail⟩, h.memory⟩
  exact hstart.foldlM_place hnew

end Follows

end HeapSeg

end EntangledMPI.Replication
