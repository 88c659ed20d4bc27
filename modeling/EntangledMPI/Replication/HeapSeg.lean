import EntangledMPI.Library.LinkedCells
import Mathlib.Algebra.Group.Nat.Defs
import Mathlib.Data.Fintype.Card
import Mathlib.Data.Fintype.EquivFin

/-!
# The list of allocations

`heapseg.c` keeps one cell for every `rep_malloc` and every `rep_assign_malloc_context`, in a doubly
linked list with the globals `head` and `tail`. A pointer is an optional address, `none` being
`NULL`. What `malloc` returns is an argument of the call that asks for it.

`rep_free` has no outcome in the model, `none`, when the code reads or writes a cell that has been
freed, or never leaves its loop. There are `2 ^ 64` addresses, so a walk of more steps than that
goes round in a circle.

A run of calls also has a meaning that knows nothing of cells: `Live`, the entries in insertion
order. `SoundThroughout` compares the two after every call.
-/

namespace EntangledMPI.Replication

open LinkedCells

/-- `address`. -/
abbrev Address := UInt64

structure MallocContainer where
  containerAddress : Address
  linkedAddress : Address
  allocatedAddress : Address
  size : UInt64
  deriving DecidableEq

/-- `Malloc_list`: the container is the content of the cell. -/
abbrev MallocList := Cell Address MallocContainer

/-- The globals of `heapseg.c`, the cells allocated, and the pointer variables of the program.
`freed` records the blocks given back with `free`. -/
structure HeapSeg where
  head : Option Address
  tail : Option Address
  cell : Store Address MallocContainer
  totalMallocAllocationSize : UInt64
  mallocNumberOfAllocations : ℕ
  memory : Address → Address
  freed : List Address

def HeapSeg.initial (memory : Address → Address) : HeapSeg :=
  ⟨none, none, fun _ ↦ none, 0, 0, memory, []⟩

namespace HeapSeg

/-! ## The functions of `heapseg.c` -/

/-- `rep_append`, with the cell `malloc` returns. -/
def repAppend (s : HeapSeg) (container : MallocContainer) (element : Address) : Option HeapSeg :=
  let cell := Function.update s.cell element (some ⟨container, none, s.tail⟩)
  match s.head with
  | none => some { s with cell := cell, head := some element, tail := some element }
  | some _ => do
    let tail ← s.tail
    let cell ← setNext cell tail (some element)
    return { s with cell := cell, tail := some element }

/-- `if(p != NULL) p->prev = q`. -/
def setPrevUnlessNull (cell : Store Address MallocContainer) (p q : Option Address) :
    Option (Store Address MallocContainer) :=
  match p with
  | none => some cell
  | some p => setPrev cell p q

/-- `if(p != NULL) p->next = q`. -/
def setNextUnlessNull (cell : Store Address MallocContainer) (p q : Option Address) :
    Option (Store Address MallocContainer) :=
  match p with
  | none => some cell
  | some p => setNext cell p q

/-- `rep_remove`. -/
def repRemove (s : HeapSeg) (nodeAdd : Address) : Option HeapSeg := do
  let element ← s.cell nodeAdd
  if element.next = none ∧ element.prev = none then
    return { s with cell := Function.update s.cell nodeAdd none, head := none, tail := none }
  else
    let cell ← setPrevUnlessNull s.cell element.next element.prev
    let cell ← setNextUnlessNull cell element.prev element.next
    return { s with cell := Function.update cell nodeAdd none }

/-- The loop of `rep_free` from the cell `temp` on. -/
def repFreeFrom (s : HeapSeg) (contAdd : Address) : ℕ → Option Address → Option HeapSeg
  | _, none => some s
  | 0, some _ => none
  | fuel + 1, some temp => do
    let element ← s.cell temp
    if element.content.containerAddress = contAdd then
      repRemove { s with freed := element.content.allocatedAddress :: s.freed } temp
    else
      repFreeFrom s contAdd fuel element.next

def repFree (s : HeapSeg) (contAdd : Address) : Option HeapSeg :=
  s.repFreeFrom contAdd (2 ^ 64) s.head

/-- `rep_assign_malloc_context`. -/
def repAssignMallocContext (s : HeapSeg) (source dest element : Address) : Option HeapSeg := do
  let s ← repAppend { s with mallocNumberOfAllocations := s.mallocNumberOfAllocations + 1 }
    ⟨dest, source, s.memory source, 0⟩ element
  return { s with memory := Function.update s.memory dest (s.memory source) }

/-- `rep_malloc`, with the block and the cell `malloc` returns. -/
def repMalloc (s : HeapSeg) (container : Address) (size : UInt64) (block element : Address) :
    Option HeapSeg :=
  repAppend
    { s with
      memory := Function.update s.memory container block
      totalMallocAllocationSize := s.totalMallocAllocationSize + size
      mallocNumberOfAllocations := s.mallocNumberOfAllocations + 1 }
    ⟨container, 0, block, size⟩ element

end HeapSeg

/-! ## Runs -/

/-- A call of the program, with what `malloc` returns in it. `assign` is the program's own
assignment to a pointer variable between two calls. -/
inductive Call
  | repMalloc (container : Address) (size : UInt64) (block element : Address)
  | repAssignMallocContext (source dest element : Address)
  | repFree (contAdd : Address)
  | assign (pointer value : Address)
  deriving DecidableEq

def Call.exec (s : HeapSeg) : Call → Option HeapSeg
  | repMalloc container size block element => s.repMalloc container size block element
  | repAssignMallocContext source dest element => s.repAssignMallocContext source dest element
  | repFree contAdd => s.repFree contAdd
  | assign pointer value => some { s with memory := Function.update s.memory pointer value }

def exec (memory : Address → Address) (calls : List Call) : Option HeapSeg :=
  calls.foldlM Call.exec (HeapSeg.initial memory)

/-! ## The entries a run has left live -/

/-- An entry: the address of its cell and what was stored there. -/
abbrev Entry := Address × MallocContainer

/-- What the calls mean: the live entries in insertion order, and the pointer variables. -/
structure Live where
  entries : List Entry
  memory : Address → Address

def Call.live (L : Live) : Call → Live
  | repMalloc container size block element =>
    ⟨L.entries ++ [(element, ⟨container, 0, block, size⟩)],
      Function.update L.memory container block⟩
  | repAssignMallocContext source dest element =>
    ⟨L.entries ++ [(element, ⟨dest, source, L.memory source, 0⟩)],
      Function.update L.memory dest (L.memory source)⟩
  | repFree contAdd => { L with entries := L.entries.eraseP fun e ↦ e.2.containerAddress = contAdd }
  | assign pointer value => { L with memory := Function.update L.memory pointer value }

def live (memory : Address → Address) (calls : List Call) : Live :=
  calls.foldl Call.live ⟨[], memory⟩

/-- `malloc` does not return a cell that is in use. -/
def Call.Allocates (L : Live) : Call → Prop
  | repMalloc _ _ _ element => element ∉ addresses L.entries
  | repAssignMallocContext _ _ element => element ∉ addresses L.entries
  | _ => True

instance (L : Live) : (call : Call) → Decidable (call.Allocates L)
  | .repMalloc _ _ _ element => inferInstanceAs (Decidable (element ∉ addresses L.entries))
  | .repAssignMallocContext _ _ element =>
    inferInstanceAs (Decidable (element ∉ addresses L.entries))
  | .repFree _ => isTrue trivial
  | .assign _ _ => isTrue trivial

/-- `P` holds of every call of a run, given the calls before it. -/
def Throughout (P : List Call → Call → Prop) (calls : List Call) : Prop :=
  ∀ before call, before ++ [call] <+: calls → P before call

/-- Every call of the run gets an unused cell. -/
def Allocates (memory : Address → Address) : List Call → Prop :=
  Throughout fun before call ↦ call.Allocates (live memory before)

/-- The list is in order: both walks visit the live entries, their cells hold what was stored,
`head` and `tail` are `NULL` exactly for no entry, and nothing else can be reached. -/
structure HeapSeg.InOrder (s : HeapSeg) (entries : List Entry) : Prop where
  content : ∀ e ∈ entries, (s.cell e.1).map Cell.content = some e.2
  forward : Visits s.cell Cell.next s.head (addresses entries)
  backward : Visits s.cell Cell.prev s.tail (addresses entries).reverse
  empty : s.head = none ∧ s.tail = none ↔ entries = []
  reachable : ∀ a, Reaches s.cell s.head a ∨ Reaches s.cell s.tail a → a ∈ addresses entries

/-- After every call of the run the list is in order. -/
def SoundThroughout (memory : Address → Address) (calls : List Call) : Prop :=
  ∀ before, before <+: calls →
    ∃ s, exec memory before = some s ∧ s.InOrder (live memory before).entries

/-- `rep_free` removes nothing, the only entry, or an entry with a neighbour on both sides. -/
def KeepsEnds (entries : List Entry) (contAdd : Address) : Prop :=
  ∀ l e l', entries = l ++ e :: l' → (∀ e' ∈ l, e'.2.containerAddress ≠ contAdd) →
    e.2.containerAddress = contAdd → (l = [] ↔ l' = [])

/-- Every `rep_free` of the run does so. -/
def KeepsEndsThroughout (memory : Address → Address) : List Call → Prop :=
  Throughout fun before call ↦
    ∀ contAdd, call = .repFree contAdd → KeepsEnds (live memory before).entries contAdd

end EntangledMPI.Replication
