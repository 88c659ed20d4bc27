import EntangledMPI.Checkpoint.FullContext

/-!
# Reading a checkpoint in step

Every section of the file has a length that its own first bytes tell, so each reading function takes
from the stream exactly what its writing function has put there. What it makes of a process is said
section by section; for the heap, the entries and the bytes written for them are the records of the
file, and a turn of the loop is a record with the block and the cell it is given.
-/

namespace EntangledMPI.Checkpoint

open LinkedCells ByteStream Replication

/-! ## Structures -/

theorem decodeContext_encodeContext (c : Context) : decodeContext (encodeContext c) = c := by
  rw [decodeContext, encodeContext, word_encodeWords rfl, word_encodeWords rfl,
    word_encodeWords rfl]

theorem decodeContainer_encodeContainer (c : MallocContainer) :
    decodeContainer (encodeContainer c) = c := by
  rw [decodeContainer, encodeContainer, word_encodeWords rfl, word_encodeWords rfl,
    word_encodeWords rfl, word_encodeWords rfl]

theorem length_encodeContext (c : Context) : (encodeContext c).length = 24 :=
  length_encodeWords _

theorem length_encodeContainer (c : MallocContainer) : (encodeContainer c).length = 32 :=
  length_encodeWords _

theorem length_readAt (m : Address → UInt8) (a : Address) (n : ℕ) : (readAt m a n).length = n := by
  rw [readAt, List.length_map, List.length_range]

/-! ## Segments -/

namespace Image

variable {p q : Image} (u : Unspecified) (rest : List UInt8) (eof : Bool)

theorem freadWord_length {n : ℕ} (hn : n < 2 ^ 64) (old : UInt64) :
    freadWord old ⟨encode 8 n ++ rest, eof⟩ = (UInt64.ofNat n, ⟨rest, eof⟩) := by
  have hback : (UInt64.ofNat n).toNat = n := UInt64.toNat_ofNat_of_lt' hn
  have hread := freadWord_append old (UInt64.ofNat n) rest eof
  rwa [hback] at hread

theorem freadInt_length {n : ℕ} (hn : n < 2 ^ 31) (old : UInt32) :
    freadInt old ⟨encode 4 n ++ rest, eof⟩ = (UInt32.ofNat n, ⟨rest, eof⟩) := by
  have hlt : n < UInt32.size := hn.trans (by decide)
  have hread := freadInt_append old (UInt32.ofNat n) rest eof
  rwa [UInt32.toNat_ofNat_of_lt' hlt] at hread

theorem restoreDataSeg_append (hdata : q.data.length = p.data.length)
    (hbss : q.bss.length = p.bss.length) (hdataSize : p.data.length < 2 ^ 64)
    (hbssSize : p.bss.length < 2 ^ 64) :
    restoreDataSeg u q ⟨p.saveDataSeg ++ rest, eof⟩ =
      ({ q with data := p.data, bss := p.bss }, ⟨rest, eof⟩) := by
  simp only [restoreDataSeg, saveDataSeg, List.append_assoc, freadWord_length _ _ hdataSize,
    freadWord_length _ _ hbssSize, UInt64.toNat_ofNat_of_lt' hdataSize,
    UInt64.toNat_ofNat_of_lt' hbssSize, fread_append_of_length rfl hdata.le,
    fread_append_of_length rfl hbss.le]

/-- The process with the saved stack below its own `stackHigherAddress`. -/
def withStack (q p : Image) : Image :=
  { q with
    stackLowerAddress := q.stackHigherAddress - (p.stackSize - 4)
    context := ⟨p.context.rip, q.stackHigherAddress - (p.stackSize - 4),
      p.context.rbp + (q.stackHigherAddress - (p.stackSize - 4) - p.context.rsp)⟩
    stack := writeAt q.stack (q.stackHigherAddress - (p.stackSize - 4))
      (readAt p.stack p.context.rsp p.stackSize.toNat) }

theorem restoreStackSeg_append :
    restoreStackSeg u q ⟨p.saveStackSeg ++ rest, eof⟩ = (q.withStack p, ⟨rest, eof⟩) := by
  have hnil : ([] : List UInt8).length ≤ p.stackSize.toNat := Nat.zero_le _
  simp only [restoreStackSeg, saveStackSeg, List.append_assoc, freadWord_append,
    fread_append_of_length (length_encodeContext _) (length_encodeContext _).le,
    fread_append_of_length (length_readAt _ _ _) hnil, decodeContext_encodeContext]
  rfl

theorem restoreFrameworkData_append :
    restoreFrameworkData q ⟨p.saveFrameworkData ++ rest, eof⟩ =
      ({ q with
          passSenderContAdd := p.passSenderContAdd
          passReceiverContAdd := p.passReceiverContAdd }, ⟨rest, eof⟩) := by
  simp only [restoreFrameworkData, saveFrameworkData, List.append_assoc, freadInt_append]

end Image

/-! ## Records -/

/-- An entry as it is in the file. -/
structure Record where
  container : MallocContainer
  bytes : List UInt8

def Record.encode (r : Record) : List UInt8 := encodeContainer r.container ++ r.bytes

/-- What is written for an entry. -/
def recordOf (h : Heap) (c : MallocContainer) : Option Record :=
  (h.readBlock (h.seg.memory c.containerAddress) c.size).map fun bytes ↦ ⟨c, bytes⟩

/-- `save_heap_seg` writes one record for each entry, in their order. -/
theorem saveFrom_eq (h : Heap) {before : Option Address} {entries : List Entry}
    (hl : Linked h.seg.cell before entries none) {fuel : ℕ} (hfuel : entries.length ≤ fuel) :
    Image.saveFrom h fuel (entries.head?.map Prod.fst) =
      ((entries.map Prod.snd).mapM (recordOf h)).map fun records ↦
        records.flatMap Record.encode := by
  induction entries generalizing before fuel with
  | nil => cases fuel <;> rfl
  | cons e l ih =>
    obtain ⟨fuel, rfl⟩ : ∃ k, fuel = k + 1 := ⟨fuel - 1, by simp at hfuel; omega⟩
    rw [List.head?_cons, Option.map_some, Image.saveFrom, hl.1, Option.bind_eq_bind,
      Option.bind_some, Option.or_none, ih hl.2 (by simpa using hfuel), List.map_cons,
      List.mapM_cons, recordOf]
    cases h.readBlock (h.seg.memory e.2.containerAddress) e.2.size with
    | none => rfl
    | some bytes =>
      cases (l.map Prod.snd).mapM (recordOf h) with
      | none => rfl
      | some records => rfl

/-- A turn of `restore_heap_seg`: a record, with the block and the cell `malloc` returns. -/
structure Turn where
  record : Record
  block : Address
  element : Address

def Turn.incoming (t : Turn) : Incoming :=
  ⟨t.record.container.containerAddress, t.record.container.linkedAddress, t.record.container.size,
    t.block, t.element⟩

/-- The turns for the records, from turn `i` on. -/
def turns (u : Unspecified) : ℕ → List Record → List Turn
  | _, [] => []
  | i, r :: records => ⟨r, (u.malloc i).1, (u.malloc i).2⟩ :: turns u (i + 1) records

/-- The blocks after a turn. -/
def fillBlock (block : Address → Option (List UInt8)) (t : Turn) : Address → Option (List UInt8) :=
  Function.update block t.block (some t.record.bytes)

theorem restoreFrom_append (u : Unspecified) {records : List Record}
    (hsize : ∀ r ∈ records, r.bytes.length = r.container.size.toNat) (rest : List UInt8)
    (eof : Bool) (i : ℕ) (tempContainer : MallocContainer) (h : Heap) :
    Image.restoreFrom u records.length i tempContainer h
        ⟨records.flatMap Record.encode ++ rest, eof⟩ =
      (((turns u i records).map Turn.incoming).foldlM HeapSeg.place h.seg).map fun seg ↦
        (⟨seg, (turns u i records).foldl fillBlock h.block, h.segments⟩, ⟨rest, eof⟩) := by
  induction records generalizing i tempContainer h with
  | nil => rfl
  | cons r records ih =>
    have hr : r.bytes.length = r.container.size.toNat := hsize r List.mem_cons_self
    simp only [List.length_cons, Image.restoreFrom, List.flatMap_cons, Record.encode,
      List.append_assoc,
      fread_append_of_length (length_encodeContainer _) (length_encodeContainer _).le,
      decodeContainer_encodeContainer, turns, List.map_cons, List.foldlM_cons, List.foldl_cons]
    rw [fread_append_of_length hr (by simp)]
    simp only [Option.bind_eq_bind]
    have hplace : h.seg.place (Turn.incoming ⟨r, (u.malloc i).1, (u.malloc i).2⟩) = h.seg.place
        ⟨r.container.containerAddress, r.container.linkedAddress, r.container.size, (u.malloc i).1,
          (u.malloc i).2⟩ := rfl
    rw [hplace]
    cases h.seg.place ⟨r.container.containerAddress, r.container.linkedAddress, r.container.size,
        (u.malloc i).1, (u.malloc i).2⟩ with
    | none => rfl
    | some seg => exact ih (fun r' hr' ↦ hsize r' (List.mem_cons_of_mem r hr')) (i + 1) _ _

@[simp] theorem length_turns (u : Unspecified) (i : ℕ) (records : List Record) :
    (turns u i records).length = records.length := by
  induction records generalizing i with
  | nil => rfl
  | cons r records ih => rw [turns, List.length_cons, ih, List.length_cons]

/-! ## The file -/

theorem toNat_toInt32 {n : ℕ} (hn : n < 2 ^ 31) : (UInt32.ofNat n).toInt32.toInt.toNat = n := by
  have hlt : n < UInt32.size := hn.trans (by decide)
  have htoNat : (UInt32.ofNat n).toBitVec.toNat = n := UInt32.toNat_ofNat_of_lt' hlt
  have htoInt : (UInt32.ofNat n).toInt32.toInt = (UInt32.ofNat n).toBitVec.toInt := rfl
  rw [htoInt, BitVec.toInt_eq_toNat_of_lt (by omega), htoNat, Int.toNat_natCast]

namespace Image

variable {p q : Image} (u : Unspecified) {records : List Record}

theorem restoreHeapSeg_append (hint : records.length < 2 ^ 31)
    (hsize : ∀ r ∈ records, r.bytes.length = r.container.size.toNat) (rest : List UInt8)
    (eof : Bool) :
    restoreHeapSeg u q
        ⟨encode 4 records.length ++ records.flatMap Record.encode ++ rest, eof⟩ =
      (q.heap.seg.restoreHeapSeg ((turns u 0 records).map Turn.incoming)).map fun seg ↦
        ({ q with heap := ⟨seg, (turns u 0 records).foldl fillBlock q.heap.block,
            q.heap.segments⟩ }, ⟨rest, eof⟩) := by
  rw [restoreHeapSeg, List.append_assoc, freadInt_length _ _ hint]
  simp only [toNat_toInt32 hint, restoreFrom_append u hsize]
  rw [HeapSeg.restoreHeapSeg, List.length_map, length_turns]
  cases ((turns u 0 records).map Turn.incoming).foldlM HeapSeg.place
    { q.heap.seg with mallocNumberOfAllocations := records.length } <;> rfl

/-- The bytes of a checkpoint with the given records. -/
def file (p : Image) (records : List Record) : List UInt8 :=
  p.saveDataSeg ++ p.saveStackSeg ++
    (encode 4 p.heap.seg.mallocNumberOfAllocations ++ records.flatMap Record.encode) ++
      p.saveFrameworkData

theorem initCkpt_eq {entries : List Entry} (h : p.heap.seg.Represents entries) :
    p.initCkpt = ((entries.map Prod.snd).mapM (recordOf p.heap)).map p.file := by
  have hsave := saveFrom_eq p.heap h.linked (length_le_of_nodup h.nodup)
  rw [← h.head] at hsave
  rw [initCkpt, saveHeapSeg, hsave]
  cases (entries.map Prod.snd).mapM (recordOf p.heap) <;> rfl

/-- What a restore makes of the process `q`, except for its list. -/
def restoredWith (p q : Image) (heap : Heap) : Image :=
  { q.withStack p with
    data := p.data
    bss := p.bss
    heap := heap
    passSenderContAdd := p.passSenderContAdd
    passReceiverContAdd := p.passReceiverContAdd }

/-- **A restore** reads the whole file and nothing behind it. -/
theorem initCkptRestore_file (hdata : q.data.length = p.data.length)
    (hbss : q.bss.length = p.bss.length) (hdataSize : p.data.length < 2 ^ 64)
    (hbssSize : p.bss.length < 2 ^ 64)
    (hcount : p.heap.seg.mallocNumberOfAllocations = records.length)
    (hint : records.length < 2 ^ 31)
    (hsize : ∀ r ∈ records, r.bytes.length = r.container.size.toNat) :
    initCkptRestore u q (p.file records) =
      (q.heap.seg.restoreHeapSeg ((turns u 0 records).map Turn.incoming)).map fun seg ↦
        (p.restoredWith q ⟨seg, (turns u 0 records).foldl fillBlock q.heap.block,
          q.heap.segments⟩, ⟨[], false⟩) := by
  rw [initCkptRestore, file, hcount, List.append_assoc, List.append_assoc,
    restoreDataSeg_append u _ _ hdata hbss hdataSize hbssSize]
  simp only [restoreStackSeg_append]
  rw [restoreHeapSeg_append u hint hsize]
  have hframework := fun q : Image ↦ @restoreFrameworkData_append p q [] false
  simp only [List.append_nil] at hframework
  cases hseg : q.heap.seg.restoreHeapSeg ((turns u 0 records).map Turn.incoming) with
  | none =>
    rw [show (withStack { q with data := p.data, bss := p.bss } p).heap = q.heap from rfl, hseg]
    rfl
  | some seg =>
    rw [show (withStack { q with data := p.data, bss := p.bss } p).heap = q.heap from rfl, hseg]
    simp only [Option.map_some, Option.bind_eq_bind, Option.bind_some, hframework]
    rfl

end Image

end EntangledMPI.Checkpoint
