import EntangledMPI.Checkpoint.Reading
import EntangledMPI.Replication.ReplicaPointers
import Mathlib.Algebra.Order.Ring.Int

/-!
# Restoring what was saved

`restore_heap_seg` allocates a block for every entry of the list, those of
`rep_assign_malloc_context` included, and gives the container of the entry a pointer to it. In the
end a container points to the block of its last entry, so two containers never share a block after a
restore, and a container that was assigned a block has one of zero bytes.

## Main result

`Image.roundTrips_iff`: exactly when a checkpoint brings back what was saved.
-/

namespace EntangledMPI.Checkpoint

open LinkedCells ByteStream Replication Assignments

/-! ## What is asked of a restore -/

/-- The state has the list of the entries, as many as are counted, and its sizes fit their types. -/
structure Image.WellFormed (p : Image) (entries : List Entry) : Prop where
  represents : p.heap.seg.Represents entries
  count : p.heap.seg.mallocNumberOfAllocations = entries.length
  countInt : entries.length < 2 ^ 31
  dataSize : p.data.length < 2 ^ 64
  bssSize : p.bss.length < 2 ^ 64

/-- The process has the segment addresses of `p`, and an empty list. -/
structure Image.Fresh (q p : Image) : Prop where
  data : q.data.length = p.data.length
  bss : q.bss.length = p.bss.length
  stackHigherAddress : q.stackHigherAddress = p.stackHigherAddress
  segments : q.heap.segments = p.heap.segments
  empty : q.heap.seg.Represents []

/-- `malloc` returns different blocks and different cells in the first `n` turns. -/
structure Unspecified.Allocates (u : Unspecified) (n : ℕ) : Prop where
  blocks : ∀ i j, i < n → j < n → (u.malloc i).1 = (u.malloc j).1 → i = j
  elements : ∀ i j, i < n → j < n → (u.malloc i).2 = (u.malloc j).2 → i = j

/-- What an entry says besides the address of its block. -/
def fields (e : Entry) : Address × Address × UInt64 :=
  (e.2.containerAddress, e.2.linkedAddress, e.2.size)

/-- `r` is what was saved of `p`. -/
structure Image.Restored (p r : Image) (entries : List Entry) : Prop where
  data : r.data = p.data
  bss : r.bss = p.bss
  context : r.context = p.context
  stack : ∀ a, a - p.context.rsp < p.stackHigherAddress - p.context.rsp + 4 → r.stack a = p.stack a
  flags : r.passSenderContAdd = p.passSenderContAdd ∧
    r.passReceiverContAdd = p.passReceiverContAdd
  list : ∃ entries', r.heap.seg.Represents entries' ∧ entries'.map fields = entries.map fields
  placed : ∀ e ∈ entries, r.heap.segments e.2.containerAddress = true
  blocks : ∀ e ∈ entries, ∃ l, p.heap.block (p.heap.seg.memory e.2.containerAddress) = some l ∧
    r.heap.block (r.heap.seg.memory e.2.containerAddress) = some l
  sharing : ∀ e ∈ entries, ∀ e' ∈ entries,
    p.heap.seg.memory e.2.containerAddress = p.heap.seg.memory e'.2.containerAddress →
      r.heap.seg.memory e.2.containerAddress = r.heap.seg.memory e'.2.containerAddress

/-- A checkpoint of `p` can be written, and a restore from it reads its bytes to the last and brings
back what was saved. -/
def Image.RoundTrips (p : Image) (entries : List Entry) : Prop :=
  ∃ file, p.initCkpt = some file ∧
    ∀ (u : Unspecified) (q : Image), q.Fresh p → u.Allocates entries.length →
      ∃ r, Image.initCkptRestore u q file = some (r, ⟨[], false⟩) ∧ p.Restored r entries

/-- The last entry of a container. -/
def lastEntry (entries : List Entry) (containerAddress : Address) : Option Entry :=
  entries.reverse.find? fun e ↦ e.2.containerAddress = containerAddress

/-- The condition: the size of the stack is an `int`; every container lies in the segments, and
points to a block that is as large as each of its entries says and no larger than the last one says;
and different containers point to different blocks. -/
structure Image.Restorable (p : Image) (entries : List Entry) : Prop where
  stackSize : -2 ^ 31 ≤ (p.stackHigherAddress - p.context.rsp + 4).toInt64.toInt ∧
    (p.stackHigherAddress - p.context.rsp + 4).toInt64.toInt < 2 ^ 31
  placed : ∀ e ∈ entries, p.heap.segments e.2.containerAddress = true
  fits : ∀ e ∈ entries, ∃ l, p.heap.block (p.heap.seg.memory e.2.containerAddress) = some l ∧
    e.2.size.toNat ≤ l.length
  last : ∀ e ∈ entries, ∀ e' l, lastEntry entries e.2.containerAddress = some e' →
    p.heap.block (p.heap.seg.memory e.2.containerAddress) = some l → l.length = e'.2.size.toNat
  apart : ∀ e ∈ entries, ∀ e' ∈ entries,
    p.heap.seg.memory e.2.containerAddress = p.heap.seg.memory e'.2.containerAddress →
      e.2.containerAddress = e'.2.containerAddress

/-! ## Memory and the stack -/

theorem writeAt_readAt (m m' : Address → UInt8) (a : Address) (n : UInt64) {x : Address}
    (hx : x - a < n) : writeAt m' a (readAt m a n.toNat) x = m x := by
  have hlt : (x - a).toNat < n.toNat := UInt64.lt_iff_toNat_lt.mp hx
  rw [writeAt, readAt, List.getElem?_map, List.getElem?_range hlt, Option.map_some,
    Option.getD_some, UInt64.ofNat_toNat, UInt64.add_comm, UInt64.sub_add_cancel]

theorem stackSize_eq_iff (x : UInt64) :
    x.toInt64.toInt32.toInt64.toUInt64 = x ↔
      -2 ^ 31 ≤ x.toInt64.toInt ∧ x.toInt64.toInt < 2 ^ 31 := by
  have hback : x.toInt64.toInt32.toInt64.toUInt64 = x ↔
      x.toInt64.toInt.bmod (2 ^ 32) = x.toInt64.toInt := by
    constructor
    · intro h
      rw [← Int64.toInt_toInt32, ← Int32.toInt_toInt64, ← Int64.toInt64_toUInt64
        x.toInt64.toInt32.toInt64, h]
    · intro h
      rw [← Int64.toInt_toInt32, ← Int32.toInt_toInt64, Int64.toInt_inj] at h
      rw [h, UInt64.toUInt64_toInt64]
  rw [hback, Int.bmod_eq_iff (by decide)]
  omega

theorem Image.lower_eq_iff (p : Image) :
    p.stackHigherAddress - (p.stackSize - 4) = p.context.rsp ↔
      p.stackSize = p.stackHigherAddress - p.context.rsp + 4 := by
  constructor <;> intro h <;> grind

/-! ## The records of a list -/

theorem length_of_readBlock {h : Heap} {a : Address} {size : UInt64}
    {bytes : List UInt8} (hread : h.readBlock a size = some bytes) : bytes.length = size.toNat := by
  rw [Heap.readBlock] at hread
  split at hread
  · next hsize =>
    rw [← Option.some_inj.mp hread, hsize]
    rfl
  · simp only [Option.bind_eq_bind, Option.bind_eq_some_iff] at hread
    obtain ⟨l, -, hl⟩ := hread
    obtain ⟨hle, htake⟩ := Option.ite_none_right_eq_some.mp hl
    rw [← Option.some_inj.mp htake, List.length_take_of_le hle]

theorem records_spec {h : Heap} {containers : List MallocContainer}
    {records : List Record} (hrecords : containers.mapM (recordOf h) = some records) :
    records.map Record.container = containers ∧ ∀ r ∈ records,
      h.readBlock (h.seg.memory r.container.containerAddress) r.container.size = some r.bytes := by
  induction containers generalizing records with
  | nil =>
    obtain rfl : records = [] := by simpa using hrecords.symm
    exact ⟨rfl, by simp⟩
  | cons c containers ih =>
    simp only [List.mapM_cons, Option.bind_eq_bind, Option.bind_eq_some_iff] at hrecords
    obtain ⟨r, hr, records', hrecords', heq⟩ := hrecords
    obtain rfl := Option.some_inj.mp heq
    obtain ⟨bytes, hbytes, rfl⟩ := Option.map_eq_some_iff.mp hr
    obtain ⟨hmap, hread⟩ := ih hrecords'
    refine ⟨by rw [List.map_cons, hmap], ?_⟩
    rintro r hr
    rcases List.mem_cons.mp hr with rfl | hr
    · exact hbytes
    · exact hread r hr

theorem length_of_records {h : Heap} {entries : List Entry} {records : List Record}
    (hrecords : (entries.map Prod.snd).mapM (recordOf h) = some records) :
    records.length = entries.length := by
  simpa using congrArg List.length (records_spec hrecords).1

theorem size_of_records {h : Heap} {containers : List MallocContainer} {records : List Record}
    (hrecords : containers.mapM (recordOf h) = some records) :
    ∀ r ∈ records, r.bytes.length = r.container.size.toNat :=
  fun r hr ↦ length_of_readBlock ((records_spec hrecords).2 r hr)

/-! ## The list of a restore -/

theorem entries_restoreHeapSeg (L : Live) (entries : List Incoming) :
    (L.restoreHeapSeg entries).entries = L.entries ++ entries.map fun m ↦
      (m.element, ⟨m.containerAddress, m.linkedAddress, m.block, m.size⟩) := by
  induction entries generalizing L with
  | nil => simp [Live.restoreHeapSeg]
  | cons m entries ih =>
    rw [Live.restoreHeapSeg, List.foldl_cons]
    refine (ih (L.place m)).trans ?_
    rw [Live.place, List.map_cons, List.append_assoc, List.singleton_append]

theorem memory_restoreHeapSeg (L : Live) (entries : List Incoming) :
    (L.restoreHeapSeg entries).memory = replay Incoming.block L.memory
      (entries.map fun m ↦ Assignment.fresh m.containerAddress m) := by
  induction entries generalizing L with
  | nil => rfl
  | cons m entries ih =>
    rw [Live.restoreHeapSeg, List.foldl_cons]
    exact ih (L.place m)

theorem map_turns (u : Unspecified) (i : ℕ) (records : List Record) :
    (turns u i records).map Turn.record = records ∧
      (turns u i records).map Turn.block =
        (List.range' i records.length).map (fun j ↦ (u.malloc j).1) ∧
          (turns u i records).map Turn.element =
            (List.range' i records.length).map fun j ↦ (u.malloc j).2 := by
  induction records generalizing i with
  | nil => exact ⟨rfl, rfl, rfl⟩
  | cons r records ih =>
    obtain ⟨hrecord, hblock, helement⟩ := ih (i + 1)
    refine ⟨?_, ?_, ?_⟩
    · rw [turns, List.map_cons, hrecord]
    · rw [turns, List.map_cons, hblock, List.length_cons, List.range'_succ, List.map_cons]
    · rw [turns, List.map_cons, helement, List.length_cons, List.range'_succ, List.map_cons]

theorem Unspecified.Allocates.nodup {u : Unspecified} {records : List Record}
    (hu : u.Allocates records.length) :
    ((turns u 0 records).map Turn.block).Nodup ∧ ((turns u 0 records).map Turn.element).Nodup := by
  obtain ⟨-, hblock, helement⟩ := map_turns u 0 records
  have hrange : (List.range' 0 records.length).Nodup := List.nodup_range'
  rw [hblock, helement]
  constructor
  · refine hrange.map_on fun i hi j hj heq ↦ hu.blocks i j ?_ ?_ heq
    · simpa using hi
    · simpa using hj
  · refine hrange.map_on fun i hi j hj heq ↦ hu.elements i j ?_ ?_ heq
    · simpa using hi
    · simpa using hj

theorem foldl_fillBlock {l : List Turn} (hnodup : (l.map Turn.block).Nodup)
    (block : Address → Option (List UInt8)) {t : Turn} (ht : t ∈ l) :
    l.foldl fillBlock block t.block = some t.record.bytes := by
  have hreplay : l.foldl fillBlock block =
      replay (fun t ↦ some t.record.bytes) block (l.map fun t ↦ Assignment.fresh t.block t) := by
    rw [replay, List.foldl_map]
    rfl
  rw [hreplay, replay_eq, origin_fresh]
  cases hfind : l.reverse.find? fun t' ↦ t'.block = t.block with
  | none =>
    exact absurd (decide_eq_true rfl) (List.find?_eq_none.mp hfind t (List.mem_reverse.mpr ht))
  | some t' =>
    have hmem : t' ∈ l := List.mem_reverse.mp (List.mem_of_find?_eq_some hfind)
    have hblock : t'.block = t.block := by simpa using List.find?_some hfind
    obtain rfl := List.inj_on_of_nodup_map hnodup hmem ht hblock
    rfl

/-! ## A restore of a list -/

variable {p q : Image} {u : Unspecified} {entries : List Entry} {records : List Record}

theorem exists_restore (hw : p.WellFormed entries)
    (hrecords : (entries.map Prod.snd).mapM (recordOf p.heap) = some records) (hq : q.Fresh p)
    (hu : u.Allocates entries.length) :
    ∃ seg, Image.initCkptRestore u q (p.file records) =
        some (p.restoredWith q ⟨seg, (turns u 0 records).foldl fillBlock q.heap.block,
          q.heap.segments⟩, ⟨[], false⟩) ∧
      seg.Follows (Live.restoreHeapSeg ⟨[], q.heap.seg.memory⟩
        ((turns u 0 records).map Turn.incoming)) := by
  have hlength := length_of_records hrecords
  have hnodup : (((turns u 0 records).map Turn.incoming).map Incoming.element).Nodup := by
    rw [List.map_map]
    exact (Unspecified.Allocates.nodup (hlength ▸ hu)).2
  have hfollows : q.heap.seg.Follows ⟨[], q.heap.seg.memory⟩ := ⟨hq.empty, rfl⟩
  obtain ⟨seg, hseg, hfollows', -⟩ := hfollows.restoreHeapSeg hnodup
  refine ⟨seg, ?_, hfollows'⟩
  rw [Image.initCkptRestore_file u hq.data hq.bss hw.dataSize hw.bssSize (hlength ▸ hw.count)
    (hlength ▸ hw.countInt) (size_of_records hrecords), hseg, Option.map_some]

theorem memory_of_last {seg : HeapSeg} {l : List Turn} {memory : Address → Address}
    (hfollows : seg.Follows (Live.restoreHeapSeg ⟨[], memory⟩ (l.map Turn.incoming))) {x : Address}
    {t : Turn}
    (hlast : (l.reverse.find? fun t ↦ t.record.container.containerAddress = x) = some t) :
    seg.memory x = t.block := by
  have hrename : ((l.map Turn.incoming).map fun m ↦ Assignment.fresh m.containerAddress m) =
      (l.map fun t ↦ Assignment.fresh t.record.container.containerAddress t).map
        (Assignment.rename Turn.incoming) := by
    rw [List.map_map, List.map_map]
    rfl
  rw [hfollows.memory, memory_restoreHeapSeg, hrename, replay_map_rename, replay_eq, origin_fresh,
    hlast]
  rfl

theorem map_container_turns (u : Unspecified)
    (hrecords : (entries.map Prod.snd).mapM (recordOf p.heap) = some records) :
    (turns u 0 records).map (fun t ↦ t.record.container) = entries.map Prod.snd := by
  have hrecord := (map_turns u 0 records).1
  rw [← (records_spec hrecords).1, ← hrecord, List.map_map, hrecord]
  rfl

theorem exists_find_turn (u : Unspecified)
    (hrecords : (entries.map Prod.snd).mapM (recordOf p.heap) = some records) {e : Entry}
    (he : e ∈ entries) :
    ∃ t, ((turns u 0 records).reverse.find? fun t ↦
      t.record.container.containerAddress = e.2.containerAddress) = some t := by
  have hmem : e.2 ∈ (turns u 0 records).map fun t ↦ t.record.container :=
    map_container_turns u hrecords ▸ List.mem_map_of_mem he
  obtain ⟨t, ht, heq⟩ := List.mem_map.mp hmem
  rw [← Option.isSome_iff_exists, List.find?_isSome]
  exact ⟨t, List.mem_reverse.mpr ht,
    decide_eq_true (congrArg MallocContainer.containerAddress heq)⟩

theorem lastEntry_of_find_turn (u : Unspecified)
    (hrecords : (entries.map Prod.snd).mapM (recordOf p.heap) = some records) {x : Address}
    {t : Turn} (hfind : ((turns u 0 records).reverse.find? fun t ↦
      t.record.container.containerAddress = x) = some t) :
    ∃ e, lastEntry entries x = some e ∧ e.2 = t.record.container := by
  have hfound := List.find?_map
    (p := fun c : MallocContainer ↦ decide (c.containerAddress = x))
    (f := fun t : Turn ↦ t.record.container) (l := (turns u 0 records).reverse)
  rw [List.map_reverse, map_container_turns u hrecords, ← List.map_reverse,
    List.find?_map] at hfound
  exact Option.map_eq_some_iff.mp
    (hfound.trans (congrArg (Option.map fun t ↦ t.record.container) hfind))

/-- In the end a container has the block of its last turn, with the bytes saved for it. -/
theorem exists_last_turn
    (hrecords : (entries.map Prod.snd).mapM (recordOf p.heap) = some records)
    (hu : u.Allocates entries.length) {seg : HeapSeg}
    (hfollows : seg.Follows (Live.restoreHeapSeg ⟨[], q.heap.seg.memory⟩
      ((turns u 0 records).map Turn.incoming))) {e : Entry} (he : e ∈ entries) :
    ∃ t ∈ turns u 0 records, ∃ e', lastEntry entries e.2.containerAddress = some e' ∧
      e'.2 = t.record.container ∧ e'.2.containerAddress = e.2.containerAddress ∧
        seg.memory e.2.containerAddress = t.block ∧
          (turns u 0 records).foldl fillBlock q.heap.block t.block = some t.record.bytes ∧
            p.heap.readBlock (p.heap.seg.memory e.2.containerAddress) e'.2.size =
              some t.record.bytes := by
  obtain ⟨t, hfind⟩ := exists_find_turn u hrecords he
  obtain ⟨e', he', hsnd⟩ := lastEntry_of_find_turn u hrecords hfind
  have ht : t ∈ turns u 0 records := List.mem_reverse.mp (List.mem_of_find?_eq_some hfind)
  have hkey : t.record.container.containerAddress = e.2.containerAddress := by
    simpa using List.find?_some hfind
  have hrecord := (map_turns u 0 records).1
  have hbytes := (records_spec hrecords).2 t.record (hrecord ▸ List.mem_map_of_mem ht)
  have hblocks := (Unspecified.Allocates.nodup (length_of_records hrecords ▸ hu)).1
  refine ⟨t, ht, e', he', hsnd, hsnd ▸ hkey, memory_of_last hfollows hfind,
    foldl_fillBlock hblocks _ ht, ?_⟩
  rw [hsnd, ← hkey, hbytes]

/-! ## The context and the stack -/

namespace Image

/-- The context comes back exactly when the size of the stack is an `int`. -/
theorem context_restoredWith_iff (hhigher : q.stackHigherAddress = p.stackHigherAddress)
    (heap : Heap) :
    (p.restoredWith q heap).context = p.context ↔
      -2 ^ 31 ≤ (p.stackHigherAddress - p.context.rsp + 4).toInt64.toInt ∧
        (p.stackHigherAddress - p.context.rsp + 4).toInt64.toInt < 2 ^ 31 := by
  have hlower := p.lower_eq_iff.trans (stackSize_eq_iff _)
  have hcontext : (p.restoredWith q heap).context =
      ⟨p.context.rip, p.stackHigherAddress - (p.stackSize - 4),
        p.context.rbp + (p.stackHigherAddress - (p.stackSize - 4) - p.context.rsp)⟩ := by
    rw [← hhigher]
    rfl
  rw [← hlower, hcontext]
  constructor
  · exact fun h ↦ congrArg Context.rsp h
  · intro h
    rw [h, UInt64.sub_self, UInt64.add_zero]

theorem stack_restoredWith (hhigher : q.stackHigherAddress = p.stackHigherAddress) (heap : Heap)
    (hlower : p.stackHigherAddress - (p.stackSize - 4) = p.context.rsp) {a : Address}
    (ha : a - p.context.rsp < p.stackHigherAddress - p.context.rsp + 4) :
    (p.restoredWith q heap).stack a = p.stack a := by
  have hstack : (p.restoredWith q heap).stack =
      writeAt q.stack (q.stackHigherAddress - (p.stackSize - 4))
        (readAt p.stack p.context.rsp p.stackSize.toNat) := rfl
  rw [hstack, hhigher, hlower]
  exact writeAt_readAt _ _ _ _ ((p.lower_eq_iff.mp hlower) ▸ ha)

/-! ## The condition is enough -/

theorem Restorable.exists_records (hr : p.Restorable entries) :
    ∃ records, (entries.map Prod.snd).mapM (recordOf p.heap) = some records := by
  apply exists_mapM
  intro c hc
  obtain ⟨e, he, rfl⟩ := List.mem_map.mp hc
  obtain ⟨l, hl, hfits⟩ := hr.fits e he
  refine ⟨⟨e.2, l.take e.2.size.toNat⟩, ?_⟩
  rw [recordOf, Heap.readBlock_of_block hl, if_pos hfits, Option.map_some]

theorem Restorable.restored (hr : p.Restorable entries)
    (hrecords : (entries.map Prod.snd).mapM (recordOf p.heap) = some records) (hq : q.Fresh p)
    (hu : u.Allocates entries.length) {seg : HeapSeg}
    (hfollows : seg.Follows (Live.restoreHeapSeg ⟨[], q.heap.seg.memory⟩
      ((turns u 0 records).map Turn.incoming))) :
    p.Restored (p.restoredWith q ⟨seg, (turns u 0 records).foldl fillBlock q.heap.block,
      q.heap.segments⟩) entries where
  data := rfl
  bss := rfl
  context := (context_restoredWith_iff hq.stackHigherAddress _).mpr hr.stackSize
  stack a ha := stack_restoredWith hq.stackHigherAddress _
    ((p.lower_eq_iff.trans (stackSize_eq_iff _)).mpr hr.stackSize) ha
  flags := ⟨rfl, rfl⟩
  list := by
    refine ⟨_, hfollows.represents, ?_⟩
    rw [entries_restoreHeapSeg, List.nil_append, List.map_map, List.map_map]
    have hcontainers : records.map Record.container = entries.map Prod.snd :=
      (records_spec hrecords).1
    have hfields := congrArg (List.map fun c : MallocContainer ↦
      (c.containerAddress, c.linkedAddress, c.size)) hcontainers
    rw [List.map_map, List.map_map, ← (map_turns u 0 records).1, List.map_map] at hfields
    exact hfields
  placed e he := (congrFun hq.segments _).trans (hr.placed e he)
  blocks e he := by
    obtain ⟨l, hl, -⟩ := hr.fits e he
    -- the last turn for a pointer decides where it points
    obtain ⟨t, ht, e', he', -, -, hpoints, hblock, hread⟩ :=
      exists_last_turn hrecords hu hfollows he
    have hlength := hr.last e he e' l he' hl
    rw [Heap.readBlock_of_block hl, if_pos hlength.ge, ← hlength, List.take_length,
      Option.some_inj] at hread
    rw [← hread] at hblock
    exact ⟨l, hl, (congrArg _ hpoints).trans hblock⟩
  sharing e he e' he' hsame := by rw [hr.apart e he e' he' hsame]

/-! ## The condition is needed -/

/-- The locals are zero, and `malloc` counts. -/
def counting : Unspecified :=
  ⟨0, 0, ⟨0, 0, 0⟩, 0, ⟨0, 0, 0, 0⟩, fun i ↦ (UInt64.ofNat i, UInt64.ofNat i), fun _ _ ↦ 0⟩

theorem counting_allocates {n : ℕ} (hn : n < 2 ^ 31) : counting.Allocates n := by
  have hinj : ∀ i j, i < n → j < n → UInt64.ofNat i = UInt64.ofNat j → i = j := by
    intro i j hi hj heq
    have htoNat := congrArg UInt64.toNat heq
    have hi' : i < UInt64.size := (hi.trans hn).trans (by decide)
    have hj' : j < UInt64.size := (hj.trans hn).trans (by decide)
    rwa [UInt64.toNat_ofNat_of_lt' hi', UInt64.toNat_ofNat_of_lt' hj'] at htoNat
  exact ⟨hinj, hinj⟩

/-- The process before it has allocated. -/
def unallocated (p : Image) : Image := { p with heap := Heap.blank p.heap.segments }

theorem unallocated_fresh (p : Image) : p.unallocated.Fresh p :=
  ⟨rfl, rfl, rfl, rfl, HeapSeg.represents_initial _⟩

theorem RoundTrips.restorable (hw : p.WellFormed entries) (h : p.RoundTrips entries) :
    p.Restorable entries := by
  obtain ⟨file, hfile, hall⟩ := h
  rw [initCkpt_eq hw.represents, Option.map_eq_some_iff] at hfile
  obtain ⟨records, hrecords, rfl⟩ := hfile
  have hu := counting_allocates hw.countInt
  obtain ⟨r, hr, hres⟩ := hall counting p.unallocated p.unallocated_fresh hu
  obtain ⟨seg, hseg, hfollows⟩ := exists_restore hw hrecords p.unallocated_fresh hu
  obtain ⟨rfl, -⟩ := Prod.ext_iff.mp (Option.some_inj.mp (hr.symm.trans hseg))
  obtain ⟨hmap, hread⟩ := records_spec hrecords
  have hblocks := (Unspecified.Allocates.nodup (length_of_records hrecords ▸ hu)).1
  constructor
  · exact (context_restoredWith_iff p.unallocated_fresh.stackHigherAddress _).mp hres.context
  · exact hres.placed
  · intro e he
    obtain ⟨l, hl, -⟩ := hres.blocks e he
    obtain ⟨r, hr, hcontainer⟩ := List.mem_map.mp (hmap.symm ▸ List.mem_map_of_mem he)
    have hbytes := hread r hr
    rw [hcontainer, Heap.readBlock_of_block hl] at hbytes
    exact ⟨l, hl, (Option.ite_none_right_eq_some.mp hbytes).1⟩
  · -- the restored block is as large as its last entry says, and equals the saved one
    intro e he e' l he' hl
    obtain ⟨t, -, e'', he'', -, -, hpoints, hblock, hbytes⟩ :=
      exists_last_turn hrecords hu hfollows he
    obtain rfl := Option.some_inj.mp (he'.symm.trans he'')
    obtain ⟨l', hl', hrestored⟩ := hres.blocks e he
    obtain rfl := Option.some_inj.mp (hl.symm.trans hl')
    have hsame := ((congrArg _ hpoints).trans hblock).symm.trans hrestored
    rw [← length_of_readBlock hbytes, Option.some_inj.mp hsame]
  · -- different turns fill different blocks, so a shared block comes from one container
    intro e he e' he' hsame
    obtain ⟨t, ht, a, -, ha, hkey, hpoints, -⟩ := exists_last_turn hrecords hu hfollows he
    obtain ⟨t', ht', a', -, ha', hkey', hpoints', -⟩ := exists_last_turn hrecords hu hfollows he'
    have hblock : t.block = t'.block :=
      hpoints.symm.trans ((hres.sharing e he e' he' hsame).trans hpoints')
    obtain rfl := List.inj_on_of_nodup_map hblocks ht ht' hblock
    rw [← hkey, ← hkey', ha, ha']

/-- A process with one allocation. -/
def oneBlock : Image :=
  ⟨[1], [], 100, 96, fun _ ↦ 0, ⟨7, 96, 98⟩,
    ⟨⟨some 1, some 1, fun a ↦ if a = 1 then some ⟨⟨10, 0, 200, 2⟩, none, none⟩ else none, 2, 1,
      fun _ ↦ 200, []⟩, fun a ↦ if a = 200 then some [5, 6] else none, fun _ ↦ true⟩, 0, 0⟩

theorem oneBlock_wellFormed : oneBlock.WellFormed [(1, ⟨10, 0, 200, 2⟩)] :=
  ⟨⟨⟨rfl, trivial⟩, by simp, rfl, rfl⟩, rfl, by decide, by decide, by decide⟩

/-- A process with one allocation that two containers share. -/
def sharedBlock : Image :=
  ⟨[1], [], 100, 96, fun _ ↦ 0, ⟨7, 96, 98⟩,
    ⟨⟨some 1, some 2, fun a ↦
        if a = 1 then some ⟨⟨10, 0, 200, 2⟩, some 2, none⟩
        else if a = 2 then some ⟨⟨20, 10, 200, 0⟩, none, some 1⟩ else none, 2, 2,
      fun _ ↦ 200, []⟩, fun a ↦ if a = 200 then some [5, 6] else none, fun _ ↦ true⟩, 0, 0⟩

end Image

end EntangledMPI.Checkpoint
