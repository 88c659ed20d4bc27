import EntangledMPI.Replication.HeapReplica
import Mathlib.Data.List.Pairwise

/-!
# When a transfer replicates the heap

The sender's pointers and the receiver's are two runs of one list of assignments, so the proof goes
over the pairs of an entry of the sender and what the receiver is given for it: where a pointer
stems from such a pair, the sender has the entry's block there and the receiver the block of its
own.

## Main result

`Heap.transfers_iff`: a heap is replicated exactly when its list can be replayed.
-/

namespace EntangledMPI.Replication

open LinkedCells Assignments

theorem exists_mapM {α β : Type*} {f : α → Option β} {l : List α}
    (hf : ∀ a ∈ l, ∃ b, f a = some b) : ∃ l', l.mapM f = some l' := by
  induction l with
  | nil => exact ⟨[], rfl⟩
  | cons a l ih =>
    obtain ⟨b, hb⟩ := hf a List.mem_cons_self
    obtain ⟨l', hl'⟩ := ih fun c hc ↦ hf c (List.mem_cons_of_mem a hc)
    exact ⟨b :: l', by rw [List.mapM_cons, hb, hl']; rfl⟩

namespace Heap

/-! ## What is sent -/

theorem readBlock_of_block {h : Heap} {a : Address} {l : List UInt8} (hl : h.block a = some l)
    (size : UInt64) :
    h.readBlock a size =
      if size.toNat ≤ l.length then some (l.take size.toNat) else none := by
  rw [readBlock]
  by_cases hsize : size = 0
  · subst hsize
    simp
  · rw [if_neg hsize, hl, Option.bind_eq_bind, Option.bind_some]

theorem sendTurn_alias (h : Heap) {c : MallocContainer} (halias : c.IsAlias) :
    h.sendTurn c = some ⟨c.containerAddress, c.linkedAddress, c.size, []⟩ := if_pos halias

theorem sendTurn_malloc (h : Heap) {c : MallocContainer} (halias : ¬c.IsAlias) :
    h.sendTurn c = (bcastSize c.size).bind fun count ↦
      (h.readBlock (h.seg.memory c.containerAddress) count).map
        fun bytes ↦ ⟨c.containerAddress, c.linkedAddress, c.size, bytes⟩ := by
  rw [sendTurn, if_neg halias]
  cases bcastSize c.size with
  | none => rfl
  | some count =>
    rw [Option.bind_some, Option.bind_eq_bind, Option.bind_some]
    cases h.readBlock (h.seg.memory c.containerAddress) count <;> rfl

theorem toInt32_lt_zero_iff (x : UInt32) : x.toInt32 < 0 ↔ 2 ^ 31 ≤ x.toNat := by
  have hint : x.toInt32.toInt = x.toBitVec.toInt := rfl
  have hnat : x.toBitVec.toNat = x.toNat := rfl
  have hlt := x.toNat_lt
  rw [Int32.lt_iff_toInt_lt, hint, Int32.toInt_zero, BitVec.toInt_eq_toNat_cond, hnat]
  split <;> omega

theorem bcastSize_of_lt {size : UInt64} (hsize : size.toNat < 2 ^ 31) :
    bcastSize size = some size := by
  have hlow : size.toUInt32.toNat = size.toNat := by
    rw [UInt64.toNat_toUInt32]
    exact Nat.mod_eq_of_lt (hsize.trans (by decide))
  have hback : size.toUInt32.toUInt64 = size := by
    rw [← UInt64.toNat_inj, UInt32.toNat_toUInt64, hlow]
  rw [bcastSize, if_neg (by rw [toInt32_lt_zero_iff, hlow]; omega), hback]

theorem toNat_bcastSize {size count : UInt64} (h : bcastSize size = some count) :
    count.toNat < 2 ^ 31 ∧ count.toNat ≤ size.toNat := by
  obtain ⟨hnot, heq⟩ := Option.ite_none_left_eq_some.mp h
  rw [toInt32_lt_zero_iff] at hnot
  obtain rfl := Option.some_inj.mp heq
  rw [UInt32.toNat_toUInt64]
  refine ⟨by omega, ?_⟩
  rw [UInt64.toNat_toUInt32]
  exact Nat.mod_le _ _

theorem fields_of_sendTurn {h : Heap} {c : MallocContainer} {m : Message}
    (hm : h.sendTurn c = some m) :
    m.containerAddress = c.containerAddress ∧ m.linkedAddress = c.linkedAddress ∧
      m.size = c.size := by
  by_cases halias : c.IsAlias
  · rw [h.sendTurn_alias halias] at hm
    rw [← Option.some_inj.mp hm]
    exact ⟨rfl, rfl, rfl⟩
  · rw [h.sendTurn_malloc halias, Option.bind_eq_some_iff] at hm
    obtain ⟨count, -, hm⟩ := hm
    obtain ⟨bytes, -, rfl⟩ := Option.map_eq_some_iff.mp hm
    exact ⟨rfl, rfl, rfl⟩

/-! ## What is received -/

variable {h : Heap} {containers : List MallocContainer} {deliveries : List Delivery}

theorem foldl_receiveBlock_of_ne (block : Address → Option (List UInt8)) {a : Address}
    (hne : ∀ d ∈ deliveries, ¬d.incoming.IsAlias → d.block ≠ a) :
    deliveries.foldl receiveBlock block a = block a := by
  induction deliveries generalizing block with
  | nil => rfl
  | cons d deliveries ih =>
    rw [List.foldl_cons, ih _ fun d' hd' ↦ hne d' (List.mem_cons_of_mem d hd'), receiveBlock]
    split
    · rfl
    · next halias => exact Function.update_of_ne (hne d List.mem_cons_self halias).symm _ _

theorem foldl_receiveBlock_of_mem (block : Address → Option (List UInt8))
    (hfresh : deliveries.Pairwise fun d d' ↦
      ¬d.incoming.IsAlias → ¬d'.incoming.IsAlias → d.block ≠ d'.block)
    {d : Delivery} (hd : d ∈ deliveries) (halias : ¬d.incoming.IsAlias) :
    deliveries.foldl receiveBlock block d.block = some d.message.bytes := by
  induction deliveries generalizing block with
  | nil => exact absurd hd List.not_mem_nil
  | cons d' deliveries ih =>
    obtain ⟨hfirst, hrest⟩ := List.pairwise_cons.mp hfresh
    rw [List.foldl_cons]
    rcases List.mem_cons.mp hd with rfl | hd
    · rw [foldl_receiveBlock_of_ne _ fun d' hd' hnot ↦ (hfirst d' hd' halias hnot).symm,
        receiveBlock, if_neg halias, Function.update_self]
    · exact ih _ hrest hd

/-! ## Pairs -/

/-- The entries of the sender, each with what the receiver is given for it. -/
structure Paired (h : Heap) (containers : List MallocContainer) (deliveries : List Delivery)
    (pairs : List (MallocContainer × Delivery)) : Prop where
  containers : pairs.map Prod.fst = containers
  deliveries : pairs.map Prod.snd = deliveries
  sent : ∀ p ∈ pairs, h.sendTurn p.1 = some p.2.message

theorem exists_paired
    (hsent : containers.mapM h.sendTurn = some (deliveries.map Delivery.message)) :
    ∃ pairs, h.Paired containers deliveries pairs := by
  induction containers generalizing deliveries with
  | nil =>
    obtain rfl : deliveries = [] := by simpa using hsent.symm
    exact ⟨[], rfl, rfl, by simp⟩
  | cons c containers ih =>
    simp only [List.mapM_cons, Option.bind_eq_bind, Option.bind_eq_some_iff] at hsent
    obtain ⟨m, hm, messages, hmessages, heq⟩ := hsent
    cases deliveries with
    | nil => exact absurd heq (by simp)
    | cons d deliveries =>
      obtain ⟨rfl, rfl⟩ := List.cons.inj (Option.some_inj.mp heq)
      obtain ⟨pairs, hpairs⟩ := ih hmessages
      refine ⟨(c, d) :: pairs, ?_, ?_, ?_⟩
      · rw [List.map_cons, hpairs.containers]
      · rw [List.map_cons, hpairs.deliveries]
      · rintro p hp
        rcases List.mem_cons.mp hp with rfl | hp
        · exact hm
        · exact hpairs.sent p hp

/-- The assignment of an entry, its block being named by the pair. -/
def pairAssignment (p : MallocContainer × Delivery) :
    Assignment Address (MallocContainer × Delivery) :=
  assignmentOf p.1.linkedAddress p.1.containerAddress p.1.size p

namespace Paired

variable {pairs : List (MallocContainer × Delivery)}

theorem isAlias_iff (hp : h.Paired containers deliveries pairs) {p : MallocContainer × Delivery}
    (hmem : p ∈ pairs) : p.2.incoming.IsAlias ↔ p.1.IsAlias := by
  obtain ⟨-, hlinked, hsize⟩ := fields_of_sendTurn (hp.sent p hmem)
  rw [Incoming.IsAlias, MallocContainer.IsAlias, Delivery.incoming, hlinked, hsize]

theorem assignments_sender (hp : h.Paired containers deliveries pairs) :
    containers.map MallocContainer.assignment =
      (pairs.map pairAssignment).map (Assignment.rename Prod.fst) := by
  rw [← hp.containers, List.map_map, List.map_map]
  exact List.map_congr_left fun p _ ↦ (assignmentOf_rename _ _ _).symm

theorem assignments_receiver (hp : h.Paired containers deliveries pairs) :
    (deliveries.map Delivery.incoming).map Incoming.assignment =
      (pairs.map pairAssignment).map (Assignment.rename fun p ↦ p.2.incoming) := by
  rw [← hp.deliveries, List.map_map, List.map_map, List.map_map]
  apply List.map_congr_left
  intro p hmem
  obtain ⟨hcontainer, hlinked, hsize⟩ := fields_of_sendTurn (hp.sent p hmem)
  rw [Function.comp_apply, Function.comp_apply, Function.comp_apply, pairAssignment,
    assignmentOf_rename, ← hcontainer, ← hlinked, ← hsize]
  rfl

theorem mem_of_origin {x : Address} {p : MallocContainer × Delivery}
    (hx : origin (pairs.map pairAssignment) x = Sum.inr p) : p ∈ pairs ∧ ¬p.1.IsAlias := by
  obtain ⟨y, hy⟩ := exists_fresh_of_origin hx
  obtain ⟨q, hq, hassign⟩ := List.mem_map.mp hy
  obtain ⟨hnot, rfl⟩ := eq_of_assignmentOf_eq_fresh _ _ hassign
  exact ⟨hq, hnot⟩

theorem bytes_eq (hp : h.Paired containers deliveries pairs) {p : MallocContainer × Delivery}
    (hmem : p ∈ pairs) (hnot : ¬p.1.IsAlias) :
    ∃ count, bcastSize p.1.size = some count ∧ ∀ l,
      h.block (h.seg.memory p.1.containerAddress) = some l →
        count.toNat ≤ l.length ∧ p.2.message.bytes = l.take count.toNat := by
  have hsent := hp.sent p hmem
  rw [h.sendTurn_malloc hnot, Option.bind_eq_some_iff] at hsent
  obtain ⟨count, hcount, hsent⟩ := hsent
  refine ⟨count, hcount, fun l hl ↦ ?_⟩
  rw [readBlock_of_block hl, Option.map_eq_some_iff] at hsent
  obtain ⟨bytes, hbytes, hmessage⟩ := hsent
  obtain ⟨hfits, htake⟩ := Option.ite_none_right_eq_some.mp hbytes
  exact ⟨hfits, by rw [← hmessage, Option.some_inj.mp htake]⟩

theorem delivered (hp : h.Paired containers deliveries pairs) (hfresh : FreshDeliveries deliveries)
    (block : Address → Option (List UInt8)) {p : MallocContainer × Delivery} (hmem : p ∈ pairs)
    (hnot : ¬p.1.IsAlias) :
    deliveries.foldl receiveBlock block p.2.block = some p.2.message.bytes :=
  foldl_receiveBlock_of_mem block hfresh.blocks (hp.deliveries ▸ List.mem_map_of_mem hmem)
    fun halias ↦ hnot ((hp.isAlias_iff hmem).mp halias)

/-- **A receiver** has the same pointers, with its own blocks for those of the sender. -/
theorem receiveHeapSeg (hp : h.Paired containers deliveries pairs) {receiver : Heap}
    {old : List Entry} (hold : receiver.seg.Represents old) (total : UInt64)
    (hfresh : FreshDeliveries deliveries) :
    ∃ r, receiver.receiveHeapSeg total deliveries = some r ∧ r.segments = receiver.segments ∧
      r.block = deliveries.foldl receiveBlock receiver.block ∧
        ∀ x, r.seg.memory x = Sum.elim receiver.seg.memory (fun p ↦ p.2.block)
          (origin (pairs.map pairAssignment) x) := by
  have hfollows : receiver.seg.Follows ⟨old, receiver.seg.memory⟩ := ⟨hold, rfl⟩
  obtain ⟨seg, hseg, hfollows', -⟩ := hfollows.receiveHeapSeg total hfresh.elements
  refine ⟨⟨seg, deliveries.foldl receiveBlock receiver.block, receiver.segments⟩, ?_, rfl, rfl, ?_⟩
  · rw [Heap.receiveHeapSeg, hseg]
    rfl
  · intro x
    rw [hfollows'.memory, memory_receiveHeapSeg, hp.assignments_receiver, replay_map_rename,
      replay_eq]
    rfl

end Paired

/-! ## Sound heaps -/

theorem eq_of_pairwise_ne {α β : Type*} {l : List α} {P : α → Prop} {f : α → β}
    (h : l.Pairwise fun a b ↦ P a → P b → f a ≠ f b) {a b : α} (ha : a ∈ l) (hb : b ∈ l)
    (hpa : P a) (hpb : P b) (hab : f a = f b) : a = b := by
  have hsymm : Std.Symm fun a b : α ↦ P a → P b → f a ≠ f b :=
    ⟨fun _ _ hne hb ha ↦ (hne ha hb).symm⟩
  by_contra hne
  exact h.forall ha hb hne hpa hpb hab

namespace Sound

variable {memory : Address → Address} {entries : List Entry}

theorem of_origin (hs : h.Sound memory entries) {x : Address} {e : MallocContainer}
    (hx : origin ((entries.map Prod.snd).map MallocContainer.assignment) x = Sum.inr e) :
    e ∈ entries.map Prod.snd ∧ ¬e.IsAlias ∧ h.seg.memory x = e.allocatedAddress := by
  obtain ⟨y, hy⟩ := exists_fresh_of_origin hx
  obtain ⟨c, hc, hassign⟩ := List.mem_map.mp hy
  obtain ⟨hnot, rfl⟩ := eq_of_assignmentOf_eq_fresh _ _ hassign
  refine ⟨hc, hnot, ?_⟩
  rw [hs.memory, replay_eq, hx, Sum.elim_inr]

theorem block_of_traced (hs : h.Sound memory entries) {c : MallocContainer}
    (htraced : ∃ e, origin ((entries.map Prod.snd).map MallocContainer.assignment)
      c.containerAddress = Sum.inr e) :
    ∃ l, h.block (h.seg.memory c.containerAddress) = some l := by
  obtain ⟨e, he⟩ := htraced
  obtain ⟨hmem, hnot, hpoints⟩ := hs.of_origin he
  obtain ⟨-, l, hl, -⟩ := hs.block e hmem hnot
  exact ⟨l, hpoints ▸ hl⟩

theorem sendHeapSeg_eq (hs : h.Sound memory entries) :
    h.sendHeapSeg = (entries.map Prod.snd).mapM h.sendTurn := by
  rw [sendHeapSeg, hs.counted.sentContainers]
  rfl

theorem pair_of_origin (hs : h.Sound memory entries)
    {pairs : List (MallocContainer × Delivery)}
    (hp : h.Paired (entries.map Prod.snd) deliveries pairs) {c : MallocContainer}
    (htraced : ∃ e, origin ((entries.map Prod.snd).map MallocContainer.assignment)
      c.containerAddress = Sum.inr e) :
    ∃ p ∈ pairs, ¬p.1.IsAlias ∧ h.seg.memory c.containerAddress = p.1.allocatedAddress ∧
      origin (pairs.map pairAssignment) c.containerAddress = Sum.inr p := by
  obtain ⟨e, he⟩ := htraced
  have hpoints := (hs.of_origin he).2.2
  rw [hp.assignments_sender, origin_map_rename] at he
  cases hpair : origin (pairs.map pairAssignment) c.containerAddress with
  | inl y =>
    rw [hpair] at he
    exact nomatch he
  | inr p =>
    rw [hpair] at he
    obtain rfl := Sum.inr.inj he
    obtain ⟨hmem, hnot⟩ := Paired.mem_of_origin hpair
    exact ⟨p, hmem, hnot, hpoints, rfl⟩

end Sound

/-! ## The condition is enough -/

namespace Replayable

variable {memory : Address → Address} {entries : List Entry}

theorem exists_messages (hr : h.Replayable (entries.map Prod.snd)) (hs : h.Sound memory entries) :
    ∃ messages, h.sendHeapSeg = some messages := by
  rw [hs.sendHeapSeg_eq]
  apply exists_mapM
  intro c hc
  by_cases halias : c.IsAlias
  · exact ⟨_, h.sendTurn_alias halias⟩
  · obtain ⟨l, hl⟩ := hs.block_of_traced (hr.traced c hc)
    obtain ⟨count, hcount, hfits⟩ := hr.fits c hc halias
    refine ⟨⟨c.containerAddress, c.linkedAddress, c.size, l.take count.toNat⟩, ?_⟩
    rw [h.sendTurn_malloc halias, hcount, Option.bind_some, readBlock_of_block hl,
      if_pos (hfits l hl), Option.map_some]

theorem replicates (hr : h.Replayable (entries.map Prod.snd)) (hs : h.Sound memory entries)
    {pairs : List (MallocContainer × Delivery)}
    (hp : h.Paired (entries.map Prod.snd) deliveries pairs) (hfresh : FreshDeliveries deliveries)
    {r : Heap} {block : Address → Option (List UInt8)} {old : Address → Address}
    (hsegments : r.segments = h.segments) (hblock : r.block = deliveries.foldl receiveBlock block)
    (hmemory : ∀ x, r.seg.memory x =
      Sum.elim old (fun p ↦ p.2.block) (origin (pairs.map pairAssignment) x)) :
    h.Replicates r (entries.map Prod.snd) := by
  have hcs : ∀ p ∈ pairs, p.1 ∈ entries.map Prod.snd := fun p hmem ↦
    hp.containers ▸ List.mem_map_of_mem hmem
  have hsender : pairs.Pairwise fun p q ↦
      ¬p.1.IsAlias → ¬q.1.IsAlias → p.1.allocatedAddress ≠ q.1.allocatedAddress :=
    List.pairwise_map.mp (hp.containers ▸ hs.distinct)
  have hreceiver : pairs.Pairwise fun p q ↦
      ¬p.2.incoming.IsAlias → ¬q.2.incoming.IsAlias → p.2.block ≠ q.2.block :=
    List.pairwise_map.mp (hp.deliveries ▸ hfresh.blocks)
  -- first the bytes of each block, then which pointers share one
  refine ⟨fun c hc ↦ ?_, ?_, ?_⟩
  · rw [HasVariables, hsegments]
    exact hr.placed c hc
  · intro c hc
    obtain ⟨p, hmem, hnot, hpoints, horigin⟩ := hs.pair_of_origin hp (hr.traced c hc)
    obtain ⟨-, l, hl, hlength⟩ := hs.block p.1 (hcs p hmem) hnot
    obtain ⟨l', hl'⟩ := hs.block_of_traced (hr.traced p.1 (hcs p hmem))
    obtain ⟨hint, hbegins⟩ := hr.kept p.1 (hcs p hmem) hnot ⟨c, hc, hpoints⟩
    obtain ⟨count, hcount, hread⟩ := hp.bytes_eq hmem hnot
    obtain rfl := Option.some_inj.mp (hcount.symm.trans (bcastSize_of_lt hint))
    have hbytes := (hread l' hl').2
    refine ⟨l, l'.take p.1.size.toNat, hpoints ▸ hl, ?_, ?_⟩
    · rw [hmemory, horigin, Sum.elim_inr, hblock, hp.delivered hfresh block hmem hnot, hbytes]
    · exact List.prefix_take_iff.mpr ⟨hbegins l' l hl' hl, hlength.le⟩
  · intro c hc c' hc'
    obtain ⟨p, hmem, hnot, hpoints, horigin⟩ := hs.pair_of_origin hp (hr.traced c hc)
    obtain ⟨q, hmem', hnot', hpoints', horigin'⟩ := hs.pair_of_origin hp (hr.traced c' hc')
    rw [hmemory, hmemory, horigin, horigin', Sum.elim_inr, Sum.elim_inr, hpoints, hpoints']
    constructor
    · intro heq
      rw [eq_of_pairwise_ne hreceiver hmem hmem' (fun h ↦ hnot ((hp.isAlias_iff hmem).mp h))
        (fun h ↦ hnot' ((hp.isAlias_iff hmem').mp h)) heq]
    · intro heq
      rw [eq_of_pairwise_ne hsender hmem hmem' hnot hnot' heq]

end Replayable

/-! ## The condition is needed -/

/-- Deliver the messages with the blocks and the cells of the sender. -/
theorem exists_deliveries {entries : List Entry} {messages : List Message}
    (hsent : (entries.map Prod.snd).mapM h.sendTurn = some messages) :
    ∃ deliveries : List Delivery, deliveries.map Delivery.message = messages ∧
      deliveries.map Delivery.block = (entries.map Prod.snd).map MallocContainer.allocatedAddress ∧
        deliveries.map Delivery.element = addresses entries := by
  induction entries generalizing messages with
  | nil =>
    obtain rfl : messages = [] := by simpa using hsent.symm
    exact ⟨[], rfl, rfl, rfl⟩
  | cons e entries ih =>
    simp only [List.map_cons, List.mapM_cons, Option.bind_eq_bind, Option.bind_eq_some_iff] at hsent
    obtain ⟨m, -, messages, hmessages, heq⟩ := hsent
    obtain rfl := Option.some_inj.mp heq
    obtain ⟨deliveries, hmessage, hblock, helement⟩ := ih hmessages
    refine ⟨⟨m, e.2.allocatedAddress, e.1⟩ :: deliveries, ?_, ?_, ?_⟩
    · rw [List.map_cons, hmessage]
    · rw [List.map_cons, hblock]
      rfl
    · rw [List.map_cons, helement]
      rfl

theorem Sound.fresh {memory : Address → Address} {entries : List Entry}
    (hs : h.Sound memory entries) {pairs : List (MallocContainer × Delivery)}
    (hp : h.Paired (entries.map Prod.snd) deliveries pairs)
    (hblocks : ∀ p ∈ pairs, p.2.block = p.1.allocatedAddress)
    (helements : deliveries.map Delivery.element = addresses entries) :
    FreshDeliveries deliveries := by
  constructor
  · have hnodup : ((deliveries.map Delivery.incoming).map Incoming.element).Nodup := by
      rw [List.map_map]
      exact helements ▸ hs.counted.follows.represents.nodup
    exact hnodup.sublist (List.filter_sublist.map _)
  · have hdistinct := hs.distinct
    rw [← hp.containers, List.pairwise_map] at hdistinct
    rw [← hp.deliveries, List.pairwise_map]
    refine hdistinct.imp_of_mem fun {p q} hpm hqm hne hnot hnot' ↦ ?_
    rw [hblocks p hpm, hblocks q hqm]
    exact hne (fun h ↦ hnot ((hp.isAlias_iff hpm).mpr h))
      fun h ↦ hnot' ((hp.isAlias_iff hqm).mpr h)

/-- The receiver that has never allocated, whose pointers are `NULL`. -/
def blank (segments : Address → Bool) : Heap :=
  ⟨HeapSeg.initial fun _ ↦ 0, fun _ ↦ none, segments⟩

/-- With the blocks of the sender at a blank receiver, a container that has a block is traced. -/
theorem Sound.traced_of_blank {memory : Address → Address} {entries : List Entry}
    (hs : h.Sound memory entries) {pairs : List (MallocContainer × Delivery)}
    (hp : h.Paired (entries.map Prod.snd) deliveries pairs)
    (hsame : ∀ p ∈ pairs, p.2.block = p.1.allocatedAddress) {r : Heap}
    (hblock : r.block = deliveries.foldl receiveBlock fun _ ↦ none)
    (hmemory : ∀ x, r.seg.memory x = Sum.elim (fun _ ↦ 0) (fun p ↦ p.2.block)
      (origin (pairs.map pairAssignment) x)) {x : Address} {l : List UInt8}
    (hl : r.block (r.seg.memory x) = some l) :
    ∃ e, origin ((entries.map Prod.snd).map MallocContainer.assignment) x = Sum.inr e := by
  rw [hp.assignments_sender, origin_map_rename]
  cases horigin : origin (pairs.map pairAssignment) x with
  | inr p => exact ⟨p.1, rfl⟩
  | inl y =>
    -- the pointer is still that of the blank receiver, and no block is at `NULL`
    have hnone : deliveries.foldl receiveBlock (fun _ ↦ none) 0 = none := by
      apply foldl_receiveBlock_of_ne _
      intro d hd hnot
      obtain ⟨p, hmem, rfl⟩ := List.mem_map.mp (hp.deliveries ▸ hd)
      have hp₁ : p.1 ∈ entries.map Prod.snd := hp.containers ▸ List.mem_map_of_mem hmem
      rw [hsame p hmem]
      exact (hs.block p.1 hp₁ fun h ↦ hnot ((hp.isAlias_iff hmem).mpr h)).1
    rw [hmemory, horigin, Sum.elim_inl, hblock] at hl
    exact absurd (hnone.symm.trans hl) (by simp)

theorem Transfers.replayable {memory : Address → Address} {entries : List Entry}
    (hs : h.Sound memory entries) (ht : h.Transfers (entries.map Prod.snd)) :
    h.Replayable (entries.map Prod.snd) := by
  obtain ⟨messages, hsend, hall⟩ := ht
  rw [hs.sendHeapSeg_eq] at hsend
  obtain ⟨deliveries, hmessages, hblocks, helements⟩ := exists_deliveries hsend
  obtain ⟨pairs, hp⟩ := exists_paired (hmessages ▸ hsend)
  have hcs : ∀ p ∈ pairs, p.1 ∈ entries.map Prod.snd := fun p hmem ↦
    hp.containers ▸ List.mem_map_of_mem hmem
  have hsame : ∀ p ∈ pairs, p.2.block = p.1.allocatedAddress := by
    rw [← hp.deliveries, ← hp.containers, List.map_map, List.map_map] at hblocks
    exact List.map_inj_left.mp hblocks
  have hfresh := hs.fresh hp hsame helements
  have hblank : (blank h.segments).seg.Represents [] := HeapSeg.represents_initial _
  obtain ⟨r, hr, hrep⟩ := hall (blank h.segments) [] 0 deliveries rfl hblank hmessages hfresh
  obtain ⟨r', hr', hsegments, hblock, hmemory⟩ := hp.receiveHeapSeg hblank 0 hfresh
  obtain rfl := Option.some_inj.mp (hr.symm.trans hr')
  have htraced : ∀ c ∈ entries.map Prod.snd, ∃ e,
      origin ((entries.map Prod.snd).map MallocContainer.assignment) c.containerAddress =
        Sum.inr e := by
    intro c hc
    obtain ⟨-, l', -, hl', -⟩ := hrep.bytes c hc
    exact hs.traced_of_blank hp hsame hblock hmemory hl'
  refine ⟨fun c hc ↦ ?_, htraced, ?_, ?_⟩
  · have hplaced := hrep.placed c hc
    rwa [HasVariables, hsegments] at hplaced
  · intro c hc hnot
    obtain ⟨p, hmem, rfl⟩ := List.mem_map.mp (hp.containers ▸ hc)
    obtain ⟨count, hcount, hread⟩ := hp.bytes_eq hmem hnot
    exact ⟨count, hcount, fun l hl ↦ (hread l hl).1⟩
  · -- a container that still points to the own block of `c` has received what was sent for `c`
    rintro c hc hnot ⟨c', hc', hpoints⟩
    obtain ⟨l₁, l', hl₁, hl', hprefix⟩ := hrep.bytes c' hc'
    obtain ⟨p, hmem, hnot', hpoints', horigin⟩ := hs.pair_of_origin hp (htraced c' hc')
    obtain rfl : p.1 = c := eq_of_pairwise_ne hs.distinct (hcs p hmem) hc hnot' hnot
      (hpoints'.symm.trans hpoints)
    rw [hmemory, horigin, Sum.elim_inr, hblock, hp.delivered hfresh _ hmem hnot,
      Option.some_inj] at hl'
    obtain ⟨count, hcount, hread⟩ := hp.bytes_eq hmem hnot
    have hbegins : ∀ l, h.block (h.seg.memory p.1.containerAddress) = some l →
        l₁ <+: l.take count.toNat := fun l hl ↦ by rwa [← (hread l hl).2, hl']
    constructor
    · -- the own block is as large as its size, and no larger than the count
      obtain ⟨l, hl⟩ := hs.block_of_traced (htraced p.1 hc)
      obtain ⟨-, l₀, hl₀, hlength⟩ := hs.block p.1 hc hnot
      obtain rfl := Option.some_inj.mp ((hpoints ▸ hl₁).symm.trans hl₀)
      have hcut := (hbegins l hl).length_le
      rw [List.length_take] at hcut
      have hlt := (toNat_bcastSize hcount).1
      omega
    · intro l l₀ hl hl₀
      obtain rfl := Option.some_inj.mp ((hpoints ▸ hl₁).symm.trans hl₀)
      exact (hbegins l hl).trans (List.take_prefix _ _)

/-- **The transfer of a heap.** The heap that `rep_malloc` and `rep_assign_malloc_context` have
built is replicated exactly when its list can be replayed. -/
theorem transfers_iff {memory : Address → Address} (hb : h.Built memory) {entries : List Entry}
    (hrep : h.seg.Represents entries) :
    h.Transfers (entries.map Prod.snd) ↔ h.Replayable (entries.map Prod.snd) := by
  obtain ⟨entries', hs⟩ := hb.sound
  obtain rfl := hrep.unique hs.counted.follows.represents
  refine ⟨Transfers.replayable hs, ?_⟩
  intro hr
  obtain ⟨messages, hmessages⟩ := hr.exists_messages hs
  refine ⟨messages, hmessages, ?_⟩
  intro receiver old total deliveries hsegments hold heq hfresh
  rw [hs.sendHeapSeg_eq, ← heq] at hmessages
  obtain ⟨pairs, hp⟩ := exists_paired hmessages
  obtain ⟨r, hr', hsegments', hblock, hmemory⟩ := hp.receiveHeapSeg hold total hfresh
  exact ⟨r, hr', hr.replicates hs hp hfresh (hsegments'.trans hsegments) hblock hmemory⟩

/-- `rep_malloc(&a, 2); rep_assign_malloc_context(&a, &b);` -/
def sharedBlock : Heap where
  seg :=
    { head := some 1
      tail := some 2
      cell := Function.update (Function.update (Function.update (fun _ ↦ none)
        1 (some ⟨⟨10, 0, 100, 2⟩, none, none⟩)) 2 (some ⟨⟨20, 10, 100, 0⟩, none, some 1⟩))
        1 (some ⟨⟨10, 0, 100, 2⟩, some 2, none⟩)
      totalMallocAllocationSize := 2
      mallocNumberOfAllocations := 2
      memory := Function.update (Function.update (fun _ ↦ 0) 10 100) 20 100
      freed := [] }
  block := Function.update (fun _ ↦ none) 100 (some [7, 8])
  segments _ := true

theorem sharedBlock_built : sharedBlock.Built fun _ ↦ 0 := by
  have hmalloc : Built (fun _ ↦ 0) _ := .repMalloc (.start fun _ ↦ true)
    (rfl : [(7 : UInt8), 8].length = (2 : UInt64).toNat) (by decide : (100 : Address) ≠ 0) rfl rfl
    (rfl : HeapSeg.repMalloc _ 10 2 100 1 = some _)
  exact .repAssignMallocContext hmalloc (by decide : (10 : Address) ≠ 0) rfl
    (rfl : HeapSeg.repAssignMallocContext _ 10 20 2 = some _)

theorem sharedBlock_represents :
    sharedBlock.seg.Represents [(1, ⟨10, 0, 100, 2⟩), (2, ⟨20, 10, 100, 0⟩)] :=
  ⟨⟨rfl, rfl, trivial⟩, by decide, rfl, rfl⟩

theorem sharedBlock_replayable :
    sharedBlock.Replayable [⟨10, 0, 100, 2⟩, ⟨20, 10, 100, 0⟩] := by
  refine ⟨fun _ _ ↦ ⟨rfl, fun _ ↦ rfl⟩, ?_, ?_, ?_⟩
  · intro c hc
    obtain rfl | rfl : c = ⟨10, 0, 100, 2⟩ ∨ c = ⟨20, 10, 100, 0⟩ := by simpa using hc
    · exact ⟨⟨10, 0, 100, 2⟩, rfl⟩
    · exact ⟨⟨10, 0, 100, 2⟩, rfl⟩
  · intro c hc hnot
    obtain rfl | rfl : c = ⟨10, 0, 100, 2⟩ ∨ c = ⟨20, 10, 100, 0⟩ := by simpa using hc
    · refine ⟨2, rfl, fun l hl ↦ ?_⟩
      obtain rfl : [7, 8] = l := Option.some_inj.mp hl
      decide
    · exact absurd (by decide) hnot
  · rintro c hc hnot -
    obtain rfl | rfl : c = ⟨10, 0, 100, 2⟩ ∨ c = ⟨20, 10, 100, 0⟩ := by simpa using hc
    · refine ⟨by decide, fun l l₀ hl hl₀ ↦ ?_⟩
      rw [Option.some_inj.mp (hl₀.symm.trans hl)]
    · exact absurd (by decide) hnot

theorem transfers_sharedBlock :
    sharedBlock.Transfers [⟨10, 0, 100, 2⟩, ⟨20, 10, 100, 0⟩] :=
  (transfers_iff sharedBlock_built sharedBlock_represents).mpr sharedBlock_replayable

/-- `rep_malloc(&a, 20); rep_malloc(&a, 4);`: twenty bytes are read from the block of four. -/
theorem not_transfers_realloc :
    ¬∀ (h : Heap) (entries : List Entry), h.Built (fun _ ↦ 0) → h.seg.Represents entries →
      h.Transfers (entries.map Prod.snd) := by
  intro hall
  have hfirst : Built (fun _ ↦ 0) _ := .repMalloc (.start fun _ ↦ true)
    (rfl : (List.replicate 20 (7 : UInt8)).length = (20 : UInt64).toNat)
    (by decide : (100 : Address) ≠ 0) rfl rfl (rfl : HeapSeg.repMalloc _ 10 20 100 1 = some _)
  have hsecond : Built (fun _ ↦ 0) _ := .repMalloc hfirst
    (rfl : [(1 : UInt8), 2, 3, 4].length = (4 : UInt64).toNat)
    (by decide : (200 : Address) ≠ 0) rfl rfl (rfl : HeapSeg.repMalloc _ 10 4 200 2 = some _)
  obtain ⟨entries, hs⟩ := hsecond.sound
  obtain ⟨messages, hsend, -⟩ := hall _ entries hsecond hs.counted.follows.represents
  exact absurd hsend (by rw [show sendHeapSeg _ = none from rfl]; simp)

end Heap

end EntangledMPI.Replication
