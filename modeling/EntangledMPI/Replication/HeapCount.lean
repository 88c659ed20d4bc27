import EntangledMPI.Replication.HeapTransfer

/-!
# The number of allocations

`malloc_number_of_allocations` is kept apart from the list: `rep_malloc` and
`rep_assign_malloc_context` add one, and so do the rebuilding functions by taking over the number of
another process. `rep_free` does not subtract one, and a receiver counts an entry of
`rep_assign_malloc_context` without appending it.

## Main result

`HeapSeg.counts_iff`: the number is that of the entries as long as no `rep_free` finds an entry
and no entry received is one of `rep_assign_malloc_context`, and no longer.
-/

namespace EntangledMPI.Replication

open LinkedCells

/-- What a process does with its list. -/
inductive HeapCall
  | call (call : Call)
  | send
  | receive (total : UInt64) (entries : List Incoming)
  | restore (entries : List Incoming)

namespace HeapCall

def exec (s : HeapSeg) : HeapCall → Option HeapSeg
  | call c => c.exec s
  | send => s.sentContainers.map fun _ ↦ s
  | receive total entries => s.receiveHeapSeg total entries
  | restore entries => s.restoreHeapSeg entries

def live (L : Live) : HeapCall → Live
  | call c => c.live L
  | send => L
  | receive _ entries => L.receiveHeapSeg entries
  | restore entries => L.restoreHeapSeg entries

/-- `malloc` returns no cell that is in use, and a checkpoint is restored into an empty list. -/
def Allocates (L : Live) : HeapCall → Prop
  | call c => c.Allocates L
  | send => True
  | receive _ entries => (receivedElements entries).Nodup
  | restore entries => L.entries = [] ∧ (entries.map Incoming.element).Nodup

/-- `rep_free` finds no entry, and no entry received is one of `rep_assign_malloc_context`. -/
def KeepsCount (L : Live) : HeapCall → Prop
  | call (.repFree contAdd) => ∀ e ∈ L.entries, e.2.containerAddress ≠ contAdd
  | receive _ entries => ∀ m ∈ entries, ¬m.IsAlias
  | _ => True

end HeapCall

namespace HeapSeg

/-- Following `next` from `head`, one meets as many entries as are counted. -/
def CountMatches (s : HeapSeg) : Prop :=
  ∃ l, Visits s.cell Cell.next s.head l ∧ l.length = s.mallocNumberOfAllocations

/-- The states that calls which meet a condition lead to, with the entries they have left live. -/
inductive Reached (memory : Address → Address) (condition : Live → HeapCall → Prop) :
    HeapSeg → Live → Prop
  | start : Reached memory condition (initial memory) ⟨[], memory⟩
  | step {s s' : HeapSeg} {L : Live} {call : HeapCall} (h : Reached memory condition s L)
      (halloc : call.Allocates L) (hcondition : condition L call) (hexec : call.exec s = some s') :
      Reached memory condition s' (call.live L)

/-! ## Counting a list -/

variable {s s' : HeapSeg} {L : Live}

/-- While the cells are linked in order, counting means counting the entries. -/
theorem Represents.countMatches_iff {entries : List Entry} (h : s.Represents entries) :
    s.CountMatches ↔ entries.length = s.mallocNumberOfAllocations := by
  have hvisits : Visits s.cell Cell.next s.head (addresses entries) := h.head ▸ h.linked.visits_next
  have hlength : (addresses entries).length = entries.length := List.length_map _
  constructor
  · rintro ⟨l, hl, hcount⟩
    rw [← hlength, hvisits.unique hl, hcount]
  · intro hcount
    exact ⟨_, hvisits, hlength.trans hcount⟩

/-- The invariant of a run that keeps the count. -/
structure Counted (s : HeapSeg) (L : Live) : Prop where
  follows : s.Follows L
  count : s.mallocNumberOfAllocations = L.entries.length

theorem Counted.countMatches (h : s.Counted L) : s.CountMatches :=
  h.follows.represents.countMatches_iff.mpr h.count.symm

theorem Counted.sentContainers (h : s.Counted L) :
    s.sentContainers = some (L.entries.map Prod.snd) := by
  have hsent := sentFrom_eq h.follows.represents.linked
  rwa [← h.follows.represents.head, ← h.count] at hsent

theorem counted_initial (memory : Address → Address) : (initial memory).Counted ⟨[], memory⟩ :=
  ⟨⟨represents_initial memory, rfl⟩, rfl⟩

/-! ## Removing an entry -/

theorem count_repRemove {a : Address} (h : s.repRemove a = some s') :
    s'.mallocNumberOfAllocations = s.mallocNumberOfAllocations ∧ s'.cell a = none := by
  simp only [repRemove, Option.bind_eq_bind, Option.bind_eq_some_iff] at h
  obtain ⟨element, -, h⟩ := h
  split at h
  · rw [← Option.some_inj.mp h]
    exact ⟨rfl, Function.update_self ..⟩
  · simp only [Option.bind_eq_some_iff] at h
    obtain ⟨cell, -, cell', -, h⟩ := h
    rw [← Option.some_inj.mp h]
    exact ⟨rfl, Function.update_self ..⟩

/-- After the last of several entries is removed, the walk from `head` ends before it. -/
theorem Represents.visits_repRemove_last {l : List Entry} {p e : Entry}
    (h : s.Represents (l ++ [p] ++ [e])) :
    ∃ s', s.repRemove e.1 = some s' ∧
      Visits s'.cell Cell.next s'.head (addresses (l ++ [p])) := by
  obtain ⟨hlinked, hnodup, hhead, -⟩ := h
  obtain ⟨hfront, hcell, -⟩ := linked_append.mp hlinked
  rw [addresses_append] at hnodup
  obtain ⟨cell, hset, hfront', -⟩ := hfront.setNext_getLast hnodup.of_append_left none
  have he : e.1 ∉ addresses (l ++ [p]) := fun hmem ↦
    List.disjoint_left.mp (List.disjoint_of_nodup_append hnodup) hmem List.mem_cons_self
  have hlinked' := hfront'.update_of_notMem he none
  refine ⟨{ s with cell := Function.update cell e.1 none }, ?_, ?_⟩
  · rw [repRemove, hcell]
    simp [setPrevUnlessNull, setNextUnlessNull, hset]
  · have hhead' : s.head = (l ++ [p]).head?.map Prod.fst := by
      rw [hhead]
      cases l <;> rfl
    dsimp only
    rw [hhead']
    exact hlinked'.visits_next

/-- **A `rep_free` that finds an entry** leaves a list that is shorter than the count, or one whose
`head` points to the freed cell. -/
theorem Represents.not_countMatches_repFree {entries : List Entry} (h : s.Represents entries)
    (hcount : s.mallocNumberOfAllocations = entries.length) {contAdd : Address}
    (hfound : ¬∀ e ∈ entries, e.2.containerAddress ≠ contAdd) (hs' : s.repFree contAdd = some s') :
    ¬s'.CountMatches := by
  rw [h.repFree_eq] at hs'
  cases hfind : entries.find? fun e ↦ e.2.containerAddress = contAdd with
  | none => exact absurd (fun e he ↦ by simpa using List.find?_eq_none.mp hfind e he) hfound
  | some e =>
    obtain ⟨-, l, l', rfl, -⟩ := List.find?_eq_some_iff_append.mp hfind
    rw [hfind] at hs'
    obtain ⟨hcount', hfreed⟩ := count_repRemove hs'
    have hcell := (linked_append.mp h.linked).2.1
    have hs : HeapSeg.Represents { s with freed := e.2.allocatedAddress :: s.freed }
        (l ++ e :: l') := ⟨h.linked, h.nodup, h.head, h.tail⟩
    have hlength : s'.mallocNumberOfAllocations = l.length + l'.length + 1 := by
      rw [hcount'.trans hcount, List.length_append, List.length_cons, Nat.add_assoc]
    rcases List.eq_nil_or_concat' l with rfl | ⟨l, p, rfl⟩ <;> rcases l' with - | ⟨n, l'⟩
    · -- the only entry: the list is empty, and the count is one
      obtain ⟨s₁, hs₁, -, hrep⟩ := hs.repRemove_singleton
      obtain rfl := Option.some_inj.mp (hs'.symm.trans hs₁)
      rw [hrep.countMatches_iff, hlength]
      simp
    · -- the first of several: a walk from `head` starts at the freed cell
      rintro ⟨l, hl, hlen⟩
      have hhead := (ends_repRemove hs' hcell (by simp)).1.trans h.head
      cases l with
      | nil => exact absurd (hhead.symm.trans hl) (by simp)
      | cons a l =>
        obtain ⟨ha, c, hc, -⟩ := hl
        obtain rfl : e.1 = a := Option.some_inj.mp (hhead.symm.trans ha)
        exact absurd (hfreed.symm.trans hc) (by simp)
    · -- the last of several: `tail` is wrong, but a walk from `head` ends, one entry early
      obtain ⟨s₁, hs₁, hvisits⟩ := hs.visits_repRemove_last
      obtain rfl := Option.some_inj.mp (hs'.symm.trans hs₁)
      rintro ⟨l', hl', hlen⟩
      rw [← hvisits.unique hl', hlength] at hlen
      simp [addresses] at hlen
    · -- between two others the list stays linked, one shorter than the count
      obtain ⟨s₁, hs₁, -, hrep⟩ := hs.repRemove_between
      obtain rfl := Option.some_inj.mp (hs'.symm.trans hs₁)
      rw [hrep.countMatches_iff, hlength]
      simp only [List.length_append, List.length_cons, List.length_nil]
      omega

/-! ## One call -/

theorem Counted.call (h : s.Counted L) {call : Call} (halloc : call.Allocates L)
    (hkeeps : (HeapCall.call call).KeepsCount L) :
    ∃ s', call.exec s = some s' ∧ s'.Counted (call.live L) := by
  have hends : ∀ contAdd, call = .repFree contAdd → KeepsEnds L.entries contAdd := by
    rintro contAdd rfl l e l' hsplit - he
    exact absurd he (hkeeps e (hsplit ▸ by simp))
  obtain ⟨s', hs', hmem, hrep⟩ := h.follows.represents.exec h.follows.memory halloc hends
  refine ⟨s', hs', ⟨hrep, hmem⟩, ?_⟩
  cases call with
  | repMalloc container size block element =>
    rw [count_repAppend hs', Call.live, List.length_append, h.count]
    rfl
  | repAssignMallocContext source dest element =>
    rw [Call.exec, repAssignMallocContext] at hs'
    simp only [Option.bind_eq_bind, Option.bind_eq_some_iff] at hs'
    obtain ⟨s₁, hs₁, hs'⟩ := hs'
    rw [← Option.some_inj.mp hs', Call.live, List.length_append, ← h.count]
    exact count_repAppend hs₁
  | repFree contAdd =>
    have hnone : ∀ e ∈ L.entries, ¬decide (e.2.containerAddress = contAdd) = true := fun e he ↦ by
      simpa using hkeeps e he
    rw [Call.exec, h.follows.represents.repFree_eq, List.find?_eq_none.mpr hnone] at hs'
    rw [← Option.some_inj.mp hs', Call.live, List.eraseP_of_forall_not hnone, h.count]
  | assign pointer value =>
    rw [← Option.some_inj.mp hs', Call.live, h.count]

theorem length_receiveHeapSeg (L : Live) (entries : List Incoming) :
    (L.receiveHeapSeg entries).entries.length = (receivedElements entries).length := by
  suffices h : ∀ L : Live, (entries.foldl Live.receiveTurn L).entries.length =
      L.entries.length + (receivedElements entries).length from
    (h { L with entries := [] }).trans (Nat.zero_add _)
  induction entries with
  | nil => exact fun L ↦ rfl
  | cons m entries ih =>
    intro L
    rw [List.foldl_cons, ih]
    by_cases halias : m.IsAlias
    · rw [Live.receiveTurn, if_pos halias, receivedElements_cons_of_alias entries halias]
    · rw [Live.receiveTurn, if_neg halias, receivedElements_cons_of_not entries halias, Live.place]
      simp only [List.length_append, List.length_cons, List.length_nil]
      omega

theorem length_restoreHeapSeg (L : Live) (entries : List Incoming) :
    (L.restoreHeapSeg entries).entries.length = L.entries.length + entries.length := by
  induction entries generalizing L with
  | nil => rfl
  | cons m entries ih =>
    rw [Live.restoreHeapSeg, List.foldl_cons]
    refine (ih (L.place m)).trans ?_
    simp only [Live.place, List.length_append, List.length_cons, List.length_nil]
    omega

theorem length_receivedElements_eq_iff (entries : List Incoming) :
    (receivedElements entries).length = entries.length ↔ ∀ m ∈ entries, ¬m.IsAlias := by
  rw [receivedElements, List.length_map, List.length_filter_eq_length_iff]
  simp

/-- **One call** keeps the number and the list in step. -/
theorem Counted.step (h : s.Counted L) {call : HeapCall} (halloc : call.Allocates L)
    (hkeeps : call.KeepsCount L) : ∃ s', call.exec s = some s' ∧ s'.Counted (call.live L) := by
  cases call with
  | call c => exact h.call halloc hkeeps
  | send => exact ⟨s, by rw [HeapCall.exec, h.sentContainers, Option.map_some], h⟩
  | receive total entries =>
    obtain ⟨s', hs', hfollows, hcount⟩ := h.follows.receiveHeapSeg total halloc
    refine ⟨s', hs', hfollows, ?_⟩
    rw [hcount, HeapCall.live, length_receiveHeapSeg,
      (length_receivedElements_eq_iff entries).mpr hkeeps]
  | restore entries =>
    obtain ⟨hempty, hnodup⟩ := halloc
    obtain ⟨s', hs', hfollows, hcount⟩ := h.follows.restoreHeapSeg (by simpa [hempty] using hnodup)
    refine ⟨s', hs', hfollows, ?_⟩
    rw [hcount, HeapCall.live, length_restoreHeapSeg, hempty, List.length_nil, Nat.zero_add]

theorem Counted.keepsCount (h : s.Counted L) {call : HeapCall} (halloc : call.Allocates L)
    (hs' : call.exec s = some s') (hmatches : s'.CountMatches) : call.KeepsCount L := by
  cases call with
  | call c =>
    cases c with
    | repFree contAdd =>
      by_contra hfound
      exact h.follows.represents.not_countMatches_repFree h.count hfound hs' hmatches
    | repMalloc | repAssignMallocContext | assign => trivial
  | receive total entries =>
    obtain ⟨s₁, hs₁, hfollows, hcount⟩ := h.follows.receiveHeapSeg total halloc
    obtain rfl := Option.some_inj.mp (hs'.symm.trans hs₁)
    rw [hfollows.represents.countMatches_iff, length_receiveHeapSeg, hcount] at hmatches
    exact (length_receivedElements_eq_iff entries).mp hmatches
  | send | restore => trivial

/-! ## Runs -/

theorem Reached.counted {memory : Address → Address} (h : Reached memory HeapCall.KeepsCount s L) :
    s.Counted L := by
  induction h with
  | start => exact counted_initial memory
  | step h halloc hkeeps hexec ih =>
    obtain ⟨s₁, hs₁, hcounted⟩ := ih.step halloc hkeeps
    obtain rfl := Option.some_inj.mp (hexec.symm.trans hs₁)
    exact hcounted

/-- **The number of entries.** It is the number counted in every state of a run in which no
`rep_free` finds an entry and no entry received is one of `rep_assign_malloc_context`, and a further
call keeps it so exactly when it is of this kind. -/
theorem counts_iff {memory : Address → Address} (h : Reached memory HeapCall.KeepsCount s L) :
    s.CountMatches ∧ ∀ call : HeapCall, call.Allocates L →
      ((∃ s', call.exec s = some s' ∧ s'.CountMatches) ↔ call.KeepsCount L) := by
  have hcounted := h.counted
  refine ⟨hcounted.countMatches, fun call halloc ↦ ⟨?_, ?_⟩⟩
  · rintro ⟨s', hs', hmatches⟩
    exact hcounted.keepsCount halloc hs' hmatches
  · intro hkeeps
    obtain ⟨s', hs', hcounted'⟩ := hcounted.step halloc hkeeps
    exact ⟨s', hs', hcounted'.countMatches⟩

/-- One allocation, which leaves one entry. -/
theorem counts_one_entry :
    ∃ s L, s.mallocNumberOfAllocations = 1 ∧ s.CountMatches ∧ ∀ call : HeapCall, call.Allocates L →
      ((∃ s', call.exec s = some s' ∧ s'.CountMatches) ↔ call.KeepsCount L) :=
  have halloc : (HeapCall.call (.repMalloc 10 4 100 1)).Allocates ⟨[], fun _ ↦ 0⟩ := by
    simp [HeapCall.Allocates, Call.Allocates]
  ⟨_, _, rfl, counts_iff (.step .start halloc trivial rfl)⟩

/-- An allocation that is freed again is still counted. -/
theorem not_countMatches_malloc_free :
    ¬∀ s L, Reached (fun _ ↦ 0) (fun _ _ ↦ True) s L → s.CountMatches := by
  intro hmatches
  have halloc : (HeapCall.call (.repMalloc 10 4 100 1)).Allocates ⟨[], fun _ ↦ 0⟩ := by
    simp [HeapCall.Allocates, Call.Allocates]
  obtain ⟨l, hl, hcount⟩ := hmatches _ _ (@Reached.step _ _ _ _ _ (.call (.repFree 10))
    (.step .start halloc trivial rfl) trivial trivial rfl)
  cases l with
  | nil => exact absurd hcount zero_ne_one
  | cons a l => exact absurd hl.1 (Option.some_ne_none a).symm

end HeapSeg

end EntangledMPI.Replication
