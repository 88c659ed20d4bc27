import EntangledMPI.Replication.HeapSeg

/-!
# When the list of allocations stays in order

`rep_append` keeps head, tail and the links in step. `rep_remove` repairs the links of the two
neighbours but writes `head` and `tail` only when the list becomes empty, so removing the first of
several entries leaves `head` at a freed cell, and removing the last leaves `tail` at one.

## Main result

`soundThroughout_iff`: a run keeps the list in order exactly when every `rep_free` of it removes
nothing, the only entry, or an entry with a neighbour on both sides.
-/

namespace EntangledMPI.Replication

open LinkedCells

/-! ## The invariant -/

/-- The cells of the live entries are linked in order between `head` and `tail`. -/
structure HeapSeg.Represents (s : HeapSeg) (entries : List Entry) : Prop where
  linked : Linked s.cell none entries none
  nodup : (addresses entries).Nodup
  head : s.head = entries.head?.map Prod.fst
  tail : s.tail = entries.getLast?.map Prod.fst

theorem HeapSeg.represents_initial (memory : Address → Address) :
    (HeapSeg.initial memory).Represents [] :=
  ⟨trivial, List.nodup_nil, rfl, rfl⟩

namespace HeapSeg.Represents

variable {s : HeapSeg} {entries : List Entry}

theorem inOrder (h : s.Represents entries) : s.InOrder entries where
  content e he := by
    obtain ⟨l, l', rfl⟩ := List.mem_iff_append.mp he
    rw [(linked_append.mp h.linked).2.1, Option.map_some]
  forward := h.head ▸ h.linked.visits_next
  backward := h.tail ▸ h.linked.visits_prev
  empty := by
    rw [h.head, h.tail]
    cases entries with
    | nil => simp
    | cons e l => simp
  reachable a ha := by
    rcases ha with ha | ha
    · apply ha.mem h.linked
      intro b hb
      obtain ⟨e, he, rfl⟩ := Option.map_eq_some_iff.mp (h.head.symm.trans hb)
      exact List.mem_map_of_mem (List.mem_of_mem_head? he)
    · apply ha.mem h.linked
      intro b hb
      obtain ⟨e, he, rfl⟩ := Option.map_eq_some_iff.mp (h.tail.symm.trans hb)
      exact List.mem_map_of_mem (List.mem_of_mem_getLast? he)

theorem unique {entries' : List Entry} (h : s.Represents entries) (h' : s.Represents entries') :
    entries = entries' := h.linked.unique h'.linked (h.head.symm.trans h'.head)

/-! ## Appending -/

theorem repAppend (h : s.Represents entries) {element : Address}
    (hnew : element ∉ addresses entries) (container : MallocContainer) :
    ∃ s', s.repAppend container element = some s' ∧ s'.memory = s.memory ∧
      s'.Represents (entries ++ [(element, container)]) := by
  have hnodup : (addresses (entries ++ [(element, container)])).Nodup := by
    rw [addresses_append]
    exact h.nodup.append (List.nodup_singleton _) (by simpa using hnew)
  obtain ⟨hlinked, -, hhead, htail⟩ := h
  rcases List.eq_nil_or_concat' entries with rfl | ⟨l, e, rfl⟩
  · refine ⟨{ s with
      cell := Function.update s.cell element (some ⟨container, none, s.tail⟩)
      head := some element
      tail := some element }, ?_, rfl, ⟨?_, trivial⟩, hnodup, rfl, rfl⟩
    · rw [HeapSeg.repAppend, hhead]
      rfl
    · rw [htail]
      exact Function.update_self _ _ _
  · rw [addresses_append] at hnodup
    obtain ⟨cell, hset, hcell⟩ := hlinked.append (x := container) hnodup.of_append_left hnew
    have hlast : s.tail = some e.1 := by rw [htail, List.getLast?_append]; rfl
    refine ⟨{ s with cell := cell, tail := some element }, ?_, rfl, hcell, ?_, ?_, by simp⟩
    · rw [HeapSeg.repAppend, hhead, hlast]
      cases l <;> simp [hset]
    · rw [addresses_append]
      exact hnodup
    · rw [hhead]
      cases l <;> rfl

end HeapSeg.Represents

/-! ## Removing -/

/-- An entry between two others is removed: the cells of the two are linked, and `head` and `tail`
left alone. -/
theorem HeapSeg.repRemove_between {s : HeapSeg} {l l' : List Entry} {p e n : Entry}
    (hlinked : Linked s.cell none (l ++ [p] ++ e :: n :: l') none)
    (hnodup : (addresses (l ++ [p] ++ e :: n :: l')).Nodup) :
    ∃ cell, s.repRemove e.1 = some { s with cell := cell } ∧
      Linked cell none (l ++ [p] ++ n :: l') none ∧ ∀ a, s.cell a = none → cell a = none := by
  obtain ⟨s₁, s₂, hprev, hnext, hremoved⟩ := hlinked.remove hnodup
  have hcell := (linked_append.mp hlinked).2.1
  refine ⟨Function.update s₂ e.1 none, ?_, hremoved, ?_⟩
  · rw [HeapSeg.repRemove, hcell]
    simp [setPrevUnlessNull, setNextUnlessNull, hprev, hnext]
  · intro a ha
    by_cases hae : a = e.1
    · rw [hae, Function.update_self]
    · rw [Function.update_of_ne hae]
      exact (eq_none_of_setNext hnext).mpr ((eq_none_of_setPrev hprev).mpr ha)

namespace HeapSeg.Represents

variable {s : HeapSeg} {entries : List Entry}

theorem repRemove_singleton {e : Entry} (h : s.Represents [e]) :
    ∃ s', s.repRemove e.1 = some s' ∧ s'.memory = s.memory ∧ s'.Represents [] := by
  have hcell := h.linked.1
  refine ⟨{ s with cell := Function.update s.cell e.1 none, head := none, tail := none }, ?_, rfl,
    trivial, List.nodup_nil, rfl, rfl⟩
  rw [HeapSeg.repRemove, hcell]
  rfl

theorem repRemove_between {l l' : List Entry} {p e n : Entry}
    (h : s.Represents (l ++ [p] ++ e :: n :: l')) :
    ∃ s', s.repRemove e.1 = some s' ∧ s'.memory = s.memory ∧
      s'.Represents (l ++ [p] ++ n :: l') := by
  obtain ⟨hlinked, hnodup, hhead, htail⟩ := h
  obtain ⟨cell, hremove, hremoved, -⟩ := HeapSeg.repRemove_between hlinked hnodup
  refine ⟨{ s with cell := cell }, hremove, rfl, hremoved, ?_, ?_, ?_⟩
  · exact hnodup.sublist
      (((List.sublist_cons_self e (n :: l')).append_left (l ++ [p])).map Prod.fst)
  · rw [hhead]
    cases l <;> rfl
  · rw [htail, List.getLast?_append, List.getLast?_append (l := l ++ [p]), List.getLast?_cons_cons]

end HeapSeg.Represents

theorem HeapSeg.ends_repRemove {s s' : HeapSeg} {a : Address} (h : s.repRemove a = some s')
    {c : MallocList} (hc : s.cell a = some c) (hne : ¬(c.next = none ∧ c.prev = none)) :
    s'.head = s.head ∧ s'.tail = s.tail := by
  rw [repRemove, hc, Option.bind_eq_bind, Option.bind_some, if_neg hne] at h
  simp only [Option.bind_eq_bind, Option.bind_eq_some_iff] at h
  obtain ⟨cell, -, cell', -, h⟩ := h
  obtain rfl := Option.some_inj.mp h
  exact ⟨rfl, rfl⟩

/-! ## Looking for the entry of a container -/

theorem repFreeFrom_eq {s : HeapSeg} {before : Option Address} {entries : List Entry}
    (h : Linked s.cell before entries none) (contAdd : Address) {fuel : ℕ}
    (hfuel : entries.length ≤ fuel) :
    s.repFreeFrom contAdd fuel (entries.head?.map Prod.fst) =
      match entries.find? fun e ↦ e.2.containerAddress = contAdd with
      | none => some s
      | some e => HeapSeg.repRemove { s with freed := e.2.allocatedAddress :: s.freed } e.1 := by
  induction entries generalizing before fuel with
  | nil => cases fuel <;> rfl
  | cons e l ih =>
    obtain ⟨fuel, rfl⟩ : ∃ k, fuel = k + 1 := ⟨fuel - 1, by simp at hfuel; omega⟩
    rw [List.head?_cons, Option.map_some, HeapSeg.repFreeFrom, h.1, Option.bind_eq_bind,
      Option.bind_some]
    by_cases hcont : e.2.containerAddress = contAdd
    · rw [if_pos hcont, List.find?_cons_of_pos (by simpa using hcont)]
    · rw [if_neg hcont, List.find?_cons_of_neg (by simpa using hcont), Option.or_none]
      exact ih h.2 (by simpa using hfuel)

theorem length_le_of_nodup {entries : List Entry} (h : (addresses entries).Nodup) :
    entries.length ≤ 2 ^ 64 := by
  have hfin : ((addresses entries).map UInt64.toFin).Nodup :=
    h.map fun a b hab ↦ UInt64.toFin_inj.mp hab
  have hcard := hfin.length_le_card
  rw [Fintype.card_fin, List.length_map, addresses, List.length_map] at hcard
  exact hcard

/-- The entry `rep_free` finds, seen from the list of live entries. -/
theorem first_of_container {l : List Entry} (l' : List Entry) {e : Entry} {contAdd : Address}
    (hl : ∀ e' ∈ l, e'.2.containerAddress ≠ contAdd) (he : e.2.containerAddress = contAdd) :
    ((l ++ e :: l').find? fun e ↦ decide (e.2.containerAddress = contAdd)) = some e ∧
      ((l ++ e :: l').eraseP fun e ↦ decide (e.2.containerAddress = contAdd)) = l ++ l' := by
  have hnot : ∀ e' ∈ l, ¬decide (e'.2.containerAddress = contAdd) = true := by simpa using hl
  constructor
  · refine List.find?_eq_some_iff_append.mpr ⟨by simpa using he, l, l', rfl, fun e' he' ↦ ?_⟩
    simpa using hl e' he'
  · rw [List.eraseP_append_right _ hnot, List.eraseP_cons_of_pos (by simpa using he)]

theorem HeapSeg.repFree_eq {s : HeapSeg} {entries : List Entry}
    (hlinked : Linked s.cell none entries none) (hnodup : (addresses entries).Nodup)
    (hhead : s.head = entries.head?.map Prod.fst) (contAdd : Address) :
    s.repFree contAdd =
      match entries.find? fun e ↦ e.2.containerAddress = contAdd with
      | none => some s
      | some e => HeapSeg.repRemove { s with freed := e.2.allocatedAddress :: s.freed } e.1 := by
  have hloop := repFreeFrom_eq hlinked contAdd (length_le_of_nodup hnodup)
  rw [← hhead] at hloop
  exact hloop

namespace HeapSeg.Represents

variable {s : HeapSeg} {entries : List Entry}

theorem repFree_eq (h : s.Represents entries) (contAdd : Address) :
    s.repFree contAdd =
      match entries.find? fun e ↦ e.2.containerAddress = contAdd with
      | none => some s
      | some e => HeapSeg.repRemove { s with freed := e.2.allocatedAddress :: s.freed } e.1 :=
  HeapSeg.repFree_eq h.linked h.nodup h.head contAdd

/-- **`rep_free` with both ends kept** deletes the entry it finds and leaves the rest linked. -/
theorem repFree (h : s.Represents entries) {contAdd : Address} (hk : KeepsEnds entries contAdd) :
    ∃ s', s.repFree contAdd = some s' ∧ s'.memory = s.memory ∧
      s'.Represents (entries.eraseP fun e ↦ e.2.containerAddress = contAdd) := by
  rw [h.repFree_eq]
  cases hfind : entries.find? fun e ↦ e.2.containerAddress = contAdd with
  | none =>
    refine ⟨s, rfl, rfl, ?_⟩
    rwa [List.eraseP_of_forall_not fun e he ↦ List.find?_eq_none.mp hfind e he]
  | some e =>
    obtain ⟨he, l, l', rfl, hl⟩ := List.find?_eq_some_iff_append.mp hfind
    have he' : e.2.containerAddress = contAdd := by simpa using he
    have hl' : ∀ e' ∈ l, e'.2.containerAddress ≠ contAdd := fun e' hmem ↦ by simpa using hl e' hmem
    have hends := hk l e l' rfl hl' he'
    have hs : HeapSeg.Represents { s with freed := e.2.allocatedAddress :: s.freed }
        (l ++ e :: l') := ⟨h.linked, h.nodup, h.head, h.tail⟩
    rw [(first_of_container l' hl' he').2]
    rcases List.eq_nil_or_concat' l with rfl | ⟨l, p, rfl⟩
    · obtain rfl := hends.mp rfl
      exact hs.repRemove_singleton
    · cases l' with
      | nil => exact absurd (hends.mpr rfl) (by simp)
      | cons n l' => exact hs.repRemove_between

/-- **`rep_free` of the first or the last of several entries** leaves `head` or `tail` at the cell
it freed. -/
theorem not_inOrder_repFree (h : s.Represents entries) {contAdd : Address}
    (hk : ¬KeepsEnds entries contAdd) {s' : HeapSeg} (hs' : s.repFree contAdd = some s') :
    ¬s'.InOrder (entries.eraseP fun e ↦ e.2.containerAddress = contAdd) := by
  intro hin
  apply hk
  intro l e l' hsplit hl he
  subst hsplit
  obtain ⟨hfind, herase⟩ := first_of_container l' hl he
  have hcell := (linked_append.mp h.linked).2.1
  have hnodup := h.nodup
  rw [h.repFree_eq, hfind] at hs'
  rw [herase] at hin
  have hends := fun hne ↦ HeapSeg.ends_repRemove hs' hcell hne
  rw [addresses_append, addresses_cons, List.nodup_append, List.nodup_cons] at hnodup
  constructor
  · rintro rfl
    cases l' with
    | nil => rfl
    | cons n l' =>
      -- `head` is still the freed cell, which is not the first of the rest
      have hhead := (hends (by simp)).1.trans h.head
      have hfirst := hin.forward.1
      rw [hhead] at hfirst
      have hen : e.1 = n.1 := Option.some_inj.mp hfirst
      exact absurd (hen ▸ List.mem_cons_self) hnodup.2.1.1
  · rintro rfl
    rcases List.eq_nil_or_concat' l with rfl | ⟨l, p, rfl⟩
    · rfl
    · -- the same from behind, with `tail`
      have htail := (hends (by simp)).2.trans h.tail
      have hlast := hin.backward
      rw [List.append_nil, addresses_append, List.reverse_append] at hlast
      have hfirst := hlast.1
      rw [htail, List.getLast?_append] at hfirst
      have hep : e.1 = p.1 := Option.some_inj.mp hfirst
      exact absurd hep.symm (hnodup.2.2 p.1 (by simp) e.1 List.mem_cons_self)

/-! ## One call -/

/-- One call keeps the cells in step with the live entries. -/
theorem exec {L : Live} (h : s.Represents L.entries) (hm : s.memory = L.memory) {call : Call}
    (halloc : call.Allocates L)
    (hk : ∀ contAdd, call = .repFree contAdd → KeepsEnds L.entries contAdd) :
    ∃ s', call.exec s = some s' ∧ s'.memory = (call.live L).memory ∧
      s'.Represents (call.live L).entries := by
  -- the counters do not matter to the list
  cases call with
  | repMalloc container size block element =>
    have hs : HeapSeg.Represents
        { s with
          memory := Function.update s.memory container block
          totalMallocAllocationSize := s.totalMallocAllocationSize + size
          mallocNumberOfAllocations := s.mallocNumberOfAllocations + 1 } L.entries :=
      ⟨h.linked, h.nodup, h.head, h.tail⟩
    obtain ⟨s', hs', hmem, hrep⟩ := hs.repAppend halloc ⟨container, 0, block, size⟩
    exact ⟨s', hs', by rw [hmem, Call.live, hm], hrep⟩
  | repAssignMallocContext source dest element =>
    have hs : HeapSeg.Represents
        { s with mallocNumberOfAllocations := s.mallocNumberOfAllocations + 1 } L.entries :=
      ⟨h.linked, h.nodup, h.head, h.tail⟩
    obtain ⟨s', hs', hmem, hrep⟩ := hs.repAppend halloc ⟨dest, source, s.memory source, 0⟩
    refine ⟨{ s' with memory := Function.update s'.memory dest (s'.memory source) }, ?_, ?_, ?_⟩
    · rw [Call.exec, HeapSeg.repAssignMallocContext, hs']
      rfl
    · rw [hmem, Call.live, hm]
    · rw [hm] at hrep
      exact ⟨hrep.linked, hrep.nodup, hrep.head, hrep.tail⟩
  | repFree contAdd =>
    obtain ⟨s', hs', hmem, hrep⟩ := h.repFree (hk contAdd rfl)
    exact ⟨s', hs', hmem.trans hm, hrep⟩
  | assign pointer value =>
    exact ⟨_, rfl, by rw [Call.live, hm], ⟨h.linked, h.nodup, h.head, h.tail⟩⟩

end HeapSeg.Represents

/-! ## Runs -/

variable {memory : Address → Address} {calls : List Call}

theorem exec_concat (memory : Address → Address) (calls : List Call) (call : Call) :
    exec memory (calls ++ [call]) = (exec memory calls).bind fun s ↦ call.exec s := by
  rw [exec, exec, List.foldlM_append]
  simp [List.foldlM_cons, List.foldlM_nil]

theorem live_concat (memory : Address → Address) (calls : List Call) (call : Call) :
    live memory (calls ++ [call]) = call.live (live memory calls) := by
  rw [live, live, List.foldl_append]
  rfl

theorem throughout_nil (P : List Call → Call → Prop) : Throughout P [] := fun _ _ h ↦
  absurd (List.prefix_nil.mp h) (by simp)

theorem throughout_concat {P : List Call → Call → Prop} (calls : List Call) (call : Call) :
    Throughout P (calls ++ [call]) ↔ Throughout P calls ∧ P calls call := by
  constructor
  · exact fun h ↦ ⟨fun before k hpre ↦ h before k (hpre.trans (List.prefix_append _ _)),
      h calls call List.prefix_rfl⟩
  · rintro ⟨h, hlast⟩ before k hpre
    rcases List.prefix_concat_iff.mp hpre with heq | hpre
    · obtain ⟨rfl, rfl⟩ := List.append_singleton_inj.mp heq
      exact hlast
    · exact h before k hpre

theorem soundThroughout_concat {call : Call} :
    SoundThroughout memory (calls ++ [call]) ↔ SoundThroughout memory calls ∧
      ∃ s, exec memory (calls ++ [call]) = some s ∧
        s.InOrder (live memory (calls ++ [call])).entries := by
  constructor
  · exact fun h ↦ ⟨fun before hpre ↦ h before (hpre.trans (List.prefix_append _ _)),
      h _ List.prefix_rfl⟩
  · rintro ⟨h, hlast⟩ before hpre
    rcases List.prefix_concat_iff.mp hpre with rfl | hpre
    · exact hlast
    · exact h before hpre

/-- While every `rep_free` keeps the ends, the cells follow the live entries. -/
theorem exec_represents (halloc : Allocates memory calls)
    (hk : KeepsEndsThroughout memory calls) :
    ∃ s, exec memory calls = some s ∧ s.memory = (live memory calls).memory ∧
      s.Represents (live memory calls).entries := by
  induction calls using List.reverseRecOn with
  | nil => exact ⟨_, rfl, rfl, HeapSeg.represents_initial memory⟩
  | append_singleton calls call ih =>
    obtain ⟨halloc, hlast⟩ := (throughout_concat _ _).mp halloc
    obtain ⟨hk, hends⟩ := (throughout_concat _ _).mp hk
    obtain ⟨s, hs, hm, hrep⟩ := ih halloc hk
    obtain ⟨s', hs', hm', hrep'⟩ := hrep.exec hm hlast hends
    exact ⟨s', by rw [exec_concat, hs, Option.bind_some, hs'], by rw [live_concat, hm'],
      by rw [live_concat]; exact hrep'⟩

/-- **When the list of allocations stays in order.** Over a run, both walks visit exactly the live
entries and nothing freed is reachable, after every call, exactly when no `rep_free` of the run
removes the first or the last of several entries. -/
theorem soundThroughout_iff (halloc : Allocates memory calls) :
    SoundThroughout memory calls ↔ KeepsEndsThroughout memory calls := by
  induction calls using List.reverseRecOn with
  | nil =>
    refine iff_of_true ?_ (throughout_nil _)
    intro before hpre
    obtain rfl := List.prefix_nil.mp hpre
    exact ⟨_, rfl, (HeapSeg.represents_initial memory).inOrder⟩
  | append_singleton calls call ih =>
    obtain ⟨hallocCalls, hlast⟩ := (throughout_concat _ _).mp halloc
    rw [soundThroughout_concat, ih hallocCalls, KeepsEndsThroughout, throughout_concat]
    apply and_congr_right
    intro hk
    obtain ⟨s, hs, hm, hrep⟩ := exec_represents hallocCalls hk
    rw [exec_concat, live_concat, hs, Option.bind_some]
    constructor
    · rintro ⟨s', hs', hin⟩ contAdd rfl
      by_contra hnot
      exact hrep.not_inOrder_repFree hnot hs' hin
    · intro hends
      obtain ⟨s', hs', -, hrep'⟩ := hrep.exec hm hlast hends
      exact ⟨s', hs', hrep'.inOrder⟩

/-- Two allocations, and the first is freed: `head` stays at the freed cell `1`. -/
theorem not_soundThroughout_free_first :
    let calls : List Call := [.repMalloc 10 4 100 1, .repMalloc 20 4 200 2, .repFree 10]
    Allocates (fun _ ↦ 0) calls ∧ ¬SoundThroughout (fun _ ↦ 0) calls := by
  constructor
  · refine (throughout_concat [_, _] _).mpr ⟨?_, trivial⟩
    refine (throughout_concat [_] _).mpr ⟨?_, by decide⟩
    exact (throughout_concat [] _).mpr ⟨throughout_nil _, by decide⟩
  · intro h
    obtain ⟨s, hs, hin⟩ := h _ List.prefix_rfl
    have hhead : s.head = some 1 := Option.some_inj.mp (congrArg (Option.map HeapSeg.head) hs).symm
    have hfirst : s.head = some 2 := hin.forward.1
    exact absurd (hhead.symm.trans hfirst) (by decide)

/-- Three allocations, and the middle one is freed. -/
theorem soundThroughout_free_middle :
    SoundThroughout (fun _ ↦ 0) [.repMalloc 10 4 100 1, .repMalloc 20 4 200 2,
        .repMalloc 30 4 300 3, .repFree 20] ↔
      KeepsEndsThroughout (fun _ ↦ 0) [.repMalloc 10 4 100 1, .repMalloc 20 4 200 2,
        .repMalloc 30 4 300 3, .repFree 20] := by
  apply soundThroughout_iff
  refine (throughout_concat [_, _, _] _).mpr ⟨?_, trivial⟩
  refine (throughout_concat [_, _] _).mpr ⟨?_, by decide⟩
  refine (throughout_concat [_] _).mpr ⟨?_, by decide⟩
  exact (throughout_concat [] _).mpr ⟨throughout_nil _, by decide⟩

end EntangledMPI.Replication
