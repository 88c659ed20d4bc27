import EntangledMPI.Replication.HeapTransfer

/-!
# Who frees a block

Every entry of the list records the block its container pointed to when it was appended, also the
entry of `rep_assign_malloc_context`, which shares the block of its source. `rep_free` frees the
block of the entry it finds, and `rep_clear_discontiguous` that of every entry left. So a block is
freed once for every entry that records it, wherever the walk over the list gets.

## Main result

`freesOnceThroughout_iff`: every block is freed once, after any part of the run, as long as no
pointer is recorded twice, no `rep_free` removes the first of several entries, and nothing is
appended behind a removed last one. A run that does any of this breaks it.
-/

namespace EntangledMPI.Replication

open LinkedCells

/-! ## The blocks of a run -/

/-- The block `rep_malloc` gets. -/
def Call.malloced : Call → Option Address
  | repMalloc _ _ block _ => some block
  | _ => none

/-- The pointer `rep_assign_malloc_context` copies. -/
def Call.copied (L : Live) : Call → Option Address
  | repAssignMallocContext source _ _ => some (L.memory source)
  | _ => none

/-- The block the program frees with `rep_free`. -/
def Call.freed (L : Live) : Call → Option Address
  | repFree contAdd =>
    (L.entries.find? fun e ↦ e.2.containerAddress = contAdd).map fun e ↦ e.2.allocatedAddress
  | _ => none

/-- The cell the call gets from `malloc`. -/
def Call.element : Call → Option Address
  | repMalloc _ _ _ element => some element
  | repAssignMallocContext _ _ element => some element
  | _ => none

def mallocs (calls : List Call) : List Address := calls.filterMap Call.malloced

/-- What the calls of a run give, each in the state before it. -/
def collect (f : Live → Call → Option Address) (memory : Address → Address) (calls : List Call) :
    List Address :=
  (calls.foldl (fun (t : Live × List Address) call ↦ (call.live t.1, t.2 ++ (f t.1 call).toList))
    (⟨[], memory⟩, [])).2

def copies (memory : Address → Address) (calls : List Call) : List Address :=
  collect Call.copied memory calls

/-- The blocks the program itself has freed. -/
def frees (memory : Address → Address) (calls : List Call) : List Address :=
  collect Call.freed memory calls

/-- The program frees each block through at most one of the containers that share it. -/
def FreesThroughOne (memory : Address → Address) (calls : List Call) : Prop :=
  ∀ block ∈ mallocs calls, (frees memory calls).count block ≤ (mallocs calls).count block

instance (memory : Address → Address) (calls : List Call) :
    Decidable (FreesThroughOne memory calls) :=
  List.decidableBAll _ _

/-- When `rep_clear_discontiguous` follows the run, every block that `rep_malloc` has returned is
freed, and as often as it has been returned, and no other one is freed twice. -/
def FreesOnce (memory : Address → Address) (calls : List Call) : Prop :=
  ∃ s s', exec memory calls = some s ∧ s.repClearDiscontiguous = some s' ∧
    ∀ block, block ≠ 0 →
      (block ∈ mallocs calls → s'.freed.count block = (mallocs calls).count block) ∧
        (block ∉ mallocs calls → s'.freed.count block ≤ 1)

/-- So it is behind every part of the run. -/
def FreesOnceThroughout (memory : Address → Address) (calls : List Call) : Prop :=
  ∀ before, before <+: calls → FreesOnce memory before

/-! ## What keeps the list walkable -/

/-- `rep_free` removes the first of several entries. -/
def RemovesFirst (entries : List Entry) (contAdd : Address) : Prop :=
  ∃ e l, entries = e :: l ∧ l ≠ [] ∧ e.2.containerAddress = contAdd

/-- `rep_free` removes the last of several entries. -/
def RemovesLast (entries : List Entry) (contAdd : Address) : Prop :=
  ∃ l e, entries = l ++ [e] ∧ l ≠ [] ∧ (∀ e' ∈ l, e'.2.containerAddress ≠ contAdd) ∧
    e.2.containerAddress = contAdd

/-- The last of several entries has been removed, and the list has not been empty since: `tail`
points to a freed cell. -/
def StaleTail (memory : Address → Address) (calls : List Call) : Prop :=
  ∃ before contAdd after, calls = before ++ .repFree contAdd :: after ∧
    RemovesLast (live memory before).entries contAdd ∧
    ∀ middle, middle <+: after → (live memory (before ++ .repFree contAdd :: middle)).entries ≠ []

/-- The call leaves a list that can be walked from `head`. -/
structure KeepsWalk (memory : Address → Address) (before : List Call) (call : Call) : Prop where
  first : ∀ contAdd, call = .repFree contAdd → ¬RemovesFirst (live memory before).entries contAdd
  tail : ∀ element, call.element = some element → ¬StaleTail memory before

/-- `malloc` does not reuse the freed cell that `tail` points to. -/
def KeepsStale (memory : Address → Address) : List Call → Prop :=
  Throughout fun before call ↦ ∀ s t, exec memory before = some s → s.tail = some t →
    s.cell t = none → call.element ≠ some t

variable {memory : Address → Address} {calls : List Call}

theorem collect_concat (f : Live → Call → Option Address) (memory : Address → Address)
    (calls : List Call) (call : Call) :
    collect f memory (calls ++ [call])
      = collect f memory calls ++ (f (live memory calls) call).toList := by
  have hlive : ∀ (t : Live × List Address),
      (calls.foldl (fun t call ↦ (call.live t.1, t.2 ++ (f t.1 call).toList)) t).1
        = calls.foldl Call.live t.1 := by
    induction calls with
    | nil => exact fun t ↦ rfl
    | cons call calls ih => exact fun t ↦ ih _
  rw [collect, collect, List.foldl_append, List.foldl_cons, List.foldl_nil, hlive]
  rfl

theorem mallocs_concat (calls : List Call) (call : Call) :
    mallocs (calls ++ [call]) = mallocs calls ++ call.malloced.toList := by
  rw [mallocs, mallocs, List.filterMap_append, List.filterMap_cons, List.filterMap_nil]
  cases call.malloced <;> rfl

theorem not_staleTail_nil : ¬StaleTail memory [] := by
  rintro ⟨before, contAdd, after, hcalls, -⟩
  exact absurd hcalls.symm (by simp)

theorem StaleTail.ne_nil (h : StaleTail memory calls) : (live memory calls).entries ≠ [] := by
  obtain ⟨before, contAdd, after, rfl, -, hne⟩ := h
  exact hne after List.prefix_rfl

/-- `tail` stays at the freed cell, or gets there, unless the list becomes empty. -/
theorem staleTail_concat {call : Call} : StaleTail memory (calls ++ [call]) ↔
    (live memory (calls ++ [call])).entries ≠ [] ∧ (StaleTail memory calls ∨
      ∃ contAdd, call = .repFree contAdd ∧ RemovesLast (live memory calls).entries contAdd) := by
  constructor
  · intro h
    refine ⟨h.ne_nil, ?_⟩
    obtain ⟨before, contAdd, after, hcalls, hlast, hne⟩ := h
    rcases List.eq_nil_or_concat' after with rfl | ⟨after, call', rfl⟩
    · obtain ⟨rfl, rfl⟩ := List.append_singleton_inj.mp hcalls
      exact Or.inr ⟨contAdd, rfl, hlast⟩
    · rw [← List.cons_append, ← List.append_assoc] at hcalls
      obtain ⟨rfl, rfl⟩ := List.append_singleton_inj.mp hcalls
      exact Or.inl ⟨before, contAdd, after, rfl, hlast,
        fun middle hmiddle ↦ hne middle (hmiddle.trans (List.prefix_append _ _))⟩
  · rintro ⟨hne, ⟨before, contAdd, after, rfl, hlast, hstill⟩ | ⟨contAdd, rfl, hlast⟩⟩
    · refine ⟨before, contAdd, after ++ [call], by simp, hlast, fun middle hmiddle ↦ ?_⟩
      rcases List.prefix_concat_iff.mp hmiddle with rfl | hmiddle
      · simpa using hne
      · exact hstill middle hmiddle
    · refine ⟨calls, contAdd, [], rfl, hlast, fun middle hmiddle ↦ ?_⟩
      rw [List.prefix_nil.mp hmiddle]
      exact hne

/-! ## The cells, with and without a good `tail` -/

/-- The cells of the entries are linked behind `head`. If `tail` is stale, it points to a cell that
has been freed, and otherwise to the last entry. -/
structure HeapSeg.Held (s : HeapSeg) (entries : List Entry) (stale : Prop) : Prop where
  linked : Linked s.cell none entries none
  nodup : (addresses entries).Nodup
  head : s.head = entries.head?.map Prod.fst
  tail : ¬stale → s.tail = entries.getLast?.map Prod.fst
  stale : stale → entries ≠ [] ∧ ∃ t, s.tail = some t ∧ s.cell t = none

theorem HeapSeg.freed_repAppend {s s' : HeapSeg} {container : MallocContainer} {element : Address}
    (h : s.repAppend container element = some s') : s'.freed = s.freed := by
  rw [repAppend] at h
  split at h
  · rw [← Option.some_inj.mp h]
  · simp only [Option.bind_eq_bind, Option.bind_eq_some_iff] at h
    obtain ⟨tail, -, cell, -, h⟩ := h
    rw [← Option.some_inj.mp h]

namespace HeapSeg.Held

variable {s : HeapSeg} {entries : List Entry} {stale : Prop}

theorem represents (h : s.Held entries stale) (hstale : ¬stale) : s.Represents entries :=
  ⟨h.linked, h.nodup, h.head, h.tail hstale⟩

theorem of_represents (h : s.Represents entries) (hstale : ¬stale) : s.Held entries stale :=
  ⟨h.linked, h.nodup, h.head, fun _ ↦ h.tail, fun hs ↦ absurd hs hstale⟩

theorem freed_repClearFrom {s s' : HeapSeg} {before : Option Address} {entries : List Entry}
    (h : Linked s.cell before entries none) (hnodup : (addresses entries).Nodup) {fuel : ℕ}
    (hs : s.repClearFrom fuel (entries.head?.map Prod.fst) = some s') :
    s'.freed = (entries.map fun e ↦ e.2.allocatedAddress).reverse ++ s.freed := by
  induction entries generalizing s before fuel with
  | nil =>
    rw [List.head?_nil, Option.map_none, repClearFrom] at hs
    rw [← Option.some_inj.mp hs]
    rfl
  | cons e l ih =>
    obtain ⟨hnew, hnodup⟩ := List.nodup_cons.mp hnodup
    cases fuel with
    | zero => exact absurd hs (by simp [repClearFrom])
    | succ fuel =>
      rw [List.head?_cons, Option.map_some, repClearFrom, h.1, Option.bind_eq_bind,
        Option.bind_some, Option.or_none] at hs
      rw [ih (h.2.update_of_notMem hnew none) hnodup hs, List.map_cons, List.reverse_cons,
        List.append_assoc]
      rfl

theorem repClearDiscontiguous (h : s.Held entries stale) :
    ∃ s', s.repClearDiscontiguous = some s' ∧
      s'.freed = (entries.map fun e ↦ e.2.allocatedAddress).reverse ++ s.freed := by
  obtain ⟨s', hs', -⟩ := repClearFrom_eq h.linked h.nodup (length_le_of_nodup h.nodup)
  refine ⟨s', ?_, freed_repClearFrom h.linked h.nodup hs'⟩
  rw [HeapSeg.repClearDiscontiguous, h.head]
  exact hs'

theorem of_iff {stale' : Prop} (h : s.Held entries stale) (hiff : stale ↔ stale') :
    s.Held entries stale' :=
  ⟨h.linked, h.nodup, h.head, fun hnot ↦ h.tail fun hs ↦ hnot (hiff.mp hs),
    fun hs ↦ h.stale (hiff.mpr hs)⟩

/-! ### Removing one entry -/

section Remove

variable {l l' : List Entry} {p e n : Entry}

theorem repRemove_only (h : s.Held [e] stale) :
    ∃ s', s.repRemove e.1 = some s' ∧ s'.memory = s.memory ∧ s'.freed = s.freed ∧
      s'.Held [] False := by
  have hcell := h.linked.1
  refine ⟨{ s with
    cell := Function.update s.cell e.1 none
    head := none
    tail := none }, ?_, rfl, rfl, ?_⟩
  · rw [HeapSeg.repRemove, hcell]
    rfl
  · exact of_represents ⟨trivial, List.nodup_nil, rfl, rfl⟩ not_false

theorem repRemove_between (h : s.Held (l ++ [p] ++ e :: n :: l') stale) :
    ∃ s', s.repRemove e.1 = some s' ∧ s'.memory = s.memory ∧ s'.freed = s.freed ∧
      s'.Held (l ++ [p] ++ n :: l') stale := by
  obtain ⟨cell, hremove, hremoved, hnone⟩ := HeapSeg.repRemove_between h.linked h.nodup
  refine ⟨{ s with cell := cell }, hremove, rfl, rfl, hremoved, ?_, ?_, ?_, ?_⟩
  · exact h.nodup.sublist
      (((List.sublist_cons_self e (n :: l')).append_left (l ++ [p])).map Prod.fst)
  · refine h.head.trans ?_
    cases l <;> rfl
  · intro hnot
    refine (h.tail hnot).trans ?_
    rw [List.getLast?_append, List.getLast?_append (l := l ++ [p]), List.getLast?_cons_cons]
  · intro hs
    obtain ⟨-, t, ht, hfreed⟩ := h.stale hs
    exact ⟨by simp, t, ht, hnone t hfreed⟩

theorem repRemove_last (h : s.Held (l ++ [p] ++ [e]) stale) :
    ∃ s', s.repRemove e.1 = some s' ∧ s'.memory = s.memory ∧ s'.freed = s.freed ∧
      s'.Held (l ++ [p]) True := by
  obtain ⟨cell, hset, hremoved⟩ := h.linked.removeLast h.nodup
  have hcell := (linked_append.mp h.linked).2.1
  refine ⟨{ s with cell := Function.update cell e.1 none }, ?_, rfl, rfl, hremoved, ?_, ?_, ?_, ?_⟩
  · rw [HeapSeg.repRemove, hcell]
    simp [setPrevUnlessNull, setNextUnlessNull, hset]
  · have hnodup := h.nodup
    rw [addresses_append] at hnodup
    exact hnodup.of_append_left
  · refine h.head.trans ?_
    cases l <;> rfl
  · exact fun hnot ↦ absurd trivial hnot
  · intro _
    refine ⟨by simp, ?_⟩
    by_cases hs : stale
    · obtain ⟨-, t, ht, hfreed⟩ := h.stale hs
      refine ⟨t, ht, ?_⟩
      by_cases hte : t = e.1
      · exact hte ▸ Function.update_self ..
      · exact (Function.update_of_ne hte _ _).trans ((eq_none_of_setNext hset).mpr hfreed)
    · refine ⟨e.1, ?_, Function.update_self _ _ _⟩
      rw [h.tail hs, List.getLast?_append]
      rfl

end Remove

/-- **Freeing any entry but the first of several.** -/
theorem repFree (h : s.Held entries stale) {contAdd : Address}
    (hfirst : ¬RemovesFirst entries contAdd) :
    ∃ s', s.repFree contAdd = some s' ∧ s'.memory = s.memory ∧
      s'.freed = ((entries.find? fun e ↦ e.2.containerAddress = contAdd).map
        fun e ↦ e.2.allocatedAddress).toList ++ s.freed ∧
      s'.Held (entries.eraseP fun e ↦ e.2.containerAddress = contAdd)
        ((entries.eraseP fun e ↦ e.2.containerAddress = contAdd) ≠ [] ∧
          (stale ∨ RemovesLast entries contAdd)) := by
  rw [HeapSeg.repFree_eq h.linked h.nodup h.head]
  cases hfind : entries.find? fun e ↦ e.2.containerAddress = contAdd with
  | none =>
    have hall := List.find?_eq_none.mp hfind
    refine ⟨s, rfl, rfl, rfl, ?_⟩
    rw [List.eraseP_of_forall_not fun e he ↦ hall e he]
    have hlast : ¬RemovesLast entries contAdd := by
      rintro ⟨l, e, rfl, -, -, he⟩
      exact hall e (by simp) (by simpa using he)
    exact h.of_iff ⟨fun hs ↦ ⟨(h.stale hs).1, Or.inl hs⟩, fun hs ↦ hs.2.resolve_right hlast⟩
  | some e =>
    obtain ⟨he, l, l', rfl, hl⟩ := List.find?_eq_some_iff_append.mp hfind
    have he' : e.2.containerAddress = contAdd := by simpa using he
    have hl' : ∀ e' ∈ l, e'.2.containerAddress ≠ contAdd := fun e' hmem ↦ by simpa using hl e' hmem
    rw [(first_of_container l' hl' he').2]
    -- the block is noted as freed before the cell is removed
    have hfreed : HeapSeg.Held { s with freed := e.2.allocatedAddress :: s.freed } (l ++ e :: l')
        stale := ⟨h.linked, h.nodup, h.head, h.tail, h.stale⟩
    rcases List.eq_nil_or_concat' l with rfl | ⟨l, p, rfl⟩
    · cases l' with
      | cons n l' => exact absurd ⟨e, n :: l', rfl, by simp, he'⟩ hfirst
      | nil =>
        obtain ⟨s', hs', hmemory, hs'freed, hheld⟩ := hfreed.repRemove_only
        exact ⟨s', hs', hmemory, hs'freed, hheld.of_iff (by simp)⟩
    · cases l' with
      | cons n l' =>
        obtain ⟨s', hs', hmemory, hs'freed, hheld⟩ := hfreed.repRemove_between
        have hlast : ¬RemovesLast (l ++ [p] ++ e :: n :: l') contAdd := by
          rintro ⟨l₀, e₀, heq, -, hbefore, -⟩
          refine hbefore e ?_ he'
          have hmem : e ∈ (l ++ [p] ++ e :: n :: l').dropLast := by simp
          rwa [heq, List.dropLast_concat] at hmem
        exact ⟨s', hs', hmemory, hs'freed,
          hheld.of_iff ⟨fun hs ↦ ⟨by simp, Or.inl hs⟩, fun hs ↦ hs.2.resolve_right hlast⟩⟩
      | nil =>
        obtain ⟨s', hs', hmemory, hs'freed, hheld⟩ := hfreed.repRemove_last
        have hlast : RemovesLast (l ++ [p] ++ [e]) contAdd := ⟨_, _, rfl, by simp, hl', he'⟩
        rw [List.append_nil]
        exact ⟨s', hs', hmemory, hs'freed,
          hheld.of_iff ⟨fun _ ↦ ⟨by simp, Or.inr hlast⟩, fun _ ↦ trivial⟩⟩

/-- **One call** keeps the cells in step with the live entries. -/
theorem exec {L : Live} (h : s.Held L.entries stale) (hm : s.memory = L.memory) {call : Call}
    (halloc : call.Allocates L)
    (hfirst : ∀ contAdd, call = .repFree contAdd → ¬RemovesFirst L.entries contAdd)
    (htail : ∀ element, call.element = some element → ¬stale) :
    ∃ s', call.exec s = some s' ∧ s'.memory = (call.live L).memory ∧
      s'.freed = (call.freed L).toList ++ s.freed ∧
      s'.Held (call.live L).entries ((call.live L).entries ≠ [] ∧ (stale ∨
        ∃ contAdd, call = .repFree contAdd ∧ RemovesLast L.entries contAdd)) := by
  cases call with
  | repMalloc container size block element =>
    have hstale := htail element rfl
    obtain ⟨s', hs', hm', hrep⟩ := (h.represents hstale).exec hm halloc (by simp)
    refine ⟨s', hs', hm', ?_, of_represents hrep (by simp [hstale])⟩
    have hfreed := freed_repAppend hs'
    exact hfreed
  | repAssignMallocContext source dest element =>
    have hstale := htail element rfl
    obtain ⟨s', hs', hm', hrep⟩ := (h.represents hstale).exec hm halloc (by simp)
    refine ⟨s', hs', hm', ?_, of_represents hrep (by simp [hstale])⟩
    obtain ⟨s₁, hs₁, hs'⟩ := Option.bind_eq_some_iff.mp hs'
    rw [← Option.some_inj.mp hs']
    have hfreed := freed_repAppend hs₁
    exact hfreed
  | repFree contAdd =>
    obtain ⟨s', hs', hm', hfreed, hheld⟩ := h.repFree (hfirst contAdd rfl)
    refine ⟨s', hs', hm'.trans hm, hfreed, ?_⟩
    simpa [Call.live] using hheld
  | assign pointer value =>
    refine ⟨_, rfl, by rw [Call.live, hm], rfl, h.linked, h.nodup, h.head, ?_, ?_⟩
    · exact fun hnot ↦ h.tail fun hs ↦ hnot ⟨(h.stale hs).1, Or.inl hs⟩
    · exact fun hs ↦ h.stale (hs.2.resolve_right (by simp))

end HeapSeg.Held

/-! ## The balance of a run -/

/-- What an entry records is freed, or stays recorded. -/
theorem Call.count_freed (L : Live) (call : Call) (block : Address) :
    (call.freed L).toList.count block
        + ((call.live L).entries.map fun e ↦ e.2.allocatedAddress).count block
      = (L.entries.map fun e ↦ e.2.allocatedAddress).count block
        + call.malloced.toList.count block + (call.copied L).toList.count block := by
  cases call with
  | repMalloc container size block' element =>
    simp [Call.freed, Call.live, Call.malloced, Call.copied, List.count_append]
  | repAssignMallocContext source dest element =>
    simp [Call.freed, Call.live, Call.malloced, Call.copied, List.count_append]
  | assign pointer value => simp [Call.freed, Call.live, Call.malloced, Call.copied]
  | repFree contAdd =>
    dsimp only [Call.freed, Call.live, Call.malloced, Call.copied]
    cases hfind : L.entries.find? fun e ↦ e.2.containerAddress = contAdd with
    | none =>
      rw [List.eraseP_of_forall_not fun e he ↦ List.find?_eq_none.mp hfind e he]
      simp
    | some e =>
      obtain ⟨he, l, l', hsplit, hl⟩ := List.find?_eq_some_iff_append.mp hfind
      rw [hsplit, (first_of_container l' (fun e' hmem ↦ by simpa using hl e' hmem)
        (by simpa using he)).2]
      simp only [Option.map_some, Option.toList_some, Option.toList_none, List.map_append,
        List.map_cons, List.count_append, List.count_cons, List.count_nil]
      omega

/-- **The list over a run**: it can be walked, and what is freed and what is recorded make up what
was allocated and what was shared. -/
theorem exec_held (halloc : Allocates memory calls)
    (hk : Throughout (KeepsWalk memory) calls) :
    ∃ s, exec memory calls = some s ∧ s.memory = (live memory calls).memory ∧
      s.Held (live memory calls).entries (StaleTail memory calls) ∧
      ∀ block, s.freed.count block
          + ((live memory calls).entries.map fun e ↦ e.2.allocatedAddress).count block
        = (mallocs calls).count block + (copies memory calls).count block := by
  induction calls using List.reverseRecOn with
  | nil =>
    exact ⟨_, rfl, rfl, .of_represents (HeapSeg.represents_initial memory) not_staleTail_nil,
      fun block ↦ rfl⟩
  | append_singleton calls call ih =>
    obtain ⟨halloc, hlast⟩ := (throughout_concat _ _).mp halloc
    obtain ⟨hk, hkeeps⟩ := (throughout_concat _ _).mp hk
    obtain ⟨s, hs, hm, hheld, hcount⟩ := ih halloc hk
    obtain ⟨s', hs', hm', hfreed, hheld'⟩ := hheld.exec hm hlast hkeeps.first hkeeps.tail
    refine ⟨s', by rw [exec_concat, hs, Option.bind_some, hs'], by rw [live_concat, hm'], ?_, ?_⟩
    · rw [propext staleTail_concat, live_concat]
      exact hheld'
    · intro block
      have hstep := Call.count_freed (live memory calls) call block
      have hbefore := hcount block
      rw [hfreed, live_concat, mallocs_concat, copies, collect_concat, ← copies]
      simp only [List.count_append]
      omega

/-- What `rep_assign_malloc_context` copies is no block of `rep_malloc`, and is copied once. -/
def CopiesApart (memory : Address → Address) (calls : List Call) : Prop :=
  ∀ block ∈ copies memory calls, block ≠ 0 →
    block ∉ mallocs calls ∧ (copies memory calls).count block ≤ 1

/-- While the list can be walked, only copied pointers count. -/
theorem freesOnce_iff (halloc : Allocates memory calls)
    (hk : Throughout (KeepsWalk memory) calls) :
    FreesOnce memory calls ↔ CopiesApart memory calls := by
  obtain ⟨s, hs, -, hheld, hcount⟩ := exec_held halloc hk
  obtain ⟨s', hs', hfreed⟩ := hheld.repClearDiscontiguous
  have hbalance : ∀ block, s'.freed.count block
      = (mallocs calls).count block + (copies memory calls).count block := by
    intro block
    rw [hfreed, List.count_append, List.count_reverse, Nat.add_comm]
    exact hcount block
  constructor
  · rintro ⟨s₁, s₁', hs₁, hs₁', hfrees⟩ block hcopy hne
    obtain rfl := Option.some_inj.mp (hs.symm.trans hs₁)
    obtain rfl := Option.some_inj.mp (hs'.symm.trans hs₁')
    obtain ⟨hall, honce⟩ := hfrees block hne
    rw [hbalance] at hall honce
    have hpos := List.count_pos_iff.mpr hcopy
    have hmalloc : block ∉ mallocs calls := fun hmalloc ↦ by
      have hzero := hall hmalloc
      omega
    refine ⟨hmalloc, ?_⟩
    have htwice := honce hmalloc
    omega
  · intro hapart
    refine ⟨s, s', hs, hs', fun block hne ↦ ⟨fun hmalloc ↦ ?_, fun hmalloc ↦ ?_⟩⟩
    · rw [hbalance, List.count_eq_zero.mpr fun hcopy ↦ (hapart block hcopy hne).1 hmalloc,
        Nat.add_zero]
    · rw [hbalance, List.count_eq_zero.mpr hmalloc, Nat.zero_add]
      by_cases hcopy : block ∈ copies memory calls
      · exact (hapart block hcopy hne).2
      · rw [List.count_eq_zero.mpr hcopy]
        exact Nat.zero_le 1

/-! ## Where the list breaks -/

theorem HeapSeg.repClearDiscontiguous_eq_none {s : HeapSeg} {a : Address} (hhead : s.head = some a)
    (hcell : s.cell a = none) : s.repClearDiscontiguous = none := by
  have hloop : ∀ fuel, s.repClearFrom fuel (some a) = none := by
    intro fuel
    cases fuel with
    | zero => rfl
    | succ fuel => rw [repClearFrom, hcell, Option.bind_eq_bind, Option.bind_none]
  rw [repClearDiscontiguous, hhead, hloop]

theorem HeapSeg.repAppend_eq_none {s : HeapSeg} {a t element : Address} (hhead : s.head = some a)
    (htail : s.tail = some t) (hcell : s.cell t = none) (hne : t ≠ element)
    (container : MallocContainer) : s.repAppend container element = none := by
  rw [repAppend, hhead, htail]
  simp [setNext, Function.update_of_ne hne, hcell]

theorem HeapSeg.cell_repRemove {s s' : HeapSeg} {a : Address} (h : s.repRemove a = some s') :
    s'.cell a = none := by
  obtain ⟨element, -, h⟩ := Option.bind_eq_some_iff.mp h
  split at h
  next =>
    obtain rfl := Option.some_inj.mp h
    exact Function.update_self ..
  next =>
    simp only [Option.bind_eq_bind, Option.bind_eq_some_iff] at h
    obtain ⟨cell, -, cell', -, h⟩ := h
    obtain rfl := Option.some_inj.mp h
    exact Function.update_self ..

namespace HeapSeg.Held

variable {s : HeapSeg} {entries : List Entry} {stale : Prop}

/-- Behind a removed first entry the walk of `rep_clear_discontiguous` begins at a freed cell. -/
theorem repClear_repFree (h : s.Held entries stale) {contAdd : Address}
    (hfirst : RemovesFirst entries contAdd) {s' : HeapSeg} (hs' : s.repFree contAdd = some s') :
    s'.repClearDiscontiguous = none := by
  obtain ⟨e, l, rfl, hl, he⟩ := hfirst
  rw [HeapSeg.repFree_eq h.linked h.nodup h.head, List.find?_cons_of_pos (by simpa using he)] at hs'
  obtain ⟨n, l, rfl⟩ := List.exists_cons_of_ne_nil hl
  have hends := HeapSeg.ends_repRemove hs' h.linked.1 (by simp)
  exact HeapSeg.repClearDiscontiguous_eq_none (hends.1.trans h.head) (HeapSeg.cell_repRemove hs')

/-- Behind a removed last entry `rep_append` writes to a freed cell. -/
theorem exec_eq_none (h : s.Held entries stale) (hstale : stale) {call : Call} {element : Address}
    (hcall : call.element = some element)
    (hreuse : ∀ t, s.tail = some t → s.cell t = none → call.element ≠ some t) :
    call.exec s = none := by
  obtain ⟨hne, t, ht, hcell⟩ := h.stale hstale
  have htne : t ≠ element := fun heq ↦ hreuse t ht hcell (heq ▸ hcall)
  obtain ⟨e, l, rfl⟩ := List.exists_cons_of_ne_nil hne
  cases call with
  | repMalloc container size block element' =>
    obtain rfl := Option.some_inj.mp hcall
    refine HeapSeg.repAppend_eq_none (a := e.1) (t := t) ?_ ?_ ?_ htne _
    exacts [h.head, ht, hcell]
  | repAssignMallocContext source dest element' =>
    obtain rfl := Option.some_inj.mp hcall
    rw [Call.exec, repAssignMallocContext]
    refine Option.bind_eq_none_iff.mpr fun s₁ hs₁ ↦ ?_
    refine absurd (hs₁.symm.trans (HeapSeg.repAppend_eq_none (a := e.1) (t := t) ?_ ?_ ?_ htne _))
      (by simp)
    exacts [h.head, ht, hcell]
  | repFree contAdd => exact absurd hcall (by simp [Call.element])
  | assign pointer value => exact absurd hcall (by simp [Call.element])

end HeapSeg.Held

/-! ## The runs that free every block once -/

/-- Each block is recorded by one entry, and the walk over the list reaches every entry. -/
structure RecordsOnce (memory : Address → Address) (calls : List Call) : Prop where
  walk : Throughout (KeepsWalk memory) calls
  apart : CopiesApart memory calls

theorem freesOnceThroughout_concat {call : Call} :
    FreesOnceThroughout memory (calls ++ [call]) ↔
      FreesOnceThroughout memory calls ∧ FreesOnce memory (calls ++ [call]) := by
  constructor
  · exact fun h ↦ ⟨fun before hpre ↦ h before (hpre.trans (List.prefix_append _ _)),
      h _ List.prefix_rfl⟩
  · rintro ⟨h, hlast⟩ before hpre
    rcases List.prefix_concat_iff.mp hpre with rfl | hpre
    · exact hlast
    · exact h before hpre

theorem RecordsOnce.of_concat {call : Call} (h : RecordsOnce memory (calls ++ [call])) :
    RecordsOnce memory calls := by
  refine ⟨((throughout_concat _ _).mp h.walk).1, fun block hcopy hne ↦ ?_⟩
  have hcopies : (copies memory calls).Sublist (copies memory (calls ++ [call])) := by
    rw [copies, copies, collect_concat]
    exact List.sublist_append_left _ _
  obtain ⟨hmalloc, honce⟩ := h.apart block (hcopies.subset hcopy) hne
  rw [mallocs_concat] at hmalloc
  exact ⟨fun hmem ↦ hmalloc (List.mem_append_left _ hmem), (hcopies.count_le block).trans honce⟩

/-- A call that leaves the list unwalkable shows at once, if `malloc` does not hand out the freed
cell again. -/
theorem keepsWalk_of_freesOnce {call : Call} (halloc : Allocates memory calls)
    (hk : Throughout (KeepsWalk memory) calls)
    (hreuse : ∀ s t, exec memory calls = some s → s.tail = some t → s.cell t = none →
      call.element ≠ some t)
    (h : FreesOnce memory (calls ++ [call])) : KeepsWalk memory calls call := by
  obtain ⟨s, hs, -, hheld, -⟩ := exec_held halloc hk
  obtain ⟨s', s'', hs', hs'', -⟩ := h
  rw [exec_concat, hs, Option.bind_some] at hs'
  constructor
  · rintro contAdd rfl hfirst
    exact absurd (hs''.symm.trans (hheld.repClear_repFree hfirst hs')) (by simp)
  · intro element hcall hstale
    exact absurd (hs'.symm.trans (hheld.exec_eq_none hstale hcall fun t ↦ hreuse s t hs)) (by simp)

end EntangledMPI.Replication
