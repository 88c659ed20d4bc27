import Mathlib.Data.List.Induction
import Mathlib.Data.List.Nodup
import Mathlib.Logic.Function.Basic

/-!
# Doubly linked cells in a store

A store maps an address to the cell allocated there, and `none` is an address nothing is allocated
at. `Linked s before l after` says that the cells of `l` stand in the store one behind the other:
the first points back to `before`, the last points on to `after`. Leaving the two ends open makes
`Linked` split along `++`, so inserting and removing a cell are facts about the two halves and the
pointers between them.

## What it gives

`visits_next` and `visits_prev` read the list off by following one kind of pointer, and
`Reaches.mem` says that no chain of pointers of either kind leaves it.
-/

namespace EntangledMPI.LinkedCells

variable {α β : Type*}

/-- A cell, with its content and the addresses of its two neighbours. -/
structure Cell (α β : Type*) where
  content : β
  next : Option α
  prev : Option α
  deriving DecidableEq

/-- The cells allocated at present. -/
abbrev Store (α β : Type*) := α → Option (Cell α β)

/-- The cells of `l`, an address and a content each, stand one behind the other between `before`
and `after`. -/
def Linked (s : Store α β) : Option α → List (α × β) → Option α → Prop
  | _, [], _ => True
  | before, (a, x) :: l, after =>
    s a = some ⟨x, (l.head?.map Prod.fst).or after, before⟩ ∧ Linked s (some a) l after

/-- The addresses of a list of cells. -/
def addresses (l : List (α × β)) : List α := l.map Prod.fst

@[simp] theorem addresses_nil : addresses ([] : List (α × β)) = [] := rfl

@[simp] theorem addresses_cons (e : α × β) (l : List (α × β)) :
    addresses (e :: l) = e.1 :: addresses l := rfl

@[simp] theorem addresses_append (l l' : List (α × β)) :
    addresses (l ++ l') = addresses l ++ addresses l' := List.map_append

variable {s s' : Store α β} {before after : Option α} {l l' : List (α × β)}

/-! ## Splitting and changing the store elsewhere -/

theorem linked_append :
    Linked s before (l ++ l') after ↔
      Linked s before l ((l'.head?.map Prod.fst).or after) ∧
        Linked s ((l.getLast?.map Prod.fst).or before) l' after := by
  induction l generalizing before with
  | nil => simp [Linked]
  | cons e l ih =>
    obtain ⟨a, x⟩ := e
    rw [List.cons_append, Linked, Linked, ih, and_assoc]
    cases l with
    | nil => simp
    | cons e' l =>
      have hlast := List.getLast?_eq_some_getLast (List.cons_ne_nil e' l)
      rw [List.getLast?_cons_cons, hlast]
      simp

theorem Linked.congr (h : Linked s before l after) (hs : ∀ a ∈ addresses l, s' a = s a) :
    Linked s' before l after := by
  induction l generalizing before with
  | nil => trivial
  | cons e l ih =>
    obtain ⟨a, x⟩ := e
    refine ⟨(hs a List.mem_cons_self).trans h.1, ih h.2 ?_⟩
    intro b hb
    exact hs b (List.mem_cons_of_mem _ hb)

theorem Linked.isSome (h : Linked s before l after) {a : α} (ha : a ∈ addresses l) :
    ∃ c, s a = some c := by
  induction l generalizing before with
  | nil => exact absurd ha List.not_mem_nil
  | cons e l ih =>
    rcases List.mem_cons.mp ha with rfl | hmem
    · exact ⟨_, h.1⟩
    · exact ih h.2 hmem

section Update

variable [DecidableEq α]

/-- Write the `next` pointer of the cell at `a`; `none` if nothing is allocated there. -/
def setNext (s : Store α β) (a : α) (p : Option α) : Option (Store α β) :=
  (s a).map fun c ↦ Function.update s a (some { c with next := p })

/-- Write the `prev` pointer of the cell at `a`. -/
def setPrev (s : Store α β) (a : α) (p : Option α) : Option (Store α β) :=
  (s a).map fun c ↦ Function.update s a (some { c with prev := p })

theorem eq_none_of_setNext {a b : α} {p : Option α} (h : setNext s a p = some s') :
    s' b = none ↔ s b = none := by
  obtain ⟨c, hc, rfl⟩ := Option.map_eq_some_iff.mp h
  by_cases hb : b = a
  · simp [hb, hc]
  · rw [Function.update_of_ne hb]

theorem eq_none_of_setPrev {a b : α} {p : Option α} (h : setPrev s a p = some s') :
    s' b = none ↔ s b = none := by
  obtain ⟨c, hc, rfl⟩ := Option.map_eq_some_iff.mp h
  by_cases hb : b = a
  · simp [hb, hc]
  · rw [Function.update_of_ne hb]

theorem Linked.update_of_notMem (h : Linked s before l after) {a : α} (ha : a ∉ addresses l)
    (c : Option (Cell α β)) : Linked (Function.update s a c) before l after :=
  h.congr fun _ hb ↦ Function.update_of_ne (ne_of_mem_of_not_mem hb ha) _ _

theorem Linked.setNext_getLast {a : α} {x : β} (h : Linked s before (l ++ [(a, x)]) after)
    (hnodup : (addresses (l ++ [(a, x)])).Nodup) (p : Option α) :
    ∃ s', setNext s a p = some s' ∧ Linked s' before (l ++ [(a, x)]) p ∧
      ∀ b, b ≠ a → s' b = s b := by
  obtain ⟨hl, hlast, -⟩ := linked_append.mp h
  have ha : a ∉ addresses l := by
    rw [addresses_append] at hnodup
    exact fun hmem ↦ List.disjoint_left.mp (List.disjoint_of_nodup_append hnodup) hmem
      List.mem_cons_self
  refine ⟨_, by rw [setNext, hlast, Option.map_some], ?_, fun b hb ↦ Function.update_of_ne hb _ _⟩
  refine linked_append.mpr ⟨hl.update_of_notMem ha _, ?_, trivial⟩
  simp

theorem Linked.setPrev_head {a : α} {x : β} (h : Linked s before ((a, x) :: l) after)
    (hnodup : (addresses ((a, x) :: l)).Nodup) (p : Option α) :
    ∃ s', setPrev s a p = some s' ∧ Linked s' p ((a, x) :: l) after ∧ ∀ b, b ≠ a → s' b = s b := by
  have ha : a ∉ addresses l := (List.nodup_cons.mp hnodup).1
  refine ⟨_, by rw [setPrev, h.1, Option.map_some], ⟨?_, h.2.update_of_notMem ha _⟩,
    fun b hb ↦ Function.update_of_ne hb _ _⟩
  exact Function.update_self _ _ _

end Update

/-! ## Following the pointers -/

/-- Following the pointer `link`, a walk that starts at `p` visits `l` and then comes to an end. -/
def Visits (s : Store α β) (link : Cell α β → Option α) : Option α → List α → Prop
  | p, [] => p = none
  | p, a :: l => p = some a ∧ ∃ c, s a = some c ∧ Visits s link (link c) l

theorem Linked.visits_next (h : Linked s before l none) :
    Visits s Cell.next (l.head?.map Prod.fst) (addresses l) := by
  induction l generalizing before with
  | nil => rfl
  | cons e l ih =>
    obtain ⟨a, x⟩ := e
    refine ⟨rfl, _, h.1, ?_⟩
    rw [Option.or_none]
    exact ih h.2

theorem Linked.visits_prev (h : Linked s none l after) :
    Visits s Cell.prev (l.getLast?.map Prod.fst) (addresses l).reverse := by
  induction l using List.reverseRecOn generalizing after with
  | nil => rfl
  | append_singleton l e ih =>
    obtain ⟨a, x⟩ := e
    obtain ⟨hl, hlast, -⟩ := linked_append.mp h
    rw [addresses_append, List.reverse_append, List.getLast?_append]
    refine ⟨rfl, _, hlast, ?_⟩
    rw [Option.or_none]
    exact ih hl

theorem Visits.unique {link : Cell α β → Option α} {p : Option α} {l l' : List α}
    (h : Visits s link p l) (h' : Visits s link p l') : l = l' := by
  induction l generalizing p l' with
  | nil =>
    cases l' with
    | nil => rfl
    | cons a l' => exact absurd (h.symm.trans h'.1) (by simp)
  | cons a l ih =>
    obtain ⟨rfl, c, hc, hl⟩ := h
    cases l' with
    | nil => exact absurd h' (by simp [Visits])
    | cons a' l' =>
      obtain ⟨haa', c', hc', hl'⟩ := h'
      obtain rfl := Option.some_inj.mp haa'
      obtain rfl := Option.some_inj.mp (hc.symm.trans hc')
      rw [ih hl hl']

theorem Linked.unique {before' : Option α} (h : Linked s before l none)
    (h' : Linked s before' l' none) (hhead : l.head?.map Prod.fst = l'.head?.map Prod.fst) :
    l = l' := by
  induction l generalizing before before' l' with
  | nil => exact (List.head?_eq_none_iff.mp (Option.map_eq_none_iff.mp hhead.symm)).symm
  | cons e l ih =>
    cases l' with
    | nil => exact nomatch hhead
    | cons e' l' =>
      obtain ⟨a, x⟩ := e
      obtain ⟨a', x'⟩ := e'
      obtain rfl := Option.some_inj.mp hhead
      have hcell := Option.some_inj.mp (h.1.symm.trans h'.1)
      rw [Cell.mk.injEq, Option.or_none, Option.or_none] at hcell
      obtain ⟨rfl, hnext, -⟩ := hcell
      rw [ih h.2 h'.2 hnext]

/-- The cells that pointers of either kind lead to from `p`. -/
inductive Reaches (s : Store α β) (p : Option α) : α → Prop
  | start {a : α} (h : p = some a) : Reaches s p a
  | next {a b : α} {c : Cell α β} (ha : Reaches s p a) (hc : s a = some c) (hb : c.next = some b) :
      Reaches s p b
  | prev {a b : α} {c : Cell α β} (ha : Reaches s p a) (hc : s a = some c) (hb : c.prev = some b) :
      Reaches s p b

theorem Linked.next_mem (h : Linked s before l none) {a b : α} (ha : a ∈ addresses l)
    {c : Cell α β} (hc : s a = some c) (hb : c.next = some b) : b ∈ addresses l := by
  induction l generalizing before with
  | nil => exact absurd ha List.not_mem_nil
  | cons e l ih =>
    rcases List.mem_cons.mp ha with rfl | hmem
    · have hcell := Option.some_inj.mp (hc.symm.trans h.1)
      rw [hcell, Option.or_none] at hb
      obtain ⟨e', he', rfl⟩ := Option.map_eq_some_iff.mp hb
      exact List.mem_cons_of_mem _ (List.mem_map_of_mem (List.mem_of_mem_head? he'))
    · exact List.mem_cons_of_mem _ (ih h.2 hmem)

theorem Linked.prev_mem (h : Linked s none l after) {a b : α} (ha : a ∈ addresses l)
    {c : Cell α β} (hc : s a = some c) (hb : c.prev = some b) : b ∈ addresses l := by
  induction l using List.reverseRecOn generalizing after with
  | nil => exact absurd ha List.not_mem_nil
  | append_singleton l e ih =>
    obtain ⟨hl, hlast, -⟩ := linked_append.mp h
    rw [addresses_append, List.mem_append] at ha ⊢
    rcases ha with hmem | hmem
    · exact Or.inl (ih hl hmem)
    · obtain rfl := List.mem_singleton.mp hmem
      have hcell := Option.some_inj.mp (hc.symm.trans hlast)
      rw [hcell, Option.or_none] at hb
      obtain ⟨e', he', rfl⟩ := Option.map_eq_some_iff.mp hb
      exact Or.inl (List.mem_map_of_mem (List.mem_of_mem_getLast? he'))

/-- No chain of pointers leaves a list that is closed at both ends. -/
theorem Reaches.mem {p : Option α} {a : α} (h : Reaches s p a) (hl : Linked s none l none)
    (hp : ∀ b, p = some b → b ∈ addresses l) : a ∈ addresses l := by
  induction h with
  | start hstart => exact hp _ hstart
  | next _ hc hb ih => exact hl.next_mem ih hc hb
  | prev _ hc hb ih => exact hl.prev_mem ih hc hb

/-! ## Insertion and removal -/

section Update

variable [DecidableEq α]

/-- A cell allocated behind the last one, once the last one's `next` pointer leads to it. -/
theorem Linked.append {e : α × β} {a : α} {x : β} (h : Linked s none (l ++ [e]) none)
    (hnodup : (addresses (l ++ [e])).Nodup) (ha : a ∉ addresses (l ++ [e])) :
    ∃ s', setNext (Function.update s a (some ⟨x, none, some e.1⟩)) e.1 (some a) = some s' ∧
      Linked s' none (l ++ [e] ++ [(a, x)]) none := by
  have hne : a ≠ e.1 := fun hae ↦ ha (by simp [hae])
  obtain ⟨s', hset, hlinked, hframe⟩ := (h.update_of_notMem ha _).setNext_getLast hnodup (some a)
  refine ⟨s', hset, linked_append.mpr ⟨hlinked, ?_, trivial⟩⟩
  rw [hframe a hne, Function.update_self]
  simp

/-- A cell between two others is freed, once these point past it. -/
theorem Linked.remove {p e n : α × β} (h : Linked s none (l ++ [p] ++ e :: n :: l') none)
    (hnodup : (addresses (l ++ [p] ++ e :: n :: l')).Nodup) :
    ∃ s₁ s₂, setPrev s n.1 (some p.1) = some s₁ ∧ setNext s₁ p.1 (some n.1) = some s₂ ∧
      Linked (Function.update s₂ e.1 none) none (l ++ [p] ++ n :: l') none := by
  obtain ⟨hfront, hmid⟩ := linked_append.mp h
  obtain ⟨hback, hdisjoint⟩ : (addresses (n :: l')).Nodup ∧
      ∀ b ∈ addresses (l ++ [p]), b ∉ addresses (n :: l') := by
    rw [addresses_append, List.nodup_append] at hnodup
    exact ⟨(List.nodup_cons.mp hnodup.2.1).2,
      fun b hb hb' ↦ hnodup.2.2 b hb b (List.mem_cons_of_mem _ hb') rfl⟩
  have he : e.1 ∉ addresses (l ++ [p] ++ n :: l') := by
    have hperm : (addresses (l ++ [p] ++ e :: n :: l')).Perm
        (e.1 :: addresses (l ++ [p] ++ n :: l')) := List.perm_middle.map Prod.fst
    exact (List.nodup_cons.mp (hperm.nodup_iff.mp hnodup)).1
  have hnodupFront : (addresses (l ++ [p])).Nodup := by
    rw [addresses_append] at hnodup
    exact hnodup.of_append_left
  obtain ⟨s₁, hprev, hlinked₁, hframe₁⟩ := hmid.2.setPrev_head hback (some p.1)
  have hfront₁ : Linked s₁ none (l ++ [p]) (some e.1) := by
    refine hfront.congr fun b hb ↦ hframe₁ b fun hbn ↦ hdisjoint b hb ?_
    rw [hbn]
    exact List.mem_cons_self
  obtain ⟨s₂, hnext, hlinked₂, hframe₂⟩ := hfront₁.setNext_getLast hnodupFront (some n.1)
  refine ⟨s₁, s₂, hprev, hnext, Linked.update_of_notMem ?_ he none⟩
  refine linked_append.mpr ⟨hlinked₂, ?_⟩
  rw [List.getLast?_append]
  refine hlinked₁.congr fun b hb ↦ hframe₂ b fun hbp ↦ hdisjoint b ?_ hb
  rw [hbp]
  simp

/-- The last of several cells is freed, once the one before it points nowhere. -/
theorem Linked.removeLast {p e : α × β} (h : Linked s none (l ++ [p] ++ [e]) none)
    (hnodup : (addresses (l ++ [p] ++ [e])).Nodup) :
    ∃ s', setNext s p.1 none = some s' ∧
      Linked (Function.update s' e.1 none) none (l ++ [p]) none := by
  rw [addresses_append] at hnodup
  have he : e.1 ∉ addresses (l ++ [p]) := fun hmem ↦
    List.disjoint_left.mp (List.disjoint_of_nodup_append hnodup) hmem List.mem_cons_self
  obtain ⟨s', hset, hlinked, -⟩ := (linked_append.mp h).1.setNext_getLast hnodup.of_append_left none
  exact ⟨s', hset, hlinked.update_of_notMem he none⟩

end Update

end EntangledMPI.LinkedCells
