import Mathlib.Data.List.Basic
import Mathlib.Logic.Function.Basic
import Mathlib.Order.Interval.Set.Basic

/-!
# Elements in memory

A type map says where the bytes of an element lie, counted from its begin, and how far the next
element is. Elements are packed byte by byte in the order of the map, and unpacked in the same
order. A map without gaps puts the bytes of any number of elements one after the other, so that
what is packed depends on that many bytes of the memory only.
-/

namespace EntangledMPI

/-- Where the bytes of an element lie, and how far it is from one element to the next. -/
structure TypeMap where
  displacements : List ℕ
  extent : ℕ
  deriving DecidableEq

namespace TypeMap

variable {β : Type*} {t : TypeMap} {count base i j k : ℕ} {payload : List β} {memory : ℕ → β}

/-- `n` bytes one after the other. -/
def ofBytes (n : ℕ) : TypeMap := ⟨List.range n, n⟩

variable (t) in
/-- How many bytes an element has. -/
def size : ℕ := t.displacements.length

variable (t) in
/-- Where the byte number `j` of a row of elements lies. -/
def offset (j : ℕ) : ℕ := j / t.size * t.extent + t.displacements.getD (j % t.size) 0

variable (t) in
/-- Where the bytes of some elements lie that begin at `base`. -/
def places (count base : ℕ) : Set ℕ := {k | ∃ j < t.size * count, k = base + t.offset j}

variable (t) in
def pack (count : ℕ) (memory : ℕ → β) : List β :=
  (List.range (t.size * count)).map fun j ↦ memory (t.offset j)

variable (t) in
/-- The bytes from number `j` on, written to the elements that begin at `base`. -/
def unpackFrom (base : ℕ) : ℕ → List β → (ℕ → β) → ℕ → β
  | _, [], memory => memory
  | j, b :: payload, memory =>
    unpackFrom base (j + 1) payload (Function.update memory (base + t.offset j) b)

variable (t) in
def unpack (base : ℕ) (payload : List β) (memory : ℕ → β) : ℕ → β :=
  t.unpackFrom base 0 payload memory

/-! ## Bytes apart -/

variable (t) in
/-- No two bytes of the elements lie at one place. -/
def Apart (count : ℕ) : Prop := Set.InjOn t.offset (Set.Iio (t.size * count))

theorem unpackFrom_of_forall_ne (h : ∀ i < payload.length, k ≠ base + t.offset (j + i)) :
    t.unpackFrom base j payload memory k = memory k := by
  induction payload generalizing j memory with
  | nil => rfl
  | cons b payload ih =>
    have hrest : ∀ i < payload.length, k ≠ base + t.offset (j + 1 + i) := by
      intro i hi
      rw [Nat.add_right_comm j 1 i]
      exact h (i + 1) (Nat.succ_lt_succ hi)
    exact (ih hrest).trans (Function.update_of_ne (h 0 (Nat.succ_pos _)) _ _)

/-- Each byte of a payload comes to its place. -/
theorem unpackFrom_offset (h : t.Apart count) (hfits : j + payload.length ≤ t.size * count)
    (hi : i < payload.length) :
    t.unpackFrom base j payload memory (base + t.offset (j + i)) = payload[i] := by
  induction payload generalizing i j memory with
  | nil => exact absurd hi (Nat.not_lt_zero i)
  | cons b payload ih =>
    rw [List.length_cons] at hfits hi
    cases i with
    | zero =>
      -- the rest of the payload goes to other places
      have hrest : ∀ i < payload.length, base + t.offset j ≠ base + t.offset (j + 1 + i) := by
        intro i hi' heq
        have hj : j ∈ Set.Iio (t.size * count) := Set.mem_Iio.mpr (by omega)
        have hother : j + 1 + i ∈ Set.Iio (t.size * count) := Set.mem_Iio.mpr (by omega)
        have hsame := h hj hother (Nat.add_left_cancel heq)
        omega
      exact (unpackFrom_of_forall_ne hrest).trans (Function.update_self ..)
    | succ i =>
      rw [← Nat.add_assoc j i 1, Nat.add_right_comm j i 1]
      exact ih (by omega) (Nat.lt_of_succ_lt_succ hi)

theorem unpack_offset (h : t.Apart count) (hfits : payload.length ≤ t.size * count)
    (hi : i < payload.length) :
    t.unpack base payload memory (base + t.offset i) = payload[i] := by
  have hbyte : t.unpackFrom base 0 payload memory (base + t.offset (0 + i)) = payload[i] :=
    unpackFrom_offset h (by rwa [Nat.zero_add]) hi
  rwa [Nat.zero_add] at hbyte

/-! ## No gaps -/

variable (t) in
/-- The bytes of an element lie one after the other, and so do the elements. -/
structure Contiguous : Prop where
  displacements : t.displacements = List.range t.size
  extent : t.extent = t.size

theorem contiguous_ofBytes (n : ℕ) : (ofBytes n).Contiguous := by
  have hsize : (ofBytes n).size = n := List.length_range
  exact ⟨congrArg List.range hsize.symm, hsize.symm⟩

theorem Contiguous.offset_eq (h : t.Contiguous) (hj : j < t.size * count) : t.offset j = j := by
  have hpos : 0 < t.size := Nat.pos_of_ne_zero fun hzero ↦ by
    rw [hzero, Nat.zero_mul] at hj
    exact Nat.not_lt_zero j hj
  have hmod : j % t.size < t.size := Nat.mod_lt j hpos
  rw [offset, h.displacements, h.extent, List.getD_eq_getElem?_getD, List.getElem?_range hmod,
    Option.getD_some, Nat.mul_comm]
  exact Nat.div_add_mod j t.size

theorem Contiguous.apart (h : t.Contiguous) (count : ℕ) : t.Apart count := by
  intro i hi j hj hsame
  rwa [h.offset_eq hi, h.offset_eq hj] at hsame

theorem Contiguous.places_eq (h : t.Contiguous) (count base : ℕ) :
    t.places count base = Set.Ico base (base + t.size * count) := by
  ext k
  constructor
  · rintro ⟨j, hj, rfl⟩
    rw [h.offset_eq hj]
    exact ⟨Nat.le_add_right _ _, Nat.add_lt_add_left hj _⟩
  · rintro ⟨hbase, hk⟩
    have hlt : k - base < t.size * count := by omega
    refine ⟨k - base, hlt, ?_⟩
    rw [h.offset_eq hlt]
    omega

theorem Contiguous.pack_congr (h : t.Contiguous) {memory' : ℕ → β}
    (hsame : ∀ k < t.size * count, memory k = memory' k) :
    t.pack count memory = t.pack count memory' := by
  refine List.map_congr_left fun j hj ↦ ?_
  have hlt := List.mem_range.mp hj
  rw [h.offset_eq hlt]
  exact hsame j hlt

theorem Contiguous.unpackFrom_apply (h : t.Contiguous)
    (hfits : j + payload.length ≤ t.size * count) (k : ℕ) :
    t.unpackFrom base j payload memory k =
      if base + j ≤ k then payload.getD (k - (base + j)) (memory k) else memory k := by
  induction payload generalizing j memory with
  | nil => rw [unpackFrom, List.getD_nil, ite_self]
  | cons b payload ih =>
    rw [List.length_cons] at hfits
    have hlt : j < t.size * count := by omega
    rw [unpackFrom, ih (by omega), h.offset_eq hlt]
    by_cases hk : k = base + j
    · subst hk
      simp
    · rw [Function.update_of_ne hk]
      by_cases hle : base + j ≤ k
      · have hsub : k - (base + j) = k - (base + (j + 1)) + 1 := by omega
        rw [if_pos hle, if_pos (by omega), hsub, List.getD_cons_succ]
      · rw [if_neg hle, if_neg (by omega)]

theorem Contiguous.unpack_apply (h : t.Contiguous) (hfits : payload.length ≤ t.size * count)
    (k : ℕ) : t.unpack base payload memory k =
      if base ≤ k then payload.getD (k - base) (memory k) else memory k :=
  h.unpackFrom_apply (show 0 + payload.length ≤ t.size * count by rwa [Nat.zero_add]) k

end TypeMap

end EntangledMPI
