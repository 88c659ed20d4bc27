import EntangledMPI.Library.ByteStream
import Mathlib.Algebra.Ring.Nat
import Mathlib.Data.List.TakeDrop
import Mathlib.Logic.Function.Basic
import Mathlib.Logic.Relation

/-!
# Files of records

A file is its bytes. A write behind the end fills the gap with zeros. `n` writers share one file;
each opens it, which creates it if it is absent and changes nothing otherwise, and writes its next
record, always at the same place, which is the `r`-th slot for the writer `r`. The writers go on in
any order and any number of times. A reader takes one slot after the other until nothing is left.

## Main results

- `Reachable.file_eq_flatMap`: once every writer has written, the file is their last records, one
  after the other
- `readLoop_flatMap`: the reader sees them one by one
-/

namespace EntangledMPI.RecordFile

open ByteStream

/-! ## Slots -/

/-- Write bytes at an offset. -/
def writeAt (offset : ℕ) (bytes file : List UInt8) : List UInt8 :=
  file.take offset ++ List.replicate (offset - file.length) 0 ++
    (bytes ++ file.drop (offset + bytes.length))

/-- The `i`-th slot of a file, or what there is of it. -/
def slot (size i : ℕ) (file : List UInt8) : List UInt8 := (file.drop (size * i)).take size

variable {size i k : ℕ} {bytes file : List UInt8}

theorem length_gap (offset : ℕ) (file : List UInt8) :
    (file.take offset ++ List.replicate (offset - file.length) 0).length = offset := by
  rw [List.length_append, List.length_take, List.length_replicate]
  omega

theorem length_writeAt (offset : ℕ) (bytes file : List UInt8) :
    (writeAt offset bytes file).length = max file.length (offset + bytes.length) := by
  rw [writeAt, List.length_append, length_gap, List.length_append, List.length_drop]
  omega

theorem length_slot : (slot size i file).length = min size (file.length - size * i) := by
  rw [slot, List.length_take, List.length_drop]

theorem slot_writeAt_self (h : bytes.length = size) :
    slot size i (writeAt (size * i) bytes file) = bytes := by
  rw [slot, writeAt, List.drop_left' (length_gap _ _), List.take_left' h]

theorem take_drop_writeAt {offset start n : ℕ}
    (h : start + n ≤ offset ∧ start + n ≤ file.length ∨ offset + bytes.length ≤ start) :
    ((writeAt offset bytes file).drop start).take n = (file.drop start).take n := by
  rcases h with ⟨hoffset, hlength⟩ | hbehind
  · have hle : start + n ≤ (file.take offset).length := by
      rw [List.length_take]
      omega
    rw [List.take_drop, List.take_drop, writeAt, List.append_assoc,
      List.take_append_of_le_length hle, List.take_take, Nat.min_eq_left hoffset]
  · have hdrop : (writeAt offset bytes file).drop (offset + bytes.length) =
        file.drop (offset + bytes.length) := by
      rw [writeAt, ← List.append_assoc, List.drop_left' (by rw [List.length_append, length_gap])]
    obtain ⟨d, rfl⟩ := Nat.exists_eq_add_of_le hbehind
    rw [← List.drop_drop, hdrop, List.drop_drop]

/-- A write that fills one slot keeps every other whole slot. -/
theorem slot_writeAt_of_ne (h : bytes.length = size) (hik : i ≠ k)
    (hi : size * (i + 1) ≤ file.length) :
    slot size i (writeAt (size * k) bytes file) = slot size i file := by
  refine take_drop_writeAt ?_
  rcases Nat.lt_or_gt_of_ne hik with hlt | hgt
  · exact Or.inl ⟨Nat.mul_le_mul_left size hlt, hi⟩
  · exact Or.inr (h ▸ Nat.mul_le_mul_left size hgt)

theorem mul_succ_le_of_length_slot (hsize : 0 < size) (h : (slot size i file).length = size) :
    size * (i + 1) ≤ file.length := by
  rw [length_slot] at h
  rw [Nat.mul_succ]
  omega

theorem eq_flatMap_slot {n : ℕ} (h : file.length = size * n) :
    file = (List.finRange n).flatMap fun i : Fin n ↦ slot size i file := by
  induction n generalizing file with
  | zero =>
    rw [Nat.mul_zero] at h
    exact List.eq_nil_of_length_eq_zero h
  | succ n ih =>
    have hlength : (file.drop size).length = size * n := by
      rw [List.length_drop, h, Nat.mul_succ]
      omega
    have hslot : ∀ i : Fin n, slot size i (file.drop size) = slot size i.succ file := by
      intro i
      rw [slot, List.drop_drop, slot, Fin.val_succ, Nat.mul_succ, Nat.add_comm]
    have htail := ih hlength
    rw [funext hslot] at htail
    rw [List.finRange_succ, List.flatMap_cons, List.flatMap_map, ← htail, slot, Fin.val_zero,
      Nat.mul_zero, List.drop_zero]
    exact (List.take_append_drop size file).symm

/-! ## Writers -/

/-- A file, absent at first, and its writers: which of them have it open, and how many records each
has written. -/
structure Writers (n : ℕ) where
  file : Option (List UInt8)
  opened : Fin n → Bool
  written : Fin n → ℕ

variable {n : ℕ}

namespace Writers

/-- Nobody has opened the file yet. -/
def start (n : ℕ) : Writers n := ⟨none, fun _ ↦ false, fun _ ↦ 0⟩

def content (s : Writers n) : List UInt8 := s.file.getD []

/-- One writer opens the file, or writes its next record and closes it; `write r k` is what the
writer `r` does to the file the `k`-th time. -/
inductive Step (write : Fin n → ℕ → List UInt8 → List UInt8) (s : Writers n) : Writers n → Prop
  | openFile {r : Fin n} (h : s.opened r = false) :
      Step write s { s with file := some s.content, opened := Function.update s.opened r true }
  | write {r : Fin n} {bytes : List UInt8} (hopened : s.opened r = true)
      (hfile : s.file = some bytes) :
      Step write s ⟨some (write r (s.written r) bytes), Function.update s.opened r false,
        Function.update s.written r (s.written r + 1)⟩

/-- Every state of every run. -/
def Reachable (write : Fin n → ℕ → List UInt8 → List UInt8) (s : Writers n) : Prop :=
  Relation.ReflTransGen (Step write) (start n) s

/-- The file ends with a slot, and every slot that has been written holds its writer's last
record. -/
structure Slotted (size : ℕ) (record : Fin n → ℕ → List UInt8) (s : Writers n) : Prop where
  length_eq : ∃ m ≤ n, s.content.length = size * m
  slot_eq : ∀ r k, s.written r = k + 1 → slot size r s.content = record r k

variable {write : Fin n → ℕ → List UInt8 → List UInt8} {record : Fin n → ℕ → List UInt8}
  {s s' : Writers n}

theorem slotted_start (size : ℕ) (record : Fin n → ℕ → List UInt8) :
    (start n).Slotted size record :=
  ⟨⟨0, n.zero_le, rfl⟩, fun _ _ h ↦ nomatch h⟩

theorem Slotted.step (hsize : 0 < size) (hrecord : ∀ r k, (record r k).length = size)
    (hwrite : ∀ r k file, write r k file = writeAt (size * r) (record r k) file)
    (h : s.Slotted size record) (hstep : s.Step write s') : s'.Slotted size record := by
  cases hstep with
  | openFile => exact ⟨h.length_eq, h.slot_eq⟩
  | @write r bytes hopened hfile =>
    have hbytes : s.content = bytes := by rw [content, hfile, Option.getD_some]
    obtain ⟨⟨m, hm, hlength⟩, hslot⟩ := h
    rw [hbytes] at hlength hslot
    constructor
    · -- the file ends behind the slot just written, or where it did before
      refine ⟨max m (r + 1), Nat.max_le.mpr ⟨hm, r.isLt⟩, ?_⟩
      rw [content, Option.getD_some, hwrite, length_writeAt, hrecord, hlength, ← Nat.mul_succ,
        Nat.mul_max_mul_left]
    · intro q k hq
      rw [content, Option.getD_some, hwrite]
      dsimp only at hq
      by_cases hqr : q = r
      · subst hqr
        rw [Function.update_self, Nat.succ_inj] at hq
        rw [hq, slot_writeAt_self (hrecord q k)]
      · rw [Function.update_of_ne hqr] at hq
        have hkept := hslot q k hq
        have hwhole : size * (q + 1) ≤ bytes.length :=
          mul_succ_le_of_length_slot hsize (by rw [hkept, hrecord])
        rw [slot_writeAt_of_ne (hrecord r _) (fun hval ↦ hqr (Fin.ext hval)) hwhole, hkept]

theorem Reachable.slotted (hsize : 0 < size) (hrecord : ∀ r k, (record r k).length = size)
    (hwrite : ∀ r k file, write r k file = writeAt (size * r) (record r k) file)
    (h : Reachable write s) : s.Slotted size record := by
  induction h with
  | refl => exact slotted_start size record
  | tail _ hstep ih => exact ih.step hsize hrecord hwrite hstep

/-- What is left when a writer has opened the file and written its next record. -/
def turn (write : Fin n → ℕ → List UInt8 → List UInt8) (s : Writers n) (r : Fin n) : Writers n :=
  ⟨some (write r (s.written r) s.content), s.opened,
    Function.update s.written r (s.written r + 1)⟩

theorem Reachable.turn (h : Reachable write s) {r : Fin n} (hr : s.opened r = false) :
    Reachable write (s.turn write r) := by
  have hclosed : Function.update (Function.update s.opened r true) r false = s.opened := by
    rw [Function.update_idem, ← hr, Function.update_eq_self]
  have hopened := Relation.ReflTransGen.tail h (Step.openFile hr)
  have hwritten := hopened.tail (Step.write (r := r) (Function.update_self _ _ _) rfl)
  dsimp only at hwritten
  rwa [hclosed] at hwritten

theorem Slotted.content_eq_flatMap (hsize : 0 < size) (hrecord : ∀ r k, (record r k).length = size)
    (h : s.Slotted size record) {last : Fin n → ℕ} (hlast : ∀ r, s.written r = last r + 1) :
    s.content = (List.finRange n).flatMap fun r ↦ record r (last r) := by
  obtain ⟨⟨m, hm, hlength⟩, hslot⟩ := h
  have hn : n ≤ m := by
    rcases Nat.eq_zero_or_pos n with rfl | hpos
    · exact m.zero_le
    · -- the slot of the last writer is whole, so no slot is missing at the end
      have hend := hslot ⟨n - 1, Nat.sub_one_lt_of_lt hpos⟩ _ (hlast _)
      have hle := mul_succ_le_of_length_slot hsize (by rw [hend, hrecord])
      rw [hlength, Nat.sub_add_cancel hpos] at hle
      exact Nat.le_of_mul_le_mul_left hle hsize
  obtain rfl : m = n := Nat.le_antisymm hm hn
  rw [eq_flatMap_slot hlength]
  congr 1
  exact funext fun r ↦ hslot r _ (hlast r)

theorem Slotted.exists_file (hsize : 0 < size) (hrecord : ∀ r k, (record r k).length = size)
    (h : s.Slotted size record) {r : Fin n} {k : ℕ} (hr : s.written r = k + 1) :
    s.file = some s.content := by
  cases hfile : s.file with
  | some bytes => rw [content, hfile, Option.getD_some]
  | none =>
    have hslot := h.slot_eq r k hr
    have hlength := hrecord r k
    rw [← hslot, length_slot, content, hfile, Option.getD_none, List.length_nil, Nat.zero_sub,
      Nat.min_zero] at hlength
    omega

/-- **What the writers leave.** Once every writer has written, the file is their last records, one
after the other. -/
theorem Reachable.file_eq_flatMap (hpos : 0 < n) (hsize : 0 < size)
    (hrecord : ∀ r k, (record r k).length = size)
    (hwrite : ∀ r k file, write r k file = writeAt (size * r) (record r k) file)
    (h : Reachable write s) {last : Fin n → ℕ} (hlast : ∀ r, s.written r = last r + 1) :
    s.file = some ((List.finRange n).flatMap fun r ↦ record r (last r)) := by
  have hslotted := h.slotted hsize hrecord hwrite
  rw [hslotted.exists_file hsize hrecord (hlast ⟨0, hpos⟩),
    hslotted.content_eq_flatMap hsize hrecord hlast]

end Writers

/-! ## A reader -/

section Reader

variable {σ ε : Type*}

/-- Read a slot into `data` and take a turn, until the file is at its end. A slot that is cut short
leaves the rest of `data` as it was. -/
def readLoop (size : ℕ) [NeZero size] (turn : σ → List UInt8 → Except ε σ) (data : List UInt8)
    (rest : List UInt8) (s : σ) : Except ε σ :=
  if _h : rest = [] then .ok s
  else
    let data := (fread size data ⟨rest, false⟩).1
    match turn s data with
    | .error e => .error e
    | .ok s => readLoop size turn data (rest.drop size) s
termination_by rest.length
decreasing_by
  have hrest := List.length_pos_of_ne_nil _h
  have hsize := Nat.pos_of_neZero size
  rw [List.length_drop]
  omega

variable {size : ℕ} [NeZero size] {turn : σ → List UInt8 → Except ε σ} {β : Type*} {l : List β}
  {record : β → List UInt8}

/-- **What the reader sees.** -/
theorem readLoop_flatMap (hrecord : ∀ b ∈ l, (record b).length = size) {data : List UInt8}
    (hdata : data.length ≤ size) (s : σ) :
    readLoop size turn data (l.flatMap record) s = l.foldlM (fun s b ↦ turn s (record b)) s := by
  induction l generalizing data s with
  | nil =>
    unfold readLoop
    rfl
  | cons b l ih =>
    obtain ⟨hb, hrest⟩ := List.forall_mem_cons.mp hrecord
    have hne : (b :: l).flatMap record ≠ [] := by
      intro hnil
      have hpos := Nat.pos_of_neZero size
      rw [List.flatMap_cons, List.append_eq_nil_iff] at hnil
      rw [← hb, hnil.1] at hpos
      exact absurd hpos (Nat.lt_irrefl 0)
    unfold readLoop
    rw [dif_neg hne, List.flatMap_cons, fread_append_of_length hb hdata, List.drop_left' hb,
      List.foldlM_cons]
    dsimp only
    cases hturn : turn s (record b) with
    | error e => rfl
    | ok s' => exact ih hrest (Nat.le_of_eq hb) s'

theorem readLoop_flatMap_of_ok (hrecord : ∀ b, (record b).length = size) {g : σ → β → σ}
    (hturn : ∀ s b, turn s (record b) = .ok (g s b)) {data : List UInt8}
    (hdata : data.length ≤ size) (s : σ) :
    readLoop size turn data (l.flatMap record) s = .ok (l.foldl g s) := by
  rw [readLoop_flatMap (fun b _ ↦ hrecord b) hdata, funext₂ hturn]
  exact List.foldlM_pure

end Reader

end EntangledMPI.RecordFile
