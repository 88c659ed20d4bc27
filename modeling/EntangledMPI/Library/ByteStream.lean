import Mathlib.Algebra.Group.Nat.Defs
import Mathlib.Data.List.Basic

/-!
# Bytes written and read back

Numbers are stored with the low byte first, in a fixed number of bytes. A stream is what is left of
a file and its end-of-file indicator. Reading fills a variable that has bytes already: where the
stream has fewer bytes than are asked for, the variable keeps its own for the others.
-/

namespace EntangledMPI.ByteStream

/-! ## Numbers -/

/-- The `n` low bytes of `v`. -/
def encode : ℕ → ℕ → List UInt8
  | 0, _ => []
  | n + 1, v => UInt8.ofNat v :: encode n (v / 256)

def decode : List UInt8 → ℕ
  | [] => 0
  | b :: l => b.toNat + 256 * decode l

@[simp] theorem length_encode (n v : ℕ) : (encode n v).length = n := by
  induction n generalizing v with
  | zero => rfl
  | succ n ih => rw [encode, List.length_cons, ih]

theorem decode_encode {n v : ℕ} (h : v < 256 ^ n) : decode (encode n v) = v := by
  induction n generalizing v with
  | zero =>
    rw [Nat.pow_zero] at h
    exact (Nat.lt_one_iff.mp h).symm
  | succ n ih =>
    rw [Nat.pow_succ] at h
    rw [encode, decode, ih (Nat.div_lt_of_lt_mul (by omega)), UInt8.toNat_ofNat']
    exact Nat.mod_add_div v 256

theorem decode_lt (l : List UInt8) : decode l < 256 ^ l.length := by
  induction l with
  | nil => exact Nat.one_pos
  | cons b l ih =>
    have hb : b.toNat < 256 := b.toNat_lt
    rw [decode, List.length_cons, Nat.pow_succ]
    omega

theorem encode_decode (l : List UInt8) : encode l.length (decode l) = l := by
  induction l with
  | nil => rfl
  | cons b l ih =>
    have hb : b.toNat < 256 := b.toNat_lt
    have hdiv : (b.toNat + 256 * decode l) / 256 = decode l := by omega
    rw [List.length_cons, decode, encode, hdiv, ih]
    congr 1
    rw [← UInt8.toNat_inj, UInt8.toNat_ofNat']
    omega

/-! ## Records of 64-bit words -/

def encodeWords (l : List UInt64) : List UInt8 := l.flatMap fun v ↦ encode 8 v.toNat

/-- The `i`-th word of a record. -/
def word (l : List UInt8) (i : ℕ) : UInt64 := UInt64.ofNat (decode ((l.drop (8 * i)).take 8))

@[simp] theorem length_encodeWords (l : List UInt64) : (encodeWords l).length = 8 * l.length := by
  induction l with
  | nil => rfl
  | cons v l ih =>
    rw [encodeWords] at ih ⊢
    rw [List.flatMap_cons, List.length_append, length_encode, ih, List.length_cons]
    omega

theorem word_encodeWords {l : List UInt64} {i : ℕ} {v : UInt64} (h : l[i]? = some v) :
    word (encodeWords l) i = v := by
  induction l generalizing i with
  | nil => exact absurd h (by simp)
  | cons w l ih =>
    rw [encodeWords, List.flatMap_cons]
    cases i with
    | zero =>
      obtain rfl : w = v := by simpa using h
      rw [word, Nat.mul_zero, List.drop_zero, List.take_left' (length_encode _ _),
        decode_encode (by exact w.toNat_lt), UInt64.ofNat_toNat]
    | succ i =>
      have hdrop : (encode 8 w.toNat ++ encodeWords l).drop (8 * (i + 1)) =
          (encodeWords l).drop (8 * i) := by
        rw [Nat.mul_add, Nat.mul_one, Nat.add_comm, ← List.drop_drop,
          List.drop_left' (length_encode _ _)]
      rw [← ih (by simpa using h), word, word, ← hdrop]
      rfl

/-! ## Streams -/

structure Stream where
  rest : List UInt8
  eof : Bool
  deriving DecidableEq

/-- Read `n` bytes over the bytes `old`. -/
def fread (n : ℕ) (old : List UInt8) (f : Stream) : List UInt8 × Stream :=
  (f.rest.take n ++ old.drop (f.rest.take n).length,
    ⟨f.rest.drop n, f.eof || decide (f.rest.length < n)⟩)

@[simp] theorem rest_fread (n : ℕ) (old : List UInt8) (f : Stream) :
    (fread n old f).2.rest = f.rest.drop n := rfl

theorem fread_append {n : ℕ} {bytes : List UInt8} (hn : bytes.length = n) (old rest : List UInt8)
    (eof : Bool) :
    fread n old ⟨bytes ++ rest, eof⟩ = (bytes ++ old.drop n, ⟨rest, eof⟩) := by
  have hlength : ¬(bytes ++ rest).length < n := by
    rw [List.length_append]
    omega
  rw [fread, List.take_left' hn, List.drop_left' hn, decide_eq_false hlength, Bool.or_false, hn]

theorem fread_append_of_length {n : ℕ} {bytes old : List UInt8} (hn : bytes.length = n)
    (hold : old.length ≤ n) (rest : List UInt8) (eof : Bool) :
    fread n old ⟨bytes ++ rest, eof⟩ = (bytes, ⟨rest, eof⟩) := by
  rw [fread_append hn, List.drop_eq_nil_of_le hold, List.append_nil]

/-- Read a word. -/
def freadWord (old : UInt64) (f : Stream) : UInt64 × Stream :=
  (UInt64.ofNat (decode (fread 8 (encode 8 old.toNat) f).1), (fread 8 (encode 8 old.toNat) f).2)

/-- Read an `int`. -/
def freadInt (old : UInt32) (f : Stream) : UInt32 × Stream :=
  (UInt32.ofNat (decode (fread 4 (encode 4 old.toNat) f).1), (fread 4 (encode 4 old.toNat) f).2)

theorem freadWord_append (old v : UInt64) (rest : List UInt8) (eof : Bool) :
    freadWord old ⟨encode 8 v.toNat ++ rest, eof⟩ = (v, ⟨rest, eof⟩) := by
  rw [freadWord, fread_append_of_length (length_encode _ _) (Nat.le_of_eq (length_encode _ _)),
    decode_encode (by exact v.toNat_lt), UInt64.ofNat_toNat]

theorem freadInt_append (old v : UInt32) (rest : List UInt8) (eof : Bool) :
    freadInt old ⟨encode 4 v.toNat ++ rest, eof⟩ = (v, ⟨rest, eof⟩) := by
  rw [freadInt, fread_append_of_length (length_encode _ _) (Nat.le_of_eq (length_encode _ _)),
    decode_encode (by exact v.toNat_lt), UInt32.ofNat_toNat]

/-- A short read keeps the last byte of an `int`. -/
theorem getLast?_freadInt {old : UInt32} {f : Stream} (hshort : f.rest.length < 4) :
    (encode 4 (freadInt old f).1.toNat).getLast? = (encode 4 old.toNat).getLast? := by
  have hlength : (fread 4 (encode 4 old.toNat) f).1.length = 4 := by
    rw [fread, List.length_append, List.length_drop, List.length_take, length_encode]
    omega
  have hbytes : encode 4 (freadInt old f).1.toNat = (fread 4 (encode 4 old.toNat) f).1 := by
    have hlt := decode_lt (fread 4 (encode 4 old.toNat) f).1
    have hback := encode_decode (fread 4 (encode 4 old.toNat) f).1
    rw [hlength] at hlt hback
    rw [freadInt, UInt32.toNat_ofNat_of_lt' hlt, hback]
  rw [hbytes, fread, List.take_of_length_le (by omega), List.getLast?_append]
  have hkept : ((encode 4 old.toNat).drop f.rest.length).getLast? =
      (encode 4 old.toNat).getLast? := by
    rw [List.getLast?_drop, length_encode, if_neg (by omega)]
  rw [hkept, encode]
  rfl

end EntangledMPI.ByteStream
