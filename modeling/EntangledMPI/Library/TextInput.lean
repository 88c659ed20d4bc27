import Mathlib.Algebra.Order.Ring.Int
import Mathlib.Data.Int.Notation
import Mathlib.Data.List.Basic
import Mathlib.Data.List.DropRight

/-!
# Numbers in a text

A text is a list of characters, and there are two ways to read numbers from one. The `fscanf` of C
converts from the front, skips white space of any kind and leaves what it has not used. The library
functions of Go cut the text into lines, the lines at every separator, and convert the pieces as a
whole.

Both take a decimal numeral to the same number; what stands around it matters only to the second.
-/

namespace EntangledMPI.TextInput

abbrev Text := List Char

/-- `isspace` of C. -/
def isSpace (c : Char) : Bool := c = ' ' || (9 ≤ c.toNat && c.toNat ≤ 13)

/-- `strconv.Itoa`, of a number that is not negative. -/
def itoa (n : ℕ) : Text := Nat.toDigits 10 n

/-! ## Numerals -/

inductive Sign
  | none
  | plus
  | minus
  deriving DecidableEq

def Sign.text : Sign → Text
  | .none => []
  | .plus => ['+']
  | .minus => ['-']

def Sign.apply : Sign → ℕ → ℤ
  | .minus, n => -n
  | _, n => n

/-- Take a sign off the front of a text. -/
def splitSign : Text → Sign × Text
  | '+' :: t => (.plus, t)
  | '-' :: t => (.minus, t)
  | t => (.none, t)

/-- A decimal numeral. -/
structure Numeral where
  sign : Sign
  digits : Text
  ne_nil : digits ≠ []
  isDigit : ∀ c ∈ digits, c.isDigit = true

namespace Numeral

def text (n : Numeral) : Text := n.sign.text ++ n.digits

def value (n : Numeral) : ℤ := n.sign.apply (Nat.ofDigitChars 10 n.digits 0)

/-- What `itoa` prints. -/
def ofNat (n : ℕ) : Numeral where
  sign := .none
  digits := itoa n
  ne_nil := Nat.toDigits_ne_nil
  isDigit _ hc := Nat.isDigit_of_mem_toDigits (by decide) (by decide) hc

@[simp] theorem text_ofNat (n : ℕ) : (ofNat n).text = itoa n := rfl

@[simp] theorem value_ofNat (n : ℕ) : (ofNat n).value = n :=
  congrArg Nat.cast Nat.ofDigitChars_ten_toDigits

end Numeral

/-! ## Characters -/

theorem isSpace_of_isDigit {c : Char} (h : c.isDigit = true) : isSpace c = false := by
  have hrange := Char.isDigit_iff_toNat.mp h
  have hlow : (48 : ℕ) ≤ c.toNat := hrange.1
  have hne : c ≠ ' ' := by
    rintro rfl
    exact absurd h (by decide)
  simp only [isSpace, hne, decide_false, Bool.false_or, Bool.and_eq_false_iff,
    decide_eq_false_iff_not]
  right
  omega

/-- No digit comes first. -/
def NoDigit (t : Text) : Prop := ∀ c ∈ t.head?, c.isDigit = false

theorem splitSign_of_isDigit {t : Text} (h : ∀ c ∈ t.head?, c.isDigit = true) :
    splitSign t = (.none, t) := by
  unfold splitSign
  split
  · exact absurd (h '+' rfl) (by decide)
  · exact absurd (h '-' rfl) (by decide)
  · rfl

namespace Numeral

variable (n : Numeral)

theorem head_digits (rest : Text) : ∀ c ∈ (n.digits ++ rest).head?, c.isDigit = true := by
  intro c hc
  rw [List.head?_append_of_ne_nil _ n.ne_nil] at hc
  exact n.isDigit c (List.mem_of_mem_head? hc)

@[simp] theorem splitSign_text (rest : Text) :
    splitSign (n.text ++ rest) = (n.sign, n.digits ++ rest) := by
  have hdigits := splitSign_of_isDigit (n.head_digits rest)
  rw [text, List.append_assoc]
  cases n.sign with
  | none => exact hdigits
  | plus => rfl
  | minus => rfl

theorem of_mem_text {c : Char} (hc : c ∈ n.text) : c = '+' ∨ c = '-' ∨ c.isDigit = true := by
  rcases List.mem_append.mp hc with hsign | hdigit
  · cases hn : n.sign with
    | none => simp [hn, Sign.text] at hsign
    | plus => exact Or.inl (by simpa [hn, Sign.text] using hsign)
    | minus => exact Or.inr (Or.inl (by simpa [hn, Sign.text] using hsign))
  · exact Or.inr (Or.inr (n.isDigit c hdigit))

theorem notMem_text {c : Char} (hplus : c ≠ '+') (hminus : c ≠ '-') (hdigit : c.isDigit = false) :
    c ∉ n.text := by
  intro hc
  rcases n.of_mem_text hc with h | h | h
  · exact hplus h
  · exact hminus h
  · rw [hdigit] at h
    exact Bool.false_ne_true h

theorem text_ne_nil : n.text ≠ [] := by
  intro h
  exact n.ne_nil (List.append_eq_nil_iff.mp h).2

theorem isSpace_head (rest : Text) : ∀ c ∈ (n.text ++ rest).head?, isSpace c = false := by
  intro c hc
  rw [List.head?_append_of_ne_nil _ n.text_ne_nil] at hc
  rcases n.of_mem_text (List.mem_of_mem_head? hc) with rfl | rfl | h
  · decide
  · decide
  · exact isSpace_of_isDigit h

end Numeral

/-! ## `fscanf` -/

/-- An `int` can hold the number. -/
def FitsInt (x : ℤ) : Prop := -2 ^ 31 ≤ x ∧ x < 2 ^ 31

instance (x : ℤ) : Decidable (FitsInt x) := inferInstanceAs (Decidable (_ ∧ _))

/-- What a format is made of: white space, which matches any run of it, and `%d`. -/
inductive Directive
  | space
  | decimal
  deriving DecidableEq

/-- The conversion `%d`. Where it finds no number, it has read a sign at most. C does not say what
becomes of a number that is no `FitsInt`; here it stays as it is. -/
def scanDecimal (t : Text) : Option ℤ × Text :=
  let (sign, t) := splitSign (t.dropWhile isSpace)
  match t.takeWhile Char.isDigit with
  | [] => (none, t)
  | digits => (some (sign.apply (Nat.ofDigitChars 10 digits 0)), t.dropWhile Char.isDigit)

/-- `fscanf`: the numbers it converts, and what is left of the text. It ends at the first conversion
that fails. -/
def fscanf : List Directive → Text → List ℤ × Text
  | [], t => ([], t)
  | .space :: format, t => fscanf format (t.dropWhile isSpace)
  | .decimal :: format, t =>
    match scanDecimal t with
    | (none, t) => ([], t)
    | (some x, t) => (x :: (fscanf format t).1, (fscanf format t).2)

/-- Conversions find the numbers `xs` at the front of the text, one after the other. -/
def Scans : Text → List ℤ → Prop
  | _, [] => True
  | t, x :: xs => ∃ t', scanDecimal t = (some x, t') ∧ Scans t' xs

@[simp] theorem scans_nil (t : Text) : Scans t [] := trivial

theorem scanDecimal_dropWhile (t : Text) : scanDecimal (t.dropWhile isSpace) = scanDecimal t := by
  rw [scanDecimal, scanDecimal, List.dropWhile_idempotent (p := isSpace)]

theorem scans_dropWhile_iff {t : Text} {xs : List ℤ} :
    Scans (t.dropWhile isSpace) xs ↔ Scans t xs := by
  cases xs with
  | nil => rfl
  | cons x xs => rw [Scans, Scans, scanDecimal_dropWhile]

/-- **`fscanf` reads as many numbers as its format asks for**, if they are there. -/
theorem Scans.fscanf (format : List Directive) (xs : List ℤ) {ys : List ℤ}
    (hformat : format.count .decimal = xs.length) {t : Text} (h : Scans t (xs ++ ys)) :
    ∃ t', TextInput.fscanf format t = (xs, t') ∧ Scans t' ys := by
  induction format generalizing xs t with
  | nil =>
    obtain rfl := List.length_eq_zero_iff.mp hformat.symm
    exact ⟨t, rfl, h⟩
  | cons d format ih =>
    cases d with
    | space =>
      rw [List.count_cons_of_ne (by decide)] at hformat
      exact ih xs hformat (scans_dropWhile_iff.mpr h)
    | decimal =>
      rw [List.count_cons_self] at hformat
      cases xs with
      | nil => exact absurd hformat (by simp)
      | cons x xs =>
        obtain ⟨t₁, hscan, hrest⟩ := h
        obtain ⟨t', hformat', hys⟩ := ih xs (Nat.succ_injective hformat) hrest
        refine ⟨t', ?_, hys⟩
        rw [TextInput.fscanf, hscan]
        simp only [hformat']

theorem takeWhile_digits (n : Numeral) {rest : Text} (h : NoDigit rest) :
    (n.digits ++ rest).takeWhile Char.isDigit = n.digits := by
  rw [List.takeWhile_append_of_pos n.isDigit]
  cases rest with
  | nil => simp
  | cons c rest => rw [List.takeWhile_cons_of_neg (by simp [h c rfl]), List.append_nil]

theorem dropWhile_digits (n : Numeral) {rest : Text} (h : NoDigit rest) :
    (n.digits ++ rest).dropWhile Char.isDigit = rest := by
  rw [List.dropWhile_append_of_pos n.isDigit]
  cases rest with
  | nil => rfl
  | cons c rest => rw [List.dropWhile_cons_of_neg (by simp [h c rfl])]

/-- **`%d` reads a numeral to its end.** -/
theorem scanDecimal_text (n : Numeral) {rest : Text} (h : NoDigit rest) :
    scanDecimal (n.text ++ rest) = (some n.value, rest) := by
  have hspace : (n.text ++ rest).dropWhile isSpace = n.text ++ rest := by
    have hhead := n.isSpace_head rest
    cases ht : n.text ++ rest with
    | nil => rfl
    | cons c t =>
      rw [ht] at hhead
      rw [List.dropWhile_cons_of_neg (by simp [hhead c rfl])]
  rw [scanDecimal, hspace, n.splitSign_text]
  dsimp only
  rw [takeWhile_digits n h, dropWhile_digits n h]
  split
  next hnil => exact absurd hnil n.ne_nil
  next => rfl

/-- A numeral in front of a text adds its value to the numbers of the text. -/
theorem Scans.cons_text {rest : Text} {xs : List ℤ} (h : Scans rest xs) (n : Numeral)
    (hrest : NoDigit rest) : Scans (n.text ++ rest) (n.value :: xs) :=
  ⟨rest, scanDecimal_text n hrest, h⟩

theorem Scans.cons_space {t : Text} {xs : List ℤ} (h : Scans t xs) {c : Char}
    (hc : isSpace c = true) : Scans (c :: t) xs := by
  rw [← scans_dropWhile_iff, List.dropWhile_cons_of_pos hc]
  exact scans_dropWhile_iff.mpr h

/-! ## Texts of integers -/

/-- The text is made of the integers `xs`, each of which an `int` can hold, and of white space, of
which there is some between any two of them. -/
inductive Integers : Text → List ℤ → Prop
  | space {gap : Text} (hgap : ∀ c ∈ gap, isSpace c = true) : Integers gap []
  | number {gap rest : Text} {xs : List ℤ} (hgap : ∀ c ∈ gap, isSpace c = true) (n : Numeral)
      (hfits : FitsInt n.value) (hrest : ∀ c ∈ rest.head?, isSpace c = true)
      (h : Integers rest xs) : Integers (gap ++ (n.text ++ rest)) (n.value :: xs)

theorem Integers.cons_text {rest : Text} {xs : List ℤ} (h : Integers rest xs) (n : Numeral)
    (hfits : FitsInt n.value) (hrest : ∀ c ∈ rest.head?, isSpace c = true) :
    Integers (n.text ++ rest) (n.value :: xs) :=
  .number (fun _ hc ↦ absurd hc List.not_mem_nil) n hfits hrest h

theorem Integers.cons_space {t : Text} {xs : List ℤ} (h : Integers t xs) {c : Char}
    (hc : isSpace c = true) : Integers (c :: t) xs := by
  have hcons : ∀ {gap : Text}, (∀ d ∈ gap, isSpace d = true) → ∀ d ∈ c :: gap, isSpace d = true :=
    fun hgap ↦ List.forall_mem_cons.mpr ⟨hc, hgap⟩
  cases h with
  | space hgap => exact .space (hcons hgap)
  | number hgap n hfits hrest h => exact .number (hcons hgap) n hfits hrest h

/-- Conversions find the numbers `xs`, one after the other, and then the end of the text. -/
def ScansAll : Text → List ℤ → Prop
  | t, [] => scanDecimal t = (none, [])
  | t, x :: xs => ∃ t', scanDecimal t = (some x, t') ∧ ScansAll t' xs

theorem scansAll_dropWhile_iff {t : Text} {xs : List ℤ} :
    ScansAll (t.dropWhile isSpace) xs ↔ ScansAll t xs := by
  cases xs with
  | nil => rw [ScansAll, ScansAll, scanDecimal_dropWhile]
  | cons x xs => rw [ScansAll, ScansAll, scanDecimal_dropWhile]

/-- **`fscanf` reads the numbers its format asks for**, as far as there are any. -/
theorem ScansAll.fscanf (format : List Directive) {t : Text} {xs : List ℤ} (h : ScansAll t xs) :
    ∃ t', TextInput.fscanf format t = (xs.take (format.count .decimal), t') ∧
      ScansAll t' (xs.drop (format.count .decimal)) := by
  induction format generalizing t xs with
  | nil => exact ⟨t, rfl, h⟩
  | cons d format ih =>
    cases d with
    | space =>
      rw [List.count_cons_of_ne (by decide)]
      exact ih (scansAll_dropWhile_iff.mpr h)
    | decimal =>
      rw [List.count_cons_self]
      cases xs with
      | nil =>
        -- the end of the text stays the end
        refine ⟨[], ?_, rfl⟩
        rw [TextInput.fscanf, show scanDecimal t = (none, []) from h]
        rfl
      | cons x xs =>
        obtain ⟨t₁, hscan, hrest⟩ := h
        obtain ⟨t', hformat, hdrop⟩ := ih hrest
        refine ⟨t', ?_, hdrop⟩
        rw [TextInput.fscanf, hscan]
        simp only [hformat, List.take_succ_cons]

/-! ## Numerals between separators -/

/-- Numerals with a character between each two. -/
def separated (c : Char) (n : Numeral) (ns : List Numeral) : Text :=
  n.text ++ ns.flatMap fun m ↦ c :: m.text

theorem separated_cons (c : Char) (n m : Numeral) (ns : List Numeral) :
    separated c n (m :: ns) = n.text ++ c :: separated c m ns := by
  rw [separated, separated, List.flatMap_cons, List.cons_append]

section Separated

variable {c : Char} (hc : isSpace c = true)
include hc

theorem isDigit_of_isSpace : c.isDigit = false := by
  by_contra hdigit
  rw [isSpace_of_isDigit (by simpa using hdigit)] at hc
  exact Bool.false_ne_true hc

theorem notMem_text_of_isSpace (n : Numeral) : c ∉ n.text := by
  refine n.notMem_text ?_ ?_ (isDigit_of_isSpace hc)
  · rintro rfl
    exact absurd hc (by decide)
  · rintro rfl
    exact absurd hc (by decide)

/-- **White space between numerals** is no matter to `%d`. -/
theorem Scans.separated {rest : Text} {xs : List ℤ} (h : Scans rest xs) (hrest : NoDigit rest)
    (n : Numeral) (ns : List Numeral) :
    Scans (separated c n ns ++ rest) (n.value :: ns.map Numeral.value ++ xs) := by
  induction ns generalizing n with
  | nil =>
    rw [TextInput.separated, List.flatMap_nil, List.append_nil]
    exact h.cons_text n hrest
  | cons m ns ih =>
    rw [separated_cons, List.append_assoc]
    refine Scans.cons_text ((ih m).cons_space hc) n ?_
    intro d hd
    obtain rfl := Option.some_inj.mp hd
    exact isDigit_of_isSpace hc

theorem Integers.separated {rest : Text} {xs : List ℤ} (h : Integers rest xs)
    (hrest : ∀ d ∈ rest.head?, isSpace d = true) (n : Numeral) (ns : List Numeral)
    (hfits : ∀ x ∈ n.value :: ns.map Numeral.value, FitsInt x) :
    Integers (separated c n ns ++ rest) (n.value :: ns.map Numeral.value ++ xs) := by
  induction ns generalizing n with
  | nil =>
    rw [TextInput.separated, List.flatMap_nil, List.append_nil]
    exact h.cons_text n (hfits _ List.mem_cons_self) hrest
  | cons m ns ih =>
    obtain ⟨hn, hns⟩ := List.forall_mem_cons.mp hfits
    rw [separated_cons, List.append_assoc]
    refine Integers.cons_text ((ih m hns).cons_space hc) n hn ?_
    intro d hd
    obtain rfl := Option.some_inj.mp hd
    exact hc

/-- Cutting at the separators gives the numerals. -/
theorem splitOn_separated (n : Numeral) (ns : List Numeral) :
    (TextInput.separated c n ns).splitOn c = n.text :: ns.map Numeral.text := by
  induction ns generalizing n with
  | nil =>
    rw [TextInput.separated, List.flatMap_nil, List.append_nil]
    exact List.splitOn_eq_singleton (notMem_text_of_isSpace hc n)
  | cons m ns ih =>
    rw [separated_cons, List.splitOn_append_cons_self_of_not_mem (notMem_text_of_isSpace hc n), ih,
      List.map_cons]

end Separated

/-- **A text of integers** holds just these. -/
theorem Integers.scansAll {t : Text} {xs : List ℤ} (h : Integers t xs) : ScansAll t xs := by
  have hdrop : ∀ {gap : Text} (rest : Text), (∀ c ∈ gap, isSpace c = true) →
      (gap ++ rest).dropWhile isSpace = rest.dropWhile isSpace :=
    fun rest hgap ↦ List.dropWhile_append_of_pos hgap
  induction h with
  | @space gap hgap =>
    rw [← scansAll_dropWhile_iff, ← List.append_nil gap, hdrop [] hgap]
    rfl
  | @number gap rest xs hgap n hfits hrest h ih =>
    rw [← scansAll_dropWhile_iff, hdrop _ hgap, scansAll_dropWhile_iff]
    exact ⟨rest, scanDecimal_text n fun c hc ↦ isDigit_of_isSpace (hrest c hc), ih⟩

theorem notMem_separated {c d : Char} (hd : isSpace d = true) (hdc : d ≠ c) (n : Numeral)
    (ns : List Numeral) : d ∉ separated c n ns := by
  induction ns generalizing n with
  | nil =>
    rw [separated, List.flatMap_nil, List.append_nil]
    exact notMem_text_of_isSpace hd n
  | cons m ns ih =>
    rw [separated_cons]
    intro hmem
    rcases List.mem_append.mp hmem with htext | hrest
    · exact notMem_text_of_isSpace hd n htext
    · rcases List.mem_cons.mp hrest with heq | hrest
      · exact hdc heq
      · exact ih m hrest

/-! ## Lines and pieces -/

/-- `ReadString` of a Go reader: the text up to the delimiter and with it, and what comes after. -/
def readString (delim : Char) : Text → Text × Text
  | [] => ([], [])
  | c :: t => if c = delim then ([c], t) else (c :: (readString delim t).1, (readString delim t).2)

/-- `strings.Replace(t, "c", "", -1)`. -/
def replaceAll (c : Char) (t : Text) : Text := t.filter fun d ↦ d ≠ c

/-- The value of `strconv.Atoi` where its error is ignored: a text that is no numeral counts as
zero. The numbers beyond 64 bits, of which it keeps the nearest, stay as they are here. -/
def atoi (t : Text) : ℤ :=
  let (sign, digits) := splitSign t
  if digits ≠ [] ∧ digits.all Char.isDigit then sign.apply (Nat.ofDigitChars 10 digits 0) else 0

/-- **`Atoi` reads a numeral** that is all there is. -/
theorem atoi_text (n : Numeral) : atoi n.text = n.value := by
  have hsplit := n.splitSign_text []
  rw [List.append_nil, List.append_nil] at hsplit
  rw [atoi, hsplit]
  exact if_pos ⟨n.ne_nil, List.all_eq_true.mpr n.isDigit⟩

variable {delim : Char} {line : Text}

theorem readString_append (h : delim ∉ line) (rest : Text) :
    readString delim (line ++ delim :: rest) = (line ++ [delim], rest) := by
  induction line with
  | nil => simp [readString]
  | cons c line ih =>
    obtain ⟨hc, hline⟩ := List.ne_and_not_mem_of_not_mem_cons h
    rw [List.cons_append, readString, if_neg (Ne.symm hc), ih hline, List.cons_append]

theorem readString_of_notMem (h : delim ∉ line) : readString delim line = (line, []) := by
  induction line with
  | nil => rfl
  | cons c line ih =>
    obtain ⟨hc, hline⟩ := List.ne_and_not_mem_of_not_mem_cons h
    rw [readString, if_neg (Ne.symm hc), ih hline]

theorem replaceAll_append (t t' : Text) (c : Char) :
    replaceAll c (t ++ t') = replaceAll c t ++ replaceAll c t' := List.filter_append ..

theorem replaceAll_of_notMem {c : Char} (h : c ∉ line) : replaceAll c line = line := by
  rw [replaceAll, List.filter_eq_self]
  intro d hd
  exact decide_eq_true fun heq ↦ h (heq ▸ hd)

/-- **A line without its end**, whether it is the last one or not. -/
theorem readString_line (h : delim ∉ line) {rest : Text} (hrest : ∀ c ∈ rest.head?, c = delim) :
    replaceAll delim (readString delim (line ++ rest)).1 = line ∧
      (readString delim (line ++ rest)).2 = rest.tail := by
  cases rest with
  | nil =>
    rw [List.append_nil, readString_of_notMem h]
    exact ⟨replaceAll_of_notMem h, rfl⟩
  | cons c rest =>
    obtain rfl := hrest c rfl
    rw [readString_append h, replaceAll_append, replaceAll_of_notMem h]
    exact ⟨by simp [replaceAll], rfl⟩

end EntangledMPI.TextInput
