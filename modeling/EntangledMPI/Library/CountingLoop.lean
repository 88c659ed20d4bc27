import Mathlib.Data.Nat.Notation
import Mathlib.Logic.Basic

/-!
# Counting loops that may fail

`loop step n s` runs `for (i = 0; i < n; i++)` on the state `s`, where a turn may end the whole run
with an error. `inv i` is what holds before turn `i`; the rules ask for one turn and give the loop.
-/

namespace EntangledMPI.CountingLoop

variable {σ ε : Type*}

/-- `for (i = 0; i < n; i++) step`. -/
def loop (step : σ → ℕ → Except ε σ) (n : ℕ) (s : σ) : Except ε σ := (List.range n).foldlM step s

variable {step : σ → ℕ → Except ε σ} {n : ℕ}

theorem loop_succ (s : σ) : loop step (n + 1) s = (loop step n s).bind fun t ↦ step t n := by
  rw [loop, loop, List.range_succ, List.foldlM_append]
  simp [List.foldlM_cons, List.foldlM_nil]
  rfl

theorem loop_congr {step' : σ → ℕ → Except ε σ} (h : ∀ i < n, ∀ s, step s i = step' s i) (s : σ) :
    loop step n s = loop step' n s := by
  induction n with
  | zero => rfl
  | succ n ih =>
    rw [loop_succ, loop_succ, ih fun i hi ↦ h i (by omega)]
    exact congrArg _ (funext (h n (by omega)))

/-- **The rule of a loop that fails at its first bad turn.** While the turns are good they carry the
invariant on; if all are, the loop ends with it, and otherwise it ends with the error. -/
theorem loop_rule (inv : ℕ → σ → Prop) (good : ℕ → Prop) [DecidablePred good] {e : ε}
    (h : ∀ i < n, ∀ s, inv i s →
      if good i then ∃ s', step s i = .ok s' ∧ inv (i + 1) s' else step s i = .error e)
    {s : σ} (hs : inv 0 s) :
    if ∀ i < n, good i then ∃ s', loop step n s = .ok s' ∧ inv n s'
    else loop step n s = .error e := by
  induction n with
  | zero =>
    rw [if_pos fun i hi ↦ absurd hi (Nat.not_lt_zero i)]
    exact ⟨s, rfl, hs⟩
  | succ n ih =>
    have ih := ih fun i hi ↦ h i (by omega)
    rw [loop_succ]
    by_cases hall : ∀ i < n, good i
    · rw [if_pos hall] at ih
      obtain ⟨t, ht, hinv⟩ := ih
      have hturn := h n (by omega) t hinv
      rw [ht]
      by_cases hgood : good n
      · rw [if_pos (Nat.forall_lt_succ_right.mpr ⟨hall, hgood⟩)]
        rwa [if_pos hgood] at hturn
      · rw [if_neg fun hsucc ↦ hgood (hsucc n (by omega))]
        rwa [if_neg hgood] at hturn
    · rw [if_neg hall] at ih
      rw [if_neg fun hsucc ↦ hall fun i hi ↦ hsucc i (by omega), ih]
      rfl

/-- **The rule of a loop that never fails.** -/
theorem loop_rule_ok (inv : ℕ → σ → Prop)
    (h : ∀ i < n, ∀ s, inv i s → ∃ s', step s i = .ok s' ∧ inv (i + 1) s') {s : σ} (hs : inv 0 s) :
    ∃ s', loop step n s = .ok s' ∧ inv n s' := by
  induction n with
  | zero => exact ⟨s, rfl, hs⟩
  | succ n ih =>
    obtain ⟨t, ht, hinv⟩ := ih fun i hi ↦ h i (by omega)
    rw [loop_succ, ht]
    exact h n (by omega) t hinv

/-- **The rule of a loop that has returned.** -/
theorem loop_rule_of_ok (inv : ℕ → σ → Prop)
    (h : ∀ i < n, ∀ s s', inv i s → step s i = .ok s' → inv (i + 1) s') {s t : σ} (hs : inv 0 s)
    (hloop : loop step n s = .ok t) : inv n t := by
  induction n generalizing t with
  | zero =>
    obtain rfl := Except.ok.inj hloop
    exact hs
  | succ n ih =>
    rw [loop_succ] at hloop
    cases hbefore : loop step n s with
    | error e =>
      rw [hbefore] at hloop
      exact absurd hloop (by simp [Except.bind])
    | ok u =>
      rw [hbefore] at hloop
      exact h n (by omega) u t (ih (fun i hi ↦ h i (by omega)) hbefore) hloop

/-- A loop ends with the error of its first turn that has one. -/
theorem loop_eq_error {k : ℕ} {s t : σ} {e : ε} (hk : k < n) (hloop : loop step k s = .ok t)
    (hstep : step t k = .error e) : loop step n s = .error e := by
  induction n with
  | zero => exact absurd hk (Nat.not_lt_zero k)
  | succ n ih =>
    rw [loop_succ]
    rcases Nat.lt_succ_iff_lt_or_eq.mp hk with hlt | rfl
    · rw [ih hlt]
      rfl
    · rw [hloop]
      exact hstep

theorem loop_ne_error {e : ε} (h : ∀ i < n, ∀ s, step s i ≠ .error e) (s : σ) :
    loop step n s ≠ .error e := by
  induction n with
  | zero => exact fun h ↦ absurd h (by simp [loop, pure, Except.pure])
  | succ n ih =>
    have ih := ih fun i hi ↦ h i (by omega)
    rw [loop_succ]
    cases hloop : loop step n s with
    | error e' =>
      rw [hloop] at ih
      exact fun herror ↦ ih (congrArg Except.error (Except.error.inj herror))
    | ok t => exact h n (by omega) t

/-! ## Two computations side by side -/

section SameOutcome

variable {τ σ' τ' : Type*} {R : σ → τ → Prop} {R' : σ' → τ' → Prop}

/-- Both fail with the same error, or both return and the results are related. -/
inductive SameOutcome (R : σ → τ → Prop) : Except ε σ → Except ε τ → Prop
  | ok {s : σ} {t : τ} (h : R s t) : SameOutcome R (.ok s) (.ok t)
  | error (e : ε) : SameOutcome R (.error e) (.error e)

theorem SameOutcome.bind {x : Except ε σ} {y : Except ε τ} (h : SameOutcome R x y)
    {f : σ → Except ε σ'} {g : τ → Except ε τ'}
    (hfg : ∀ s t, R s t → SameOutcome R' (f s) (g t)) : SameOutcome R' (x.bind f) (y.bind g) := by
  cases h with
  | ok h => exact hfg _ _ h
  | error e => exact .error e

theorem SameOutcome.bind_same {x : Except ε σ} {f : σ → Except ε σ'} {g : σ → Except ε τ'}
    (hfg : ∀ s, SameOutcome R' (f s) (g s)) : SameOutcome R' (x.bind f) (x.bind g) := by
  cases x with
  | ok s => exact hfg s
  | error e => exact .error e

theorem SameOutcome.exists_right {x : Except ε σ} {y : Except ε τ} (h : SameOutcome R x y) {s : σ}
    (hx : x = .ok s) : ∃ t, y = .ok t ∧ R s t := by
  cases h with
  | ok h =>
    obtain rfl := Except.ok.inj hx
    exact ⟨_, rfl, h⟩
  | error e => exact absurd hx (by simp)

theorem SameOutcome.exists_left {x : Except ε σ} {y : Except ε τ} (h : SameOutcome R x y) {t : τ}
    (hy : y = .ok t) : ∃ s, x = .ok s ∧ R s t := by
  cases h with
  | ok h =>
    obtain rfl := Except.ok.inj hy
    exact ⟨_, rfl, h⟩
  | error e => exact absurd hy (by simp)

theorem SameOutcome.eq {x y : Except ε σ} (h : SameOutcome Eq x y) : x = y := by
  cases h with
  | ok h => rw [h]
  | error e => rfl

/-- **The rule of two loops**: turns that keep the states related keep the loops so. -/
theorem SameOutcome.loop {step' : τ → ℕ → Except ε τ} (R : ℕ → σ → τ → Prop)
    (h : ∀ i < n, ∀ s t, R i s t → SameOutcome (R (i + 1)) (step s i) (step' t i)) {s : σ} {t : τ}
    (hst : R 0 s t) :
    SameOutcome (R n) (CountingLoop.loop step n s) (CountingLoop.loop step' n t) := by
  induction n with
  | zero => exact .ok hst
  | succ n ih =>
    rw [loop_succ, loop_succ]
    exact (ih fun i hi ↦ h i (by omega)).bind (h n (by omega))

end SameOutcome

end EntangledMPI.CountingLoop
