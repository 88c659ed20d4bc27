import Mathlib.Data.Nat.Notation
import Mathlib.Logic.Basic

/-!
# Loops with a condition

`whileLoop cond step fuel s` runs `while (cond) step` on the state `s`, where a turn may end the
whole run with an error. It gives `none` if the condition still holds after `fuel` turns.
-/

namespace EntangledMPI.WhileLoop

variable {σ ε : Type*}

/-- `while (cond) step`, for at most `fuel` turns. -/
def whileLoop (cond : σ → Bool) (step : σ → Except ε σ) : ℕ → σ → Except ε (Option σ)
  | 0, s => .ok (if cond s then none else some s)
  | fuel + 1, s => if cond s then (step s).bind (whileLoop cond step fuel) else .ok (some s)

variable {cond : σ → Bool} {step : σ → Except ε σ} {fuel : ℕ}

theorem whileLoop_of_not {s : σ} (h : cond s = false) (fuel : ℕ) :
    whileLoop cond step fuel s = .ok (some s) := by
  cases fuel <;> simp [whileLoop, h]

theorem whileLoop_succ_of_cond {s : σ} (h : cond s = true) :
    whileLoop cond step (fuel + 1) s = (step s).bind (whileLoop cond step fuel) := if_pos h

/-- **The rule of total correctness.** Turns that keep the invariant and lower the variant end the
loop within as many turns as the variant is at the start. -/
theorem whileLoop_rule (inv : σ → Prop) (variant : σ → ℕ)
    (h : ∀ s, inv s → cond s = true →
      ∃ s', step s = .ok s' ∧ inv s' ∧ variant s' < variant s)
    {s : σ} (hs : inv s) (hfuel : variant s ≤ fuel) :
    ∃ t, whileLoop cond step fuel s = .ok (some t) ∧ inv t ∧ cond t = false := by
  induction fuel generalizing s with
  | zero =>
    cases hcond : cond s with
    | false => exact ⟨s, whileLoop_of_not hcond 0, hs, hcond⟩
    | true =>
      obtain ⟨s', -, -, hlt⟩ := h s hs hcond
      omega
  | succ fuel ih =>
    cases hcond : cond s with
    | false => exact ⟨s, whileLoop_of_not hcond _, hs, hcond⟩
    | true =>
      obtain ⟨s', hstep, hs', hlt⟩ := h s hs hcond
      rw [whileLoop_succ_of_cond hcond, hstep]
      exact ih hs' (by omega)

/-- **The rule of partial correctness.** -/
theorem whileLoop_rule_of_ok (inv : σ → Prop)
    (h : ∀ s s', inv s → cond s = true → step s = .ok s' → inv s') {s t : σ} (hs : inv s)
    (hloop : whileLoop cond step fuel s = .ok (some t)) : inv t ∧ cond t = false := by
  induction fuel generalizing s with
  | zero =>
    cases hcond : cond s with
    | false =>
      rw [whileLoop_of_not hcond] at hloop
      obtain rfl := Option.some_inj.mp (Except.ok.inj hloop)
      exact ⟨hs, hcond⟩
    | true => simp [whileLoop, hcond] at hloop
  | succ fuel ih =>
    cases hcond : cond s with
    | false =>
      rw [whileLoop_of_not hcond] at hloop
      obtain rfl := Option.some_inj.mp (Except.ok.inj hloop)
      exact ⟨hs, hcond⟩
    | true =>
      rw [whileLoop_succ_of_cond hcond] at hloop
      cases hstep : step s with
      | error e => simp [hstep, Except.bind] at hloop
      | ok s' =>
        rw [hstep] at hloop
        exact ih (h s s' hs hcond hstep) hloop

end EntangledMPI.WhileLoop
