import Mathlib.Logic.Function.Basic
import Mathlib.Logic.Relation

/-!
# Deterministic agents and buffered channels

Agents act one at a time, in any order. An action depends on the state of its agent alone, sends are
buffered, and every channel is a queue with one writer and one reader. Steps of two agents therefore
commute, and the usual facts about confluent systems follow: runs join again, and a run that can go
no further ends where every other such run does.

## Main results

- `strip`, `confluent`, `terminal_unique`: the order of the steps does not matter
- `state_rule`: what actions keep of one state, runs keep of all
- `simulation_rule`: a relation that every step out of it leads back to covers all runs
-/

namespace EntangledMPI.MessageNetwork

/-- What an agent does next. -/
inductive Action (κ α σ : Type*)
  | halt
  | internal (next : σ)
  | send (c : κ) (a : α) (next : σ)
  | recv (c : κ) (next : α → σ)

/-- Agents `ι` with states `σ`, channels `κ`, messages `α`. -/
structure Network (ι κ α σ : Type*) where
  act : ι → σ → Action κ α σ
  writer : κ → ι
  reader : κ → ι
  writer_eq : ∀ {i s c a t}, act i s = .send c a t → writer c = i
  reader_eq : ∀ {i s c k}, act i s = .recv c k → reader c = i

@[ext] structure Config (ι κ α σ : Type*) where
  state : ι → σ
  queue : κ → List α

namespace Network

variable {ι κ α σ : Type*} [DecidableEq κ] (N : Network ι κ α σ)

/-! ## What an action does to the channels -/

/-- What agent `i` does in the state `s` to the queues, and its state afterwards. -/
inductive Effect (i : ι) (s : σ) : (κ → List α) → σ → (κ → List α) → Prop
  | internal {q : κ → List α} {t : σ} (h : N.act i s = .internal t) : Effect i s q t q
  | send {q : κ → List α} {c : κ} {a : α} {t : σ} (h : N.act i s = .send c a t) :
      Effect i s q t (Function.update q c (q c ++ [a]))
  | recv {q : κ → List α} {c : κ} {k : α → σ} {a : α} {rest : List α} (h : N.act i s = .recv c k)
      (hq : q c = a :: rest) : Effect i s q (k a) (Function.update q c rest)

variable {N} {i j : ι}

section

variable {s t u : σ} {q q' : κ → List α} {c : κ} {a : α} {k : α → σ}

theorem Effect.of_internal (h : N.Effect i s q t q') (hact : N.act i s = .internal u) :
    t = u ∧ q' = q := by
  cases h with
  | internal h => exact ⟨Action.internal.inj (h.symm.trans hact), rfl⟩
  | send h => exact absurd (h.symm.trans hact) (by simp)
  | recv h => exact absurd (h.symm.trans hact) (by simp)

theorem Effect.of_send (h : N.Effect i s q t q') (hact : N.act i s = .send c a u) :
    t = u ∧ q' = Function.update q c (q c ++ [a]) := by
  cases h with
  | internal h => exact absurd (h.symm.trans hact) (by simp)
  | send h =>
    obtain ⟨rfl, rfl, rfl⟩ := Action.send.inj (h.symm.trans hact)
    exact ⟨rfl, rfl⟩
  | recv h => exact absurd (h.symm.trans hact) (by simp)

theorem Effect.of_recv (h : N.Effect i s q t q') (hact : N.act i s = .recv c k) :
    ∃ a rest, q c = a :: rest ∧ t = k a ∧ q' = Function.update q c rest := by
  cases h with
  | internal h => exact absurd (h.symm.trans hact) (by simp)
  | send h => exact absurd (h.symm.trans hact) (by simp)
  | recv h hq =>
    obtain ⟨rfl, rfl⟩ := Action.recv.inj (h.symm.trans hact)
    exact ⟨_, _, hq, rfl, rfl⟩

theorem Effect.ne_halt (h : N.Effect i s q t q') : N.act i s ≠ .halt := by
  intro hact
  cases h with
  | internal h => exact absurd (h.symm.trans hact) (by simp)
  | send h => exact absurd (h.symm.trans hact) (by simp)
  | recv h => exact absurd (h.symm.trans hact) (by simp)

theorem Effect.unique {t₁ t₂ : σ} {q₁ q₂ : κ → List α} (h : N.Effect i s q t₁ q₁)
    (h' : N.Effect i s q t₂ q₂) : t₁ = t₂ ∧ q₁ = q₂ := by
  cases h with
  | internal h =>
    obtain ⟨rfl, rfl⟩ := h'.of_internal h
    exact ⟨rfl, rfl⟩
  | send h =>
    obtain ⟨rfl, rfl⟩ := h'.of_send h
    exact ⟨rfl, rfl⟩
  | recv h hq =>
    obtain ⟨a, rest, hq', rfl, rfl⟩ := h'.of_recv h
    obtain ⟨rfl, rfl⟩ := List.cons.inj (hq.symm.trans hq')
    exact ⟨rfl, rfl⟩

end

theorem Effect.send_recv {s s' t : σ} {q : κ → List α} {c c' : κ} {a b : α} {k : α → σ}
    {rest : List α} (hs : N.act i s = .send c a t) (hr : N.act j s' = .recv c' k)
    (hq : q c' = b :: rest) : ∃ q',
      N.Effect j s' (Function.update q c (q c ++ [a])) (k b) q' ∧
        N.Effect i s (Function.update q c' rest) t q' := by
  by_cases hc : c = c'
  · subst hc
    refine ⟨Function.update q c (rest ++ [a]), ?_, ?_⟩
    · have h := Effect.recv (q := Function.update q c (q c ++ [a])) hr
        (by rw [Function.update_self, hq, List.cons_append])
      rwa [Function.update_idem] at h
    · have h := Effect.send (q := Function.update q c rest) hs
      rwa [Function.update_idem, Function.update_self] at h
  · refine ⟨Function.update (Function.update q c (q c ++ [a])) c' rest, ?_, ?_⟩
    · exact .recv hr (by rw [Function.update_of_ne (Ne.symm hc), hq])
    · have h := Effect.send (q := Function.update q c' rest) hs
      rwa [Function.update_of_ne hc, Function.update_comm (Ne.symm hc)] at h

/-- Steps of two agents commute. -/
theorem Effect.diamond {s s' t t' : σ} {q q₁ q₂ : κ → List α} (hij : i ≠ j)
    (h : N.Effect i s q t q₁) (h' : N.Effect j s' q t' q₂) :
    ∃ q', N.Effect j s' q₁ t' q' ∧ N.Effect i s q₂ t q' := by
  cases h with
  | internal h => exact ⟨q₂, h', .internal h⟩
  | @send c a t h =>
    cases h' with
    | internal h' => exact ⟨_, .internal h', .send h⟩
    | @send c' a' t' h' =>
      have hc : c ≠ c' := fun hc ↦ hij ((N.writer_eq h).symm.trans (hc ▸ N.writer_eq h'))
      refine ⟨_, .send h', ?_⟩
      have hsend := Effect.send (q := Function.update q c' (q c' ++ [a'])) h
      rw [Function.update_of_ne hc, Function.update_comm (Ne.symm hc)] at hsend
      rwa [Function.update_of_ne (Ne.symm hc)]
    | recv h' hq => exact Effect.send_recv h h' hq
  | @recv c k a rest h hq =>
    cases h' with
    | internal h' => exact ⟨_, .internal h', .recv h hq⟩
    | send h' =>
      obtain ⟨q', hrecv, hsend⟩ := Effect.send_recv h' h hq
      exact ⟨q', hsend, hrecv⟩
    | @recv c' k' a' rest' h' hq' =>
      have hc : c ≠ c' := fun hc ↦ hij ((N.reader_eq h).symm.trans (hc ▸ N.reader_eq h'))
      refine ⟨_, .recv h' (by rw [Function.update_of_ne (Ne.symm hc), hq']), ?_⟩
      have hrecv := Effect.recv (q := Function.update q c' rest') h
        (by rw [Function.update_of_ne hc, hq])
      rwa [Function.update_comm (Ne.symm hc)] at hrecv

/-! ## Steps -/

section

variable [DecidableEq ι]

variable (N) in
/-- One step of agent `i`. -/
def Step (i : ι) (x y : Config ι κ α σ) : Prop :=
  ∃ t, N.Effect i (x.state i) x.queue t y.queue ∧ y.state = Function.update x.state i t

variable (N) in
/-- One step of some agent. -/
def Moves (x y : Config ι κ α σ) : Prop := ∃ i, N.Step i x y

variable (N) in
def Runs : Config ι κ α σ → Config ι κ α σ → Prop := Relation.ReflTransGen N.Moves

variable (N) in
/-- Nobody can move. -/
def Terminal (x : Config ι κ α σ) : Prop := ∀ y, ¬N.Moves x y

variable {x y z : Config ι κ α σ}

theorem Step.unique (h : N.Step i x y) (h' : N.Step i x z) : y = z := by
  obtain ⟨t, heffect, hstate⟩ := h
  obtain ⟨t', heffect', hstate'⟩ := h'
  obtain ⟨rfl, hqueue⟩ := heffect.unique heffect'
  exact Config.ext (hstate.trans hstate'.symm) hqueue

theorem Step.diamond (hij : i ≠ j) (h : N.Step i x y) (h' : N.Step j x z) :
    ∃ w, N.Step j y w ∧ N.Step i z w := by
  obtain ⟨t, heffect, hstate⟩ := h
  obtain ⟨t', heffect', hstate'⟩ := h'
  obtain ⟨q, hj, hi⟩ := heffect.diamond hij heffect'
  refine ⟨⟨Function.update y.state j t', q⟩, ⟨t', ?_, rfl⟩, ⟨t, ?_, ?_⟩⟩
  · rwa [hstate, Function.update_of_ne (Ne.symm hij)]
  · rwa [hstate', Function.update_of_ne hij]
  · rw [hstate, hstate', Function.update_comm hij]

/-! ## Runs -/

/-- A step beside a run is either one of its steps or can be made after it. -/
theorem strip (h : N.Step i x y) (hrun : N.Runs x z) :
    N.Runs y z ∨ ∃ w, N.Runs y w ∧ N.Step i z w := by
  induction hrun using Relation.ReflTransGen.head_induction_on generalizing y with
  | refl => exact Or.inr ⟨y, .refl, h⟩
  | @head x x' hstep hrest ih =>
    obtain ⟨j, hj⟩ := hstep
    by_cases hij : i = j
    · subst hij
      rw [h.unique hj]
      exact Or.inl hrest
    · obtain ⟨w, hyw, hxw⟩ := h.diamond hij hj
      rcases ih hxw with hwz | ⟨v, hwv, hzv⟩
      · exact Or.inl (.head ⟨j, hyw⟩ hwz)
      · exact Or.inr ⟨v, .head ⟨j, hyw⟩ hwv, hzv⟩

/-- **Runs join again.** -/
theorem confluent (hy : N.Runs x y) (hz : N.Runs x z) : ∃ w, N.Runs y w ∧ N.Runs z w := by
  refine Relation.church_rosser ?_ hy hz
  intro a b c hb hc
  obtain ⟨i, hi⟩ := hb
  obtain ⟨j, hj⟩ := hc
  by_cases hij : i = j
  · subst hij
    rw [hi.unique hj]
    exact ⟨c, .refl, .refl⟩
  · obtain ⟨w, hbw, hcw⟩ := hi.diamond hij hj
    exact ⟨w, .single ⟨j, hbw⟩, .single ⟨i, hcw⟩⟩

theorem Terminal.eq (h : N.Terminal x) (hrun : N.Runs x y) : y = x := by
  rcases Relation.ReflTransGen.cases_head hrun with rfl | ⟨z, hstep, -⟩
  · rfl
  · exact absurd hstep (h z)

/-- **Runs that can go no further end in the same configuration.** -/
theorem terminal_unique (hy : N.Runs x y) (hz : N.Runs x z) (hty : N.Terminal y)
    (htz : N.Terminal z) : y = z := by
  obtain ⟨w, hyw, hzw⟩ := confluent hy hz
  rw [← hty.eq hyw, htz.eq hzw]

theorem Step.mem_run (h : N.Step i x y) (hrun : Relation.TransGen (N.Step i) x z) :
    N.Runs y z := by
  obtain ⟨y', hstep, hrest⟩ := Relation.TransGen.head'_iff.mp hrun
  rw [h.unique hstep]
  exact hrest.lift id fun _ _ hstep ↦ ⟨i, hstep⟩

theorem runs_of_transGen (h : Relation.TransGen (N.Step i) x y) : N.Runs x y :=
  (h.to_reflTransGen).lift id fun _ _ hstep ↦ ⟨i, hstep⟩

theorem Runs.act {s : σ} {q : κ → List α} (hrun : N.Runs x y) (i : ι)
    (heffect : N.Effect i (y.state i) y.queue s q) : N.Runs x ⟨Function.update y.state i s, q⟩ :=
  hrun.tail ⟨i, s, heffect, rfl⟩

/-- What every action keeps of the state of its agent, every run keeps of the states of all. -/
theorem state_rule (related : σ → σ → Prop) (hrefl : ∀ s, related s s)
    (htrans : ∀ {s t u}, related s t → related t u → related s u)
    (hact : ∀ {i s q t q'}, N.Effect i s q t q' → related s t) (hrun : N.Runs x y) (i : ι) :
    related (x.state i) (y.state i) := by
  induction hrun with
  | refl => exact hrefl _
  | tail _ hmove ih =>
    obtain ⟨j, t, heffect, hstate⟩ := hmove
    rw [hstate]
    by_cases hij : i = j
    · subst hij
      rw [Function.update_self]
      exact htrans ih (hact heffect)
    · rwa [Function.update_of_ne hij]

/-! ## Simulation -/

/-- If every step out of a related configuration can be completed to a related one, every run can
be. -/
theorem simulation_rule {ι' κ' σ' : Type*} [DecidableEq ι'] [DecidableEq κ']
    {M : Network ι' κ' α σ'} {related : Config ι' κ' α σ' → Config ι κ α σ → Prop}
    (hstep : ∀ P x y i, related P x → N.Step i x y →
      ∃ P' z, M.Runs P P' ∧ N.Runs y z ∧ related P' z)
    {P : Config ι' κ' α σ'} (hx : related P x) (hrun : N.Runs x y) :
    ∃ P' z, M.Runs P P' ∧ N.Runs y z ∧ related P' z := by
  induction hrun with
  | refl => exact ⟨P, x, .refl, .refl, hx⟩
  | tail _ hmove ih =>
    obtain ⟨i, hi⟩ := hmove
    obtain ⟨P', z, hP, hz, hrelated⟩ := ih
    rcases strip hi hz with hyz | ⟨w, hyw, hzw⟩
    · exact ⟨P', z, hP, hyz, hrelated⟩
    · obtain ⟨P'', v, hP', hwv, hrelated'⟩ := hstep P' z w i hrelated hzw
      exact ⟨P'', v, hP.trans hP', hyw.trans hwv, hrelated'⟩

end

end Network

end EntangledMPI.MessageNetwork
