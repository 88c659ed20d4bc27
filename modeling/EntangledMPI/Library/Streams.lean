import Mathlib.Data.List.Infix
import Mathlib.Logic.Function.Basic
import Mathlib.Logic.Relation

/-!
# Deterministic agents with streams

Every agent appends to streams of its own. It can read any stream at a position it names, once there
is something at that position. Nothing is taken out of a stream, so what one agent may do is not
affected by what the others do first.

An agent is deterministic up to what it reads, and what it reads at a position is always the same.
So one can look at what every agent has done, as a list of events, instead of a configuration: an
agent that has fallen behind can only do what a faster run has seen it do, and two runs never
disagree about an event of an agent, only about how far they have got. That is what replicas of an
agent need: each of them goes through a part of one common history.

## Main results

- `Reached.runs`: histories that are reached are those of a run
- `Reached.extend`: what an agent does that may have fallen behind, some run has seen
- `Reached.join`: two runs have a common continuation
- `Reached.covered`: where nothing more can be done, everything has been done
-/

namespace EntangledMPI.Streams

/-- What an agent does next. -/
inductive Action (κ α σ : Type*)
  | halt
  | internal (next : σ)
  | write (c : κ) (a : α) (next : σ)
  | read (c : κ) (k : ℕ) (next : α → σ)

/-- What an agent has done in one step. -/
inductive Event (κ α : Type*)
  | internal
  | write (c : κ) (a : α)
  | read (c : κ) (k : ℕ) (a : α)

/-- Agents `ι` with states `σ`, streams `κ` of elements `α`. -/
structure Network (ι κ α σ : Type*) where
  act : ι → σ → Action κ α σ
  writer : κ → ι
  writer_eq : ∀ {i s c a t}, act i s = .write c a t → writer c = i

@[ext] structure Config (ι κ α σ : Type*) where
  state : ι → σ
  stream : κ → List α

section Elements

variable {κ α : Type*} [DecidableEq κ]

/-- The elements written to a stream. -/
def written (c : κ) (h : List (Event κ α)) : List α :=
  h.filterMap fun e ↦
    match e with
    | .write c' a => if c' = c then some a else none
    | _ => none

/-- The streams after an event. -/
def Event.apply (e : Event κ α) (streams : κ → List α) (c : κ) : List α :=
  streams c ++ written c [e]

variable {c c' : κ} {a : α} {k : ℕ} {h h' : List (Event κ α)}

@[simp] theorem written_nil : written c ([] : List (Event κ α)) = [] := rfl

@[simp] theorem written_append : written c (h ++ h') = written c h ++ written c h' :=
  List.filterMap_append

@[simp] theorem written_internal : written c [(.internal : Event κ α)] = [] := rfl

@[simp] theorem written_read : written c [.read c' k a] = [] := rfl

@[simp] theorem written_write_self : written c [.write c a] = [a] := by simp [written]

theorem written_write_of_ne (hc : c' ≠ c) : written c [.write c' a] = [] := by simp [written, hc]

theorem written_mono (hle : h <+: h') : written c h <+: written c h' := hle.filterMap _

theorem getElem?_written (hle : h <+: h') (ha : (written c h)[k]? = some a) :
    (written c h')[k]? = some a := by
  obtain ⟨rest, hrest⟩ := written_mono (c := c) hle
  rw [← hrest, List.getElem?_append_left (List.getElem?_eq_some_iff.mp ha).1, ha]

end Elements

/-! ## One agent -/

/-- An action allows an event, and the event leads to a state. -/
inductive Action.Allows {κ α σ : Type*} : Action κ α σ → Event κ α → σ → Prop
  | internal {t : σ} : Allows (.internal t) .internal t
  | write {c : κ} {a : α} {t : σ} : Allows (.write c a t) (.write c a) t
  | read {c : κ} {k : ℕ} {next : α → σ} {a : α} : Allows (.read c k next) (.read c k a) (next a)

theorem Action.Allows.state_unique {κ α σ : Type*} {A : Action κ α σ} {e : Event κ α} {t u : σ}
    (ht : A.Allows e t) (hu : A.Allows e u) : t = u := by
  obtain _ | _ | _ := ht <;> obtain _ | _ | _ := hu <;> rfl

/-- Only the element of a read is left open. -/
theorem Action.Allows.eq_or_read {κ α σ : Type*} {A : Action κ α σ} {e e' : Event κ α} {t t' : σ}
    (he : A.Allows e t) (he' : A.Allows e' t') :
    e = e' ∨ ∃ c k a a', e = .read c k a ∧ e' = .read c k a' := by
  obtain _ | _ | _ := he <;> obtain _ | _ | _ := he'
  · exact Or.inl rfl
  · exact Or.inl rfl
  · exact Or.inr ⟨_, _, _, _, rfl, rfl⟩

theorem Network.writer_of_allows {ι κ α σ : Type*} {N : Network ι κ α σ} {i : ι} {s t : σ} {c : κ}
    {a : α} (he : (N.act i s).Allows (.write c a) t) : N.writer c = i := by
  generalize hA : N.act i s = A at he
  obtain _ | _ | _ := he
  exact N.writer_eq hA

namespace Network

variable {ι κ α σ : Type*} (N : Network ι κ α σ)

/-- The events take agent `i` from one state to another. -/
inductive Follows (i : ι) (s : σ) : List (Event κ α) → σ → Prop
  | nil : Follows i s [] s
  | concat {h : List (Event κ α)} {e : Event κ α} {t u : σ} (hs : Follows i s h t)
      (he : (N.act i t).Allows e u) : Follows i s (h ++ [e]) u

section

variable {N} {i : ι} {s t u : σ} {h h' : List (Event κ α)} {e : Event κ α}

theorem Follows.eq_of_nil (hu : N.Follows i s [] u) : u = s := by
  generalize hg : ([] : List (Event κ α)) = g at hu
  obtain _ | ⟨-, -⟩ := hu
  · rfl
  · exact absurd hg (by simp)

theorem Follows.of_concat (hu : N.Follows i s (h ++ [e]) u) :
    ∃ t, N.Follows i s h t ∧ (N.act i t).Allows e u := by
  generalize hg : h ++ [e] = g at hu
  obtain _ | ⟨hs, he⟩ := hu
  · exact absurd hg (by simp)
  · obtain ⟨rfl, rfl⟩ := List.append_singleton_inj.mp hg
    exact ⟨_, hs, he⟩

theorem Follows.unique (ht : N.Follows i s h t) (hu : N.Follows i s h u) : t = u := by
  induction ht generalizing u with
  | nil => exact hu.eq_of_nil.symm
  | concat _ he ih =>
    obtain ⟨t', ht', he'⟩ := hu.of_concat
    obtain rfl := ih ht'
    exact he.state_unique he'

theorem Follows.of_append (hu : N.Follows i s (h ++ h') u) : ∃ t, N.Follows i s h t := by
  induction h' using List.reverseRecOn generalizing u with
  | nil => exact ⟨u, by rwa [List.append_nil] at hu⟩
  | append_singleton h' e ih =>
    rw [← List.append_assoc] at hu
    obtain ⟨t, ht, -⟩ := hu.of_concat
    exact ih ht

theorem Follows.next (hu : N.Follows i s (h ++ e :: h') u) (ht : N.Follows i s h t) :
    ∃ t', (N.act i t).Allows e t' := by
  rw [List.append_cons] at hu
  obtain ⟨t', ht'⟩ := hu.of_append
  obtain ⟨v, hv, he⟩ := ht'.of_concat
  rw [ht.unique hv]
  exact ⟨t', he⟩

end

/-! ## All agents -/

variable [DecidableEq κ] [DecidableEq ι]

/-- What an event has read is there after the histories `h`. -/
def Arrives (h : ι → List (Event κ α)) (e : Event κ α) : Prop :=
  ∀ c k a, e = .read c k a → (written c (h (N.writer c)))[k]? = some a

/-- The histories of the runs from `start`. -/
inductive Reached (start : ι → σ) : (ι → List (Event κ α)) → Prop
  | start : Reached start fun _ ↦ []
  | act {h : ι → List (Event κ α)} {i : ι} {s t : σ} {e : Event κ α} (hr : Reached start h)
      (hs : N.Follows i (start i) (h i) s) (he : (N.act i s).Allows e t) (ha : N.Arrives h e) :
      Reached start (Function.update h i (h i ++ [e]))

variable {N} {start : ι → σ} {h h' : ι → List (Event κ α)} {g rest : List (Event κ α)} {i : ι}
  {s t : σ} {e e' : Event κ α}

omit [DecidableEq ι] in
theorem Arrives.mono (ha : N.Arrives h e) (hle : ∀ k, h k <+: h' k) : N.Arrives h' e :=
  fun c k a hc ↦ getElem?_written (hle _) (ha c k a hc)

omit [DecidableEq ι] in
theorem Arrives.unique (ha : N.Arrives h e) (ha' : N.Arrives h e')
    (he : (N.act i s).Allows e t) {t' : σ} (he' : (N.act i s).Allows e' t') : e = e' := by
  rcases he.eq_or_read he' with heq | ⟨c, k, a, a', rfl, rfl⟩
  · exact heq
  · rw [Option.some_inj.mp ((ha c k a rfl).symm.trans (ha' c k a' rfl))]

omit [DecidableEq κ] in
theorem prefix_update (h : ι → List (Event κ α)) (i : ι) (e : Event κ α) (k : ι) :
    h k <+: Function.update h i (h i ++ [e]) k := by
  by_cases hk : k = i
  · subst hk
    rw [Function.update_self]
    exact List.prefix_append _ _
  · rw [Function.update_of_ne hk]

theorem Reached.follows (hr : N.Reached start h) (i : ι) : ∃ s, N.Follows i (start i) (h i) s := by
  induction hr with
  | start => exact ⟨_, .nil⟩
  | @act h k s t e _ hs he _ ih =>
    by_cases hi : i = k
    · subst hi
      rw [Function.update_self]
      exact ⟨t, hs.concat he⟩
    · rw [Function.update_of_ne hi]
      exact ih

/-- Every element that was read was there. -/
theorem Reached.arrives (hr : N.Reached start h) (hi : e ∈ h i) : N.Arrives h e := by
  induction hr with
  | start => exact absurd hi (by simp)
  | @act h k s t e' _ _ _ ha ih =>
    have hmono := prefix_update h k e'
    by_cases hik : i = k
    · subst hik
      rw [Function.update_self, List.mem_append, List.mem_singleton] at hi
      rcases hi with hi | rfl
      · exact (ih hi).mono hmono
      · exact ha.mono hmono
    · rw [Function.update_of_ne hik] at hi
      exact (ih hi).mono hmono

/-- **An agent that may have fallen behind.** It has done a part of what a run has seen of it, and
its next event is allowed and has arrived: then some longer run has seen that event. -/
theorem Reached.extend (hr : N.Reached start h) (hg : g <+: h i) (hs : N.Follows i (start i) g s)
    (he : (N.act i s).Allows e t) (ha : N.Arrives h e) :
    ∃ h', N.Reached start h' ∧ (∀ k, h k <+: h' k) ∧ g ++ [e] <+: h' i := by
  obtain ⟨rest, hrest⟩ := hg
  rcases rest with - | ⟨e', rest⟩
  · rw [List.append_nil] at hrest
    subst hrest
    refine ⟨_, hr.act hs he ha, prefix_update h i e, ?_⟩
    rw [Function.update_self]
  · obtain ⟨u, hu⟩ := hr.follows i
    rw [← hrest] at hu
    obtain ⟨t', he'⟩ := hu.next hs
    have hmem : e' ∈ h i := hrest ▸ List.mem_append_right _ List.mem_cons_self
    obtain rfl := ha.unique (hr.arrives hmem) he he'
    refine ⟨h, hr, fun k ↦ List.prefix_refl _, rest, ?_⟩
    rw [← hrest, List.append_assoc, List.singleton_append]

/-- **Two runs have a common continuation.** -/
theorem Reached.join (hr : N.Reached start h) (hr' : N.Reached start h') :
    ∃ h'', N.Reached start h'' ∧ (∀ k, h k <+: h'' k) ∧ ∀ k, h' k <+: h'' k := by
  induction hr' with
  | start => exact ⟨h, hr, fun k ↦ List.prefix_refl _, fun k ↦ List.nil_prefix⟩
  | @act h' i s t e _ hs he ha ih =>
    obtain ⟨h₁, hr₁, hle, hle'⟩ := ih
    obtain ⟨h₂, hr₂, hle₂, hext⟩ := hr₁.extend (hle' i) hs he (ha.mono hle')
    refine ⟨h₂, hr₂, fun k ↦ (hle k).trans (hle₂ k), fun k ↦ ?_⟩
    by_cases hk : k = i
    · subst hk
      rwa [Function.update_self]
    · rw [Function.update_of_ne hk]
      exact (hle' k).trans (hle₂ k)

/-- **Where nothing more can be done, everything has been done.** `done` is what some agents have
got through, each of them a part of what runs have seen. If none of them stands where it could do
what a run can, then they have got through all that any run does. -/
theorem Reached.covered (done : ι → List (Event κ α) → Prop)
    (hdone : ∀ i g, done i g → ∃ h, N.Reached start h ∧ g <+: h i)
    (hstuck : ∀ {h : ι → List (Event κ α)} {i : ι} {e : Event κ α} {s t : σ},
      N.Reached start h → (∀ k g, done k g → h k <+: g) → done i (h i) →
      N.Follows i (start i) (h i) s → (N.act i s).Allows e t → N.Arrives h e → False)
    (hr : N.Reached start h) : ∀ i g, done i g → h i <+: g := by
  induction hr with
  | start => exact fun _ _ _ ↦ List.nil_prefix
  | @act h k s t e hr hs he ha ih =>
    intro i g hg
    by_cases hi : i = k
    · subst hi
      rw [Function.update_self]
      obtain ⟨rest, hrest⟩ := ih i g hg
      rcases rest with - | ⟨e', rest⟩
      · rw [List.append_nil] at hrest
        exact absurd (hstuck hr ih (hrest ▸ hg) hs he ha) not_false
      · -- the agent has done something else there, and that is what the run does
        obtain ⟨h₁, hr₁, hg₁⟩ := hdone i g hg
        obtain ⟨h₂, hr₂, hle, hle₁⟩ := hr.join hr₁
        obtain ⟨rest', hrest'⟩ := hg₁.trans (hle₁ i)
        rw [← hrest, List.append_assoc, List.cons_append] at hrest'
        obtain ⟨u, hu⟩ := hr₂.follows i
        rw [← hrest'] at hu
        obtain ⟨t', he'⟩ := hu.next hs
        have hmem : e' ∈ h₂ i := hrest' ▸ List.mem_append_right _ List.mem_cons_self
        obtain rfl := (ha.mono hle).unique (hr₂.arrives hmem) he he'
        exact ⟨rest, by rw [← hrest, List.append_assoc, List.singleton_append]⟩
    · rw [Function.update_of_ne hi]
      exact ih i g hg

/-! ## Runs -/

variable (N) in
/-- One step of agent `i`. -/
def Step (i : ι) (x y : Config ι κ α σ) : Prop :=
  ∃ e t, (N.act i (x.state i)).Allows e t ∧
    (∀ c k a, e = .read c k a → (x.stream c)[k]? = some a) ∧
    y = ⟨Function.update x.state i t, e.apply x.stream⟩

variable (N) in
def Runs : Config ι κ α σ → Config ι κ α σ → Prop :=
  Relation.ReflTransGen fun x y ↦ ∃ i, N.Step i x y

variable (N) in
/-- Nobody can move. -/
def Terminal (x : Config ι κ α σ) : Prop := ∀ i y, ¬N.Step i x y

/-- The configuration after the histories: every agent is where its events have led it, and every
stream has what its writer has written. -/
structure After (N : Network ι κ α σ) (start : ι → σ) (h : ι → List (Event κ α))
    (x : Config ι κ α σ) : Prop where
  state : ∀ i, N.Follows i (start i) (h i) (x.state i)
  stream : ∀ c, x.stream c = written c (h (N.writer c))

variable {x y : Config ι κ α σ}

theorem written_update (he : (N.act i s).Allows e t) (c : κ) :
    written c (Function.update h i (h i ++ [e]) (N.writer c))
      = written c (h (N.writer c)) ++ written c [e] := by
  by_cases hc : N.writer c = i
  · rw [hc, Function.update_self, written_append]
  · have hnil : written c [e] = [] := by
      match e with
      | .internal => rfl
      | .read .. => rfl
      | .write c' a => exact written_write_of_ne fun hcc ↦ hc (hcc ▸ writer_of_allows he)
    rw [Function.update_of_ne hc, hnil, List.append_nil]

theorem After.act (hx : N.After start h x) (he : (N.act i (x.state i)).Allows e t) :
    N.After start (Function.update h i (h i ++ [e]))
      ⟨Function.update x.state i t, e.apply x.stream⟩ where
  state k := by
    by_cases hk : k = i
    · subst hk
      simp only [Function.update_self]
      exact (hx.state k).concat he
    · simp only [Function.update_of_ne hk]
      exact hx.state k
  stream c := by
    rw [written_update he, ← hx.stream c]
    rfl

theorem After.step (hx : N.After start h x) (he : (N.act i (x.state i)).Allows e t)
    (ha : N.Arrives h e) : N.Step i x ⟨Function.update x.state i t, e.apply x.stream⟩ :=
  ⟨e, t, he, fun c k a hc ↦ hx.stream c ▸ ha c k a hc, rfl⟩

/-- **Histories that are reached are those of a run**, and every part of what an agent has done is
what it had done at some point of that run. -/
theorem Reached.runs (hr : N.Reached start h) :
    ∃ x, N.Runs ⟨start, fun _ ↦ []⟩ x ∧ N.After start h x ∧
      ∀ i g, g <+: h i → ∃ y, N.Runs ⟨start, fun _ ↦ []⟩ y ∧ N.Runs y x ∧
        N.Follows i (start i) g (y.state i) := by
  induction hr with
  | start =>
    refine ⟨_, .refl, ⟨fun _ ↦ .nil, fun _ ↦ rfl⟩, fun i g hg ↦ ⟨_, .refl, .refl, ?_⟩⟩
    rw [List.prefix_nil.mp hg]
    exact .nil
  | @act h i s t e _ hs he ha ih =>
    obtain ⟨x, hx, hafter, hparts⟩ := ih
    obtain rfl := (hafter.state i).unique hs
    have hstep := hafter.step he ha
    have hy := hafter.act he
    refine ⟨_, hx.tail ⟨i, hstep⟩, hy, fun k g hg ↦ ?_⟩
    have hold : g <+: h k → ∃ z, N.Runs ⟨start, fun _ ↦ []⟩ z ∧
        N.Runs z ⟨Function.update x.state i t, e.apply x.stream⟩ ∧
          N.Follows k (start k) g (z.state k) := by
      intro hg
      obtain ⟨z, hz, hzx, hfollows⟩ := hparts k g hg
      exact ⟨z, hz, hzx.tail ⟨i, hstep⟩, hfollows⟩
    by_cases hk : k = i
    · subst hk
      rw [Function.update_self] at hg
      rcases List.prefix_concat_iff.mp hg with rfl | hg
      · have hstate := hy.state k
        rw [Function.update_self] at hstate
        exact ⟨_, hx.tail ⟨k, hstep⟩, .refl, hstate⟩
      · exact hold hg
    · rw [Function.update_of_ne hk] at hg
      exact hold hg

theorem Runs.reached (hrun : N.Runs ⟨start, fun _ ↦ []⟩ x) :
    ∃ h, N.Reached start h ∧ N.After start h x := by
  induction hrun with
  | refl => exact ⟨_, .start, fun _ ↦ .nil, fun _ ↦ rfl⟩
  | tail _ hmove ih =>
    obtain ⟨i, e, t, he, ha, rfl⟩ := hmove
    obtain ⟨h, hr, hafter⟩ := ih
    exact ⟨_, hr.act (hafter.state i) he fun c k a hc ↦ hafter.stream c ▸ ha c k a hc,
      hafter.act he⟩

/-- A run that has come to its end has seen everything. -/
theorem After.covers (hx : N.After start h x) (hr : N.Reached start h) (hterminal : N.Terminal x)
    (hr' : N.Reached start h') (i : ι) : h' i <+: h i := by
  refine hr'.covered (fun k g ↦ g = h k) ?_ ?_ i (h i) rfl
  · rintro k g rfl
    exact ⟨h, hr, List.prefix_refl _⟩
  · intro h₁ k e s t _ hle hdone hs he ha
    rw [hdone] at hs
    obtain rfl := (hx.state k).unique hs
    exact hterminal k _ (hx.step he (ha.mono fun k' ↦ hle k' _ rfl))

end Network

end EntangledMPI.Streams
