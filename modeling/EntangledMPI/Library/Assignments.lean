import Mathlib.Data.List.Induction
import Mathlib.Logic.Function.Basic

/-!
# Replaying a list of assignments

An assignment gives a variable a new value or copies the value of another variable. The new values
are named, and what a name stands for is decided when the list is run. `origin` is the run in which
everything stands for itself: it tells for every variable which variable before the run, or which
new value, it has in the end, and every other run is read off from it.
-/

namespace EntangledMPI.Assignments

variable {X B C V : Type*}

/-- An assignment to the variable `x`. -/
inductive Assignment (X B : Type*)
  | fresh (x : X) (b : B)
  | copy (source x : X)

/-- The same assignment with its new value renamed. -/
def Assignment.rename (g : B → C) : Assignment X B → Assignment X C
  | fresh x b => fresh x (g b)
  | copy source x => copy source x

variable [DecidableEq X]

/-- Run one assignment, `f b` being the value with the name `b`. -/
def Assignment.run (f : B → V) (m : X → V) : Assignment X B → X → V
  | fresh x b => Function.update m x (f b)
  | copy source x => Function.update m x (m source)

/-- Where the value of a variable comes from in one assignment: a variable before it, or a new
value. -/
def Assignment.source : Assignment X B → X → X ⊕ B
  | fresh x b, y => if y = x then Sum.inr b else Sum.inl y
  | copy source x, y => Sum.inl (if y = x then source else y)

/-- Run a list of assignments. -/
def replay (f : B → V) (m : X → V) (l : List (Assignment X B)) : X → V :=
  l.foldl (fun m a ↦ a.run f m) m

/-- Where the value of a variable comes from in the end. -/
def origin (l : List (Assignment X B)) : X → X ⊕ B := replay Sum.inr Sum.inl l

/-! ## One assignment -/

theorem Assignment.run_eq (f : B → V) (m : X → V) (a : Assignment X B) (x : X) :
    a.run f m x = Sum.elim m f (a.source x) := by
  cases a with
  | fresh y b =>
    rw [run, source, Function.update_apply]
    split <;> rfl
  | copy z y =>
    rw [run, source, Function.update_apply, Sum.elim_inl]
    split <;> rfl

theorem Assignment.eq_fresh_of_source {a : Assignment X B} {x : X} {b : B}
    (h : a.source x = Sum.inr b) : a = fresh x b := by
  cases a with
  | fresh y b' =>
    rw [source] at h
    split at h
    · next hx => rw [hx, Sum.inr.inj h]
    · exact absurd h (by simp)
  | copy z y => exact absurd h (by simp [source])

/-! ## A list of assignments -/

@[simp] theorem replay_nil (f : B → V) (m : X → V) : replay f m [] = m := rfl

theorem replay_concat (f : B → V) (m : X → V) (l : List (Assignment X B)) (a : Assignment X B) :
    replay f m (l ++ [a]) = a.run f (replay f m l) := by
  rw [replay, replay, List.foldl_append, List.foldl_cons, List.foldl_nil]

theorem replay_map_rename (g : B → C) (f : C → V) (m : X → V) (l : List (Assignment X B)) :
    replay f m (l.map (Assignment.rename g)) = replay (f ∘ g) m l := by
  rw [replay, List.foldl_map, replay]
  congr 1
  funext m a
  cases a <;> rfl

theorem origin_concat (l : List (Assignment X B)) (a : Assignment X B) (x : X) :
    origin (l ++ [a]) x = Sum.elim (origin l) Sum.inr (a.source x) := by
  rw [origin, replay_concat, Assignment.run_eq]
  rfl

/-- **One run for all.** A run is the run of the origins, with the origins read. -/
theorem replay_eq (f : B → V) (m : X → V) (l : List (Assignment X B)) (x : X) :
    replay f m l x = Sum.elim m f (origin l x) := by
  induction l using List.reverseRecOn generalizing x with
  | nil => rfl
  | append_singleton l a ih =>
    rw [replay_concat, Assignment.run_eq, origin_concat]
    cases a.source x with
    | inl y => exact ih y
    | inr b => rfl

theorem origin_map_rename (g : B → C) (l : List (Assignment X B)) (x : X) :
    origin (l.map (Assignment.rename g)) x = (origin l x).map id g := by
  rw [origin, replay_map_rename, replay_eq]
  cases origin l x <;> rfl

theorem exists_fresh_of_origin {l : List (Assignment X B)} {x : X} {b : B}
    (h : origin l x = Sum.inr b) : ∃ y, Assignment.fresh y b ∈ l := by
  induction l using List.reverseRecOn generalizing x with
  | nil => exact absurd h (by simp [origin])
  | append_singleton l a ih =>
    rw [origin_concat] at h
    cases ha : a.source x with
    | inl y =>
      rw [ha] at h
      exact (ih h).imp fun _ hz ↦ List.mem_append_left _ hz
    | inr b' =>
      rw [ha] at h
      obtain rfl := Sum.inr.inj h
      exact ⟨x, by simp [Assignment.eq_fresh_of_source ha]⟩

/-- Where every assignment is a new value, a variable has the last one it was given. -/
theorem origin_fresh (key : B → X) (l : List B) (x : X) :
    origin (l.map fun b ↦ Assignment.fresh (key b) b) x =
      (l.reverse.find? fun b ↦ key b = x).elim (Sum.inl x) Sum.inr := by
  induction l using List.reverseRecOn with
  | nil => rfl
  | append_singleton l b ih =>
    rw [List.map_append, List.map_singleton, origin_concat, Assignment.source, List.reverse_append,
      List.reverse_singleton, List.singleton_append]
    by_cases hx : x = key b
    · rw [if_pos hx, List.find?_cons_of_pos (by simpa using hx.symm)]
      rfl
    · rw [if_neg hx, List.find?_cons_of_neg (by simpa using Ne.symm hx)]
      exact ih

theorem foldl_update_apply (key : B → X) (f : B → V) (m : X → V) (l : List B) (x : X) :
    l.foldl (fun m b ↦ Function.update m (key b) (f b)) m x =
      (l.reverse.find? fun b ↦ key b = x).elim (m x) f := by
  have hreplay : l.foldl (fun m b ↦ Function.update m (key b) (f b)) m =
      replay f m (l.map fun b ↦ Assignment.fresh (key b) b) := by
    rw [replay, List.foldl_map]
    rfl
  rw [hreplay, replay_eq, origin_fresh]
  cases l.reverse.find? fun b ↦ key b = x <;> rfl

theorem find?_reverse_of_unique {key : B → X} {l : List B} {b : B} (hb : b ∈ l)
    (hkey : ∀ b' ∈ l, key b' = key b → b' = b) :
    (l.reverse.find? fun b' ↦ key b' = key b) = some b := by
  cases hfind : l.reverse.find? fun b' ↦ key b' = key b with
  | none =>
    have hnone := List.find?_eq_none.mp hfind b (List.mem_reverse.mpr hb)
    exact absurd (decide_eq_true rfl) hnone
  | some b' =>
    have hfound := List.find?_some hfind
    have hmem := List.mem_reverse.mp (List.mem_of_find?_eq_some hfind)
    rw [hkey b' hmem (of_decide_eq_true hfound)]

end EntangledMPI.Assignments
