import Mathlib.Data.List.Nodup
import Mathlib.Data.List.Perm.Basic

/-!
# Renumbering the members of a filtered list

Members of a duplicate-free list are numbered by their positions. Dropping some of them gives the
rest new positions, and `translate` is the map from old to new ones, undefined at a dropped member.
Over all old positions it produces every new one, each once and in order, which is
`filterMap_translate_range`; a position and its translation hold the same member. Those two facts
are all a renumbered table needs.
-/

namespace EntangledMPI.Renumbering

variable {α : Type*} [DecidableEq α]

/-- The position in `l'` of the member that has position `i` in `l`. -/
def translate (l l' : List α) (i : ℕ) : Option ℕ :=
  l[i]?.bind fun a ↦ if a ∈ l' then some (l'.idxOf a) else none

variable {l : List α} {keep : α → Bool}

theorem translate_eq_some_iff {l' : List α} {i k : ℕ} :
    translate l l' i = some k ↔ ∃ a, l[i]? = some a ∧ a ∈ l' ∧ l'.idxOf a = k := by
  rw [translate, Option.bind_eq_some_iff]
  constructor
  · rintro ⟨a, ha, h⟩
    by_cases hmem : a ∈ l'
    · rw [if_pos hmem, Option.some_inj] at h
      exact ⟨a, ha, hmem, h⟩
    · rw [if_neg hmem] at h
      exact absurd h (by simp)
  · rintro ⟨a, ha, hmem, h⟩
    exact ⟨a, ha, by rw [if_pos hmem, h]⟩

theorem getElem?_of_translate {l' : List α} {i k : ℕ} (h : translate l l' i = some k) :
    l'[k]? = l[i]? := by
  obtain ⟨a, ha, hmem, rfl⟩ := translate_eq_some_iff.mp h
  rw [ha, List.getElem?_eq_getElem (List.idxOf_lt_length_of_mem hmem), List.getElem_idxOf]

theorem translate_idxOf {a : α} (ha : a ∈ l) {l' : List α} (ha' : a ∈ l') :
    translate l l' (l.idxOf a) = some (l'.idxOf a) :=
  translate_eq_some_iff.mpr ⟨a, List.getElem?_idxOf ha, ha', rfl⟩

theorem translate_self (hl : l.Nodup) {i : ℕ} (hi : i < l.length) : translate l l i = some i :=
  translate_eq_some_iff.mpr ⟨l[i], List.getElem?_eq_getElem hi, List.getElem_mem hi,
    hl.idxOf_getElem i hi⟩

theorem translate_trans {l' l'' : List α} (hsub : l'' ⊆ l') (i : ℕ) :
    (translate l l' i).bind (translate l' l'') = translate l l'' i := by
  rw [translate, translate]
  cases hi : l[i]? with
  | none => rfl
  | some a =>
    rw [Option.bind_some, Option.bind_some]
    by_cases ha' : a ∈ l'
    · rw [if_pos ha', Option.bind_some, translate, List.getElem?_idxOf ha', Option.bind_some]
    · rw [if_neg ha', if_neg fun ha'' ↦ ha' (hsub ha'')]
      rfl

theorem filterMap_translate_trans {l' l'' : List α} (hsub : l'' ⊆ l') (rows : List ℕ) :
    (rows.filterMap (translate l l')).filterMap (translate l' l'')
      = rows.filterMap (translate l l'') := by
  rw [List.filterMap_filterMap]
  exact List.filterMap_congr fun i _ ↦ translate_trans hsub i

/-- **A renumbered table denotes what the old one denoted**, in its order, without the members that
were dropped. -/
theorem map_getElem?_filterMap_translate (l l' : List α) (rows : List ℕ) :
    (rows.filterMap (translate l l')).map (fun k ↦ l'[k]?)
      = ((rows.filterMap fun i ↦ l[i]?).filter (· ∈ l')).map some := by
  induction rows with
  | nil => rfl
  | cons i rows ih =>
    cases hi : l[i]? with
    | none =>
      have htr : translate l l' i = none := by rw [translate, hi, Option.bind_none]
      rw [List.filterMap_cons, htr, List.filterMap_cons, hi]
      exact ih
    | some a =>
      by_cases ha : a ∈ l'
      · have htr : translate l l' i = some (l'.idxOf a) :=
          translate_eq_some_iff.mpr ⟨a, hi, ha, rfl⟩
        rw [List.filterMap_cons, htr, List.filterMap_cons, hi, List.map_cons, ih,
          List.getElem?_idxOf ha]
        simp [ha]
      · have htr : translate l l' i = none := by rw [translate, hi, Option.bind_some, if_neg ha]
        rw [List.filterMap_cons, htr, List.filterMap_cons, hi]
        simpa [ha] using ih

theorem translate_lt_length {l' : List α} {i k : ℕ} (h : translate l l' i = some k) :
    k < l'.length := by
  obtain ⟨a, -, hmem, rfl⟩ := translate_eq_some_iff.mp h
  exact List.idxOf_lt_length_of_mem hmem

theorem translate_inj (hl : l.Nodup) {l' : List α} {i i' k : ℕ} (h : translate l l' i = some k)
    (h' : translate l l' i' = some k) : i = i' := by
  have hget : l[i]? = l[i']? := (getElem?_of_translate h).symm.trans (getElem?_of_translate h')
  obtain ⟨a, ha, -, -⟩ := translate_eq_some_iff.mp h
  exact (List.getElem?_inj (List.getElem?_eq_some_iff.mp ha).1 hl).mp hget

theorem translate_filter_eq_none_iff {i : ℕ} (hi : i < l.length) :
    translate l (l.filter keep) i = none ↔ keep l[i] = false := by
  rw [translate, List.getElem?_eq_getElem hi, Option.bind_some]
  have hmem : l[i] ∈ l.filter keep ↔ keep l[i] = true := by
    rw [List.mem_filter, and_iff_right (List.getElem_mem hi)]
  by_cases hk : keep l[i] = true
  · rw [if_pos (hmem.mpr hk), hk]
    simp
  · rw [if_neg (mt hmem.mp hk)]
    simp [Bool.eq_false_iff.mpr hk]

/-- The new position counts the members kept before the old one. -/
theorem translate_filter_of_keep (hl : l.Nodup) {i : ℕ} (hi : i < l.length)
    (hk : keep l[i] = true) :
    translate l (l.filter keep) i = some ((l.take i).countP keep) := by
  have hmem : l[i] ∈ l.filter keep := List.mem_filter.mpr ⟨List.getElem_mem hi, hk⟩
  have hsplit : l.filter keep = (l.take i).filter keep ++ l[i] :: (l.drop (i + 1)).filter keep := by
    conv_lhs => rw [← List.take_append_drop i l, List.drop_eq_getElem_cons hi]
    rw [List.filter_append, List.filter_cons_of_pos hk]
  have hnot : l[i] ∉ (l.take i).filter keep := by
    intro hbefore
    obtain ⟨k, hk', heq⟩ := List.mem_take_iff_getElem.mp (List.mem_of_mem_filter hbefore)
    have hlt := Nat.lt_min.mp hk'
    exact absurd ((hl.getElem_inj_iff).mp heq) (by omega)
  refine translate_eq_some_iff.mpr ⟨l[i], List.getElem?_eq_getElem hi, hmem, ?_⟩
  rw [hsplit, List.idxOf_append_of_notMem hnot, List.idxOf_cons_self, Nat.add_zero,
    List.countP_eq_length_filter]

/-! ## All positions at once -/

omit [DecidableEq α] in
theorem filterMap_getElem?_range {β : Type*} (l : List α) (f : α → Option β) :
    (List.range l.length).filterMap (fun i ↦ l[i]?.bind f) = l.filterMap f := by
  induction l with
  | nil => rfl
  | cons a l ih =>
    rw [List.length_cons, List.range_succ_eq_map, List.filterMap_cons, List.filterMap_map]
    have htail : (List.range l.length).filterMap ((fun i ↦ (a :: l)[i]?.bind f) ∘ Nat.succ)
        = l.filterMap f := by
      rw [← ih]
      rfl
    rw [htail, List.filterMap_cons]
    rfl

theorem map_idxOf_self {l : List α} (hl : l.Nodup) : l.map l.idxOf = List.range l.length := by
  apply List.ext_getElem (by simp)
  intro i h₁ h₂
  rw [List.getElem_map, List.getElem_range, hl.idxOf_getElem]

omit [DecidableEq α] in
theorem filterMap_ite {β : Type*} (l : List α) (f : α → β) :
    l.filterMap (fun a ↦ if keep a = true then some (f a) else none) = (l.filter keep).map f := by
  induction l with
  | nil => rfl
  | cons a l ih =>
    by_cases hk : keep a = true
    · rw [List.filterMap_cons, if_pos hk, List.filter_cons_of_pos hk, List.map_cons, ih]
    · rw [List.filterMap_cons, if_neg hk, List.filter_cons_of_neg hk, ih]

/-- **The new positions come out complete and in order.** -/
theorem filterMap_translate_range (hl : l.Nodup) :
    (List.range l.length).filterMap (translate l (l.filter keep))
      = List.range (l.filter keep).length := by
  have hdef : translate l (l.filter keep)
      = fun i ↦ l[i]?.bind fun a ↦
          if a ∈ l.filter keep then some ((l.filter keep).idxOf a) else none := rfl
  rw [hdef, filterMap_getElem?_range, ← map_idxOf_self (hl.filter keep)]
  have hfun : ∀ a ∈ l, (if a ∈ l.filter keep then some ((l.filter keep).idxOf a) else none)
      = if keep a = true then some ((l.filter keep).idxOf a) else none := by
    intro a ha
    simp only [List.mem_filter, ha, true_and]
  rw [List.filterMap_congr hfun, filterMap_ite]

end EntangledMPI.Renumbering
