import Mathlib.Data.List.Sort

/-!
# Splitting a group by colour and key

A group is a list of members. `split` sorts the members of one colour by their keys, leaving members
of equal keys in the order of the group: insertion sort puts an element before everything its key
does not exceed, so it is stable. What users of a split ask for is who is in it, who comes first,
and — where the keys are the positions wanted — the whole list.
-/

namespace EntangledMPI.GroupSplit

variable {α γ κ : Type*} [DecidableEq γ] [LinearOrder κ]

/-- The members of colour `c`, ordered by key and then by their place in the group. -/
def split (group : List α) (color : α → Option γ) (key : α → κ) (c : γ) : List α :=
  (group.filter fun a ↦ color a = some c).insertionSort fun a b ↦ key a ≤ key b

variable {group : List α} {color : α → Option γ} {key : α → κ} {c : γ}

theorem split_perm : (split group color key c).Perm (group.filter fun a ↦ color a = some c) :=
  List.perm_insertionSort _ _

theorem mem_split {a : α} : a ∈ split group color key c ↔ a ∈ group ∧ color a = some c := by
  rw [split_perm.mem_iff, List.mem_filter, decide_eq_true_iff]

theorem nodup_split (h : group.Nodup) : (split group color key c).Nodup :=
  split_perm.nodup_iff.mpr (h.filter _)

instance keyTotal : Std.Total fun a b : α ↦ key a ≤ key b := ⟨fun a b ↦ le_total (key a) (key b)⟩

instance keyTrans : IsTrans α fun a b ↦ key a ≤ key b := ⟨fun _ _ _ ↦ le_trans⟩

theorem pairwise_split : (split group color key c).Pairwise fun a b ↦ key a ≤ key b :=
  List.pairwise_insertionSort _ _

/-- A member whose key every other member of its colour exceeds comes first. -/
theorem head?_split {a : α} (ha : a ∈ group) (hc : color a = some c)
    (hmin : ∀ b ∈ group, color b = some c → b ≠ a → key a < key b) :
    (split group color key c).head? = some a := by
  have hmem : a ∈ split group color key c := mem_split.mpr ⟨ha, hc⟩
  cases hs : split group color key c with
  | nil =>
    rw [hs] at hmem
    exact absurd hmem (List.not_mem_nil)
  | cons b rest =>
    rw [List.head?_cons, Option.some_inj]
    by_contra hne
    have hb : b ∈ split group color key c := hs ▸ List.mem_cons_self
    have hlt : key a < key b := hmin b (mem_split.mp hb).1 (mem_split.mp hb).2 hne
    have harest : a ∈ rest := by
      rw [hs] at hmem
      exact (List.mem_cons.mp hmem).resolve_left (Ne.symm hne)
    have hle : key b ≤ key a := by
      have hpair : (split group color key c).Pairwise fun a b ↦ key a ≤ key b := pairwise_split
      rw [hs] at hpair
      exact List.rel_of_pairwise_cons hpair harest
    exact absurd hlt (not_lt.mpr hle)

/-- **A split whose keys are the wanted order.** If the members of the colour are exactly those of
`l`, each once, and the keys increase along `l`, the split is `l`. -/
theorem split_eq {l : List α} (hgroup : group.Nodup) (hl : l.Pairwise fun a b ↦ key a < key b)
    (hmem : ∀ a, a ∈ l ↔ a ∈ group ∧ color a = some c) : split group color key c = l := by
  have hkeys : (l.map key).Nodup := List.pairwise_map.mpr (hl.imp ne_of_lt)
  have hperm : (split group color key c).Perm l :=
    (List.perm_ext_iff_of_nodup (nodup_split hgroup) hkeys.of_map).mpr fun a ↦ by
      rw [mem_split, hmem]
  refine @List.Perm.eq_of_pairwise _ (fun a b ↦ key a ≤ key b) _ _ ?_ pairwise_split
    (hl.imp le_of_lt) hperm
  intro a b ha hb hab hba
  exact List.inj_on_of_nodup_map hkeys (hperm.mem_iff.mp ha) hb (le_antisymm hab hba)

end EntangledMPI.GroupSplit
