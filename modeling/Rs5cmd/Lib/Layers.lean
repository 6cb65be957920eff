import Mathlib.Data.List.Basic

/-!
# Settings in layers

A setting is filled from one layer after the other. It may be unset, or its default may
stand for an unset one; either way the first layer that says something wins, and layers
that were applied once change nothing the second time.
-/

namespace Layers

variable {α β : Type} {f : β → Option α} {layers later : List β}

/-- What is set, or what the first layer with a value says. -/
def first (f : β → Option α) (v : Option α) (layers : List β) : Option α :=
  v.or (layers.findSome? f)

/-- The first value other than the default. -/
def firstOther [DecidableEq α] (default : α) (f : β → Option α) (v : α) (layers : List β) : α :=
  ((v :: layers.filterMap f).find? (· ≠ default)).getD default

theorem foldl_or (f : β → Option α) (layers : List β) (v : Option α) :
    layers.foldl (fun v t => v.or (f t)) v = first f v layers := by
  induction layers generalizing v with
  | nil => exact (Option.or_none).symm
  | cons t layers ih =>
    rw [List.foldl_cons, ih, first, Option.or_assoc, first, List.findSome?_cons]
    congr 1
    cases f t with
    | none => rfl
    | some w => rfl

theorem findSome?_eq_none_of_subset (hsub : later ⊆ layers) (h : layers.findSome? f = none) :
    later.findSome? f = none := by
  rw [List.findSome?_eq_none_iff] at h ⊢
  intro t ht
  exact h t (hsub ht)

/-- Layers that were applied before change nothing. -/
theorem first_first (hsub : later ⊆ layers) (v : Option α) :
    first f (first f v layers) later = first f v layers := by
  unfold first
  cases v with
  | some w => rfl
  | none =>
    rw [Option.none_or]
    cases h : layers.findSome? f with
    | none => rw [findSome?_eq_none_of_subset hsub h]; rfl
    | some w => rfl

section Default

variable [DecidableEq α] {default : α}

theorem firstOther_of_ne {v : α} (h : v ≠ default) : firstOther default f v layers = v := by
  rw [firstOther, List.find?_cons_of_pos (by simpa using h), Option.getD_some]

theorem foldl_default (default : α) (f : β → Option α) (layers : List β) (v : α) :
    layers.foldl (fun v t => if v = default then (f t).getD v else v) v =
      firstOther default f v layers := by
  induction layers generalizing v with
  | nil =>
    by_cases hv : v = default
    · simp [firstOther, hv]
    · exact (firstOther_of_ne hv).symm
  | cons t layers ih =>
    rw [List.foldl_cons, ih]
    by_cases hv : v = default
    · subst hv
      rw [if_pos rfl]
      cases hf : f t with
      | none => simp [firstOther, List.filterMap_cons_none hf]
      | some w => simp [firstOther, List.filterMap_cons_some hf]
    · rw [if_neg hv, firstOther_of_ne hv, firstOther_of_ne hv]

theorem firstOther_eq_default (h : firstOther default f default layers = default) :
    ∀ t ∈ layers, ∀ w, f t = some w → w = default := by
  intro t ht w hw
  by_contra hne
  have hmem : w ∈ default :: layers.filterMap f :=
    List.mem_cons_of_mem _ (List.mem_filterMap.mpr ⟨t, ht, hw⟩)
  cases hfind : (default :: layers.filterMap f).find? (· ≠ default) with
  | none => exact List.find?_eq_none.mp hfind w hmem (by simpa using hne)
  | some x =>
    have hx : x ≠ default := by simpa using List.find?_some hfind
    rw [firstOther, hfind] at h
    exact hx h

theorem firstOther_firstOther (hsub : later ⊆ layers) (v : α) :
    firstOther default f (firstOther default f v layers) later = firstOther default f v layers := by
  by_cases hne : firstOther default f v layers = default
  · have hv : v = default := by
      by_contra hv
      exact hv ((firstOther_of_ne hv).symm.trans hne)
    subst hv
    rw [hne, firstOther, List.find?_eq_none.mpr, Option.getD_none]
    intro w hw
    rcases List.mem_cons.mp hw with rfl | hw
    · simp
    · obtain ⟨t, ht, hwt⟩ := List.mem_filterMap.mp hw
      simpa using firstOther_eq_default hne t (hsub ht) w hwt
  · exact firstOther_of_ne hne

end Default

end Layers
