import Mathlib.Data.List.Sort
import Rs5cmd.Lib.Maps

/-!
# Collecting what arrives in any order

What is sorted by a comparison that tells its elements apart, and what is tallied by
key, comes out the same in whatever order it arrived.
-/

namespace Collect

section Sorting

variable {α : Type*} {cmp : α → α → Ordering} {l : List α}

/-- A stable sort by a comparison. -/
def sortBy (cmp : α → α → Ordering) (l : List α) : List α := l.mergeSort fun a b => (cmp a b).isLE

theorem sortBy_perm (cmp : α → α → Ordering) (l : List α) : (sortBy cmp l).Perm l :=
  List.mergeSort_perm l _

theorem mem_sortBy {a : α} : a ∈ sortBy cmp l ↔ a ∈ l := (sortBy_perm cmp l).mem_iff

theorem sortBy_eq_nil_iff : sortBy cmp l = [] ↔ l = [] := by
  constructor
  · intro h
    have hperm := sortBy_perm cmp l
    rw [h] at hperm
    exact List.nil_perm.mp hperm
  · rintro rfl
    exact List.perm_nil.mp (sortBy_perm cmp [])

variable [Std.TransCmp cmp]

theorem pairwise_sortBy : (sortBy cmp l).Pairwise fun a b => (cmp a b).isLE := by
  apply List.pairwise_mergeSort
  · intro a b c hab hbc
    exact Std.TransCmp.isLE_trans hab hbc
  · intro a b
    have hswap : cmp b a = (cmp a b).swap := Std.OrientedCmp.eq_swap
    rw [hswap]
    cases cmp a b <;> rfl

/-- Without repetitions the order is strict. -/
theorem pairwise_lt_sortBy (hnodup : l.Nodup)
    (hcmp : ∀ a ∈ l, ∀ b ∈ l, cmp a b = .eq → a = b) :
    (sortBy cmp l).Pairwise fun a b => cmp a b = .lt := by
  have hne : (sortBy cmp l).Nodup := (sortBy_perm cmp l).nodup_iff.mpr hnodup
  apply (pairwise_sortBy.and hne).imp_of_mem
  intro a b ha hb h
  cases hab : cmp a b with
  | lt => rfl
  | eq => exact absurd (hcmp a (mem_sortBy.mp ha) b (mem_sortBy.mp hb) hab) h.2
  | gt =>
    have hle := h.1
    rw [hab] at hle
    cases hle

end Sorting

section Tally

variable {κ α σ : Type} {cmp : κ → κ → Ordering} [Std.TransCmp cmp] [Std.LawfulEqCmp cmp]
  [DecidableEq κ]

/-- `map.entry(key).or_default()`, with the element added. -/
def tally (key : α → κ) (zero : σ) (add : σ → α → σ) (m : Std.ExtTreeMap κ σ cmp) (a : α) :
    Std.ExtTreeMap κ σ cmp :=
  m.alter (key a) fun s => some (add (s.getD zero) a)

variable {key : α → κ} {zero : σ} {add : σ → α → σ} {m : Std.ExtTreeMap κ σ cmp}

theorem getElem?_tally (a : α) (k : κ) :
    (tally key zero add m a)[k]? = if key a = k then some (add (m[k]?.getD zero) a) else m[k]? := by
  rw [tally, Std.ExtTreeMap.getElem?_alter]
  by_cases h : key a = k
  · rw [if_pos h, if_pos (Std.LawfulEqCmp.compare_eq_iff_eq.mpr h), h]
  · rw [if_neg h, if_neg fun heq => h (Std.LawfulEqCmp.compare_eq_iff_eq.mp heq)]

/-- **Each key tallies its own elements**, and a key without any is not there. -/
theorem getElem?_foldl_tally (l : List α) (k : κ) :
    (l.foldl (tally key zero add) m)[k]? =
      if (l.filter fun a => key a = k) = [] then m[k]?
      else some ((l.filter fun a => key a = k).foldl add (m[k]?.getD zero)) := by
  induction l generalizing m with
  | nil => rfl
  | cons a l ih =>
    rw [List.foldl_cons, ih, getElem?_tally]
    by_cases h : key a = k
    · rw [List.filter_cons_of_pos (by simpa using h), if_neg (List.cons_ne_nil _ _), if_pos h,
        List.foldl_cons]
      split
      · rename_i hnil
        rw [hnil]
        rfl
      · rfl
    · rw [List.filter_cons_of_neg (by simpa using h), if_neg h]

end Tally

end Collect
