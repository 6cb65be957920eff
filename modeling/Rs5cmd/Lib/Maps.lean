import Mathlib.Data.List.Dedup
import Std.Data.ExtTreeMap.Lemmas

/-!
# Maps

Lookups in an ordered map after an insertion or a removal, by equality of keys.

A hash map is visited in an order of its own. Here that order is a parameter, and
what is proved holds for each order: the entries visited are those of the map.
-/

namespace Maps

section Lookup

variable {κ α : Type} {cmp : κ → κ → Ordering} [Std.TransCmp cmp] [Std.LawfulEqCmp cmp]
  {m : Std.ExtTreeMap κ α cmp} {a k : κ} {v : α}

theorem getElem?_insert_of_ne (h : a ≠ k) : (m.insert a v)[k]? = m[k]? := by
  rw [Std.ExtTreeMap.getElem?_insert, if_neg]
  exact fun heq => h (Std.LawfulEqCmp.compare_eq_iff_eq.mp heq)

theorem getElem?_erase_of_ne (h : a ≠ k) : (m.erase a)[k]? = m[k]? := by
  rw [Std.ExtTreeMap.getElem?_erase, if_neg]
  exact fun heq => h (Std.LawfulEqCmp.compare_eq_iff_eq.mp heq)

theorem getElem?_insert_eq [DecidableEq κ] :
    (m.insert a v)[k]? = if a = k then some v else m[k]? := by
  by_cases h : a = k
  · subst h
    simp
  · rw [getElem?_insert_of_ne h, if_neg h]

theorem getElem?_erase_eq [DecidableEq κ] : (m.erase a)[k]? = if a = k then none else m[k]? := by
  by_cases h : a = k
  · subst h
    simp
  · rw [getElem?_erase_of_ne h, if_neg h]

end Lookup

section Visit

variable {κ α : Type} [DecidableEq κ]

/-- The entries of a map in the order in which a hash map visits them: those
named by `order` first, the others after them. -/
def inOrder (order : List κ) (entries : List (κ × α)) : List (κ × α) :=
  order.dedup.filterMap (fun i => entries.find? fun e => e.1 = i) ++
    entries.filter fun e => e.1 ∉ order

theorem mem_of_mem_inOrder {order : List κ} {entries : List (κ × α)} {e : κ × α}
    (h : e ∈ inOrder order entries) : e ∈ entries := by
  rcases List.mem_append.mp h with h | h
  · obtain ⟨i, _, hi⟩ := List.mem_filterMap.mp h
    exact List.mem_of_find?_eq_some hi
  · exact (List.mem_filter.mp h).1

theorem find?_key_eq_some {entries : List (κ × α)} (hnd : entries.Pairwise fun a b => a.1 ≠ b.1)
    {e : κ × α} (he : e ∈ entries) : (entries.find? fun a => a.1 = e.1) = some e := by
  induction entries with
  | nil => cases he
  | cons a entries ih =>
    obtain ⟨ha, hnd⟩ := List.pairwise_cons.mp hnd
    rcases List.mem_cons.mp he with rfl | hmem
    · simp
    · rw [List.find?_cons_of_neg (by simpa using ha e hmem)]
      exact ih hnd hmem

theorem mem_inOrder_of_mem {order : List κ} {entries : List (κ × α)}
    (hnd : entries.Pairwise fun a b => a.1 ≠ b.1) {e : κ × α} (he : e ∈ entries) :
    e ∈ inOrder order entries := by
  by_cases ho : e.1 ∈ order
  · refine List.mem_append_left _ (List.mem_filterMap.mpr ⟨e.1, List.mem_dedup.mpr ho, ?_⟩)
    exact find?_key_eq_some hnd he
  · exact List.mem_append_right _ (List.mem_filter.mpr ⟨he, by simpa using ho⟩)

/-- No key is visited twice. -/
theorem pairwise_inOrder {order : List κ} {entries : List (κ × α)}
    (hnd : entries.Pairwise fun a b => a.1 ≠ b.1) :
    (inOrder order entries).Pairwise fun a b => a.1 ≠ b.1 := by
  have hkey : ∀ {i : κ} {e : κ × α}, (entries.find? fun e => e.1 = i) = some e → e.1 = i := by
    intro i e h
    simpa using List.find?_some h
  refine List.pairwise_append.mpr ⟨?_, hnd.filter _, ?_⟩
  · refine List.Pairwise.filterMap _ ?_ (List.nodup_dedup order)
    intro i j hij a ha b hb hab
    rw [hkey ha, hkey hb] at hab
    exact hij hab
  · intro a ha b hb hab
    obtain ⟨i, hi, hfind⟩ := List.mem_filterMap.mp ha
    have hout := (List.mem_filter.mp hb).2
    rw [← hab, hkey hfind] at hout
    simp [List.mem_dedup.mp hi] at hout

theorem pairwise_toList (m : Std.ExtTreeMap Nat α compare) :
    m.toList.Pairwise fun a b => a.1 ≠ b.1 := by
  refine (Std.ExtTreeMap.distinct_keys_toList (t := m)).imp ?_
  intro a b hab heq
  exact hab (Std.LawfulEqCmp.compare_eq_iff_eq.mpr heq)

/-- Each order visits exactly the entries of the map. -/
theorem mem_inOrder_toList {m : Std.ExtTreeMap Nat α compare} {order : List Nat} {e : Nat × α} :
    e ∈ inOrder order m.toList ↔ m[e.1]? = some e.2 := by
  rw [← Std.ExtTreeMap.mem_toList_iff_getElem?_eq_some]
  exact ⟨mem_of_mem_inOrder, mem_inOrder_of_mem (pairwise_toList m)⟩

end Visit

end Maps
