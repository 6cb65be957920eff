import Mathlib.Data.List.Nodup
import Mathlib.Data.List.Perm.Subperm
import Std.Data.ExtTreeMap.Lemmas

/-!
# A map with a recency order

A cache is a map and the list of its keys, least recently used first. `touch`
makes a key the most recent one, and `evict` drops old entries until the map is
within a budget, passing over the keys that are still needed. Keys that are passed
over go to the back, so one pass over the list is enough to see every key.
-/

namespace Lru

variable {κ α : Type} {cmp : κ → κ → Ordering} [Std.TransCmp cmp]

/-- The key becomes the most recent one. -/
def touch [DecidableEq κ] (order : List κ) (k : κ) : List κ := order.erase k ++ [k]

/-- At most `guard` steps of eviction down to `budget` entries. -/
def evict (budget : Nat) (keep : κ → Bool) :
    Nat → Std.ExtTreeMap κ α cmp → List κ → Std.ExtTreeMap κ α cmp × List κ
  | 0, m, order => (m, order)
  | guard + 1, m, order =>
    if budget < m.size then
      match order with
      | [] => (m, [])
      | k :: rest =>
        if keep k then evict budget keep guard m (rest ++ [k])
        else evict budget keep guard (m.erase k) rest
    else (m, order)

/-- What an eviction does to the list, which holds as many keys as the map. -/
def evictKeys (budget : Nat) (keep : κ → Bool) : Nat → List κ → List κ
  | 0, order => order
  | guard + 1, order =>
    if budget < order.length then
      match order with
      | [] => []
      | k :: rest =>
        if keep k then evictKeys budget keep guard (rest ++ [k]) else evictKeys budget keep guard rest
    else order

/-- The list holds the keys of the map, each once. -/
structure Tracks (m : Std.ExtTreeMap κ α cmp) (order : List κ) : Prop where
  nodup : order.Nodup
  mem_iff : ∀ k, k ∈ order ↔ k ∈ m

variable {m : Std.ExtTreeMap κ α cmp} {order : List κ} {k : κ}

theorem tracks_empty : Tracks (∅ : Std.ExtTreeMap κ α cmp) [] :=
  ⟨List.nodup_nil, fun k => by simp⟩

/-- The least recent key goes to the back. -/
theorem Tracks.rotate (h : Tracks m (k :: order)) : Tracks m (order ++ [k]) := by
  have hperm : (order ++ [k]).Perm (k :: order) := List.perm_append_singleton k order
  exact ⟨hperm.nodup_iff.mpr h.nodup, fun j => hperm.mem_iff.trans (h.mem_iff j)⟩

theorem nodup_touch [DecidableEq κ] (h : order.Nodup) (k : κ) : (touch order k).Nodup := by
  refine List.nodup_append.mpr ⟨h.erase k, List.nodup_singleton k, ?_⟩
  intro j hj i hi hji
  obtain rfl := List.mem_singleton.mp hi
  exact h.not_mem_erase (hji ▸ hj)

theorem mem_touch [DecidableEq κ] {j : κ} : j ∈ touch order k ↔ j ∈ order ∨ j = k := by
  rw [touch, List.mem_append, List.mem_singleton]
  by_cases hjk : j = k
  · simp [hjk]
  · simp [hjk, List.mem_erase_of_ne hjk]

/-- Touching a key of the map. -/
theorem Tracks.touch [DecidableEq κ] (h : Tracks m order) (hk : k ∈ m) : Tracks m (Lru.touch order k) := by
  refine ⟨nodup_touch h.nodup k, ?_⟩
  intro j
  rw [mem_touch, h.mem_iff]
  constructor
  · rintro (hj | rfl)
    · exact hj
    · exact hk
  · exact Or.inl

variable [Std.LawfulEqCmp cmp]

theorem Tracks.perm (h : Tracks m order) : order.Perm m.keys := by
  refine (List.perm_ext_iff_of_nodup h.nodup Std.ExtTreeMap.nodup_keys).mpr ?_
  intro k
  rw [h.mem_iff k, Std.ExtTreeMap.mem_keys]

theorem Tracks.size_eq (h : Tracks m order) : m.size = order.length := by
  rw [h.perm.length_eq, Std.ExtTreeMap.length_keys]

/-- A new or replaced entry becomes the most recent one. -/
theorem Tracks.insert [DecidableEq κ] (h : Tracks m order) (k : κ) (v : α) :
    Tracks (m.insert k v) (Lru.touch order k) := by
  refine ⟨nodup_touch h.nodup k, ?_⟩
  intro j
  rw [mem_touch, h.mem_iff, Std.ExtTreeMap.mem_insert, Std.LawfulEqCmp.compare_eq_iff_eq, eq_comm,
    or_comm]

/-- The least recent key is dropped. -/
theorem Tracks.erase (h : Tracks m (k :: order)) : Tracks (m.erase k) order := by
  obtain ⟨hk, hnodup⟩ := List.nodup_cons.mp h.nodup
  refine ⟨hnodup, ?_⟩
  intro j
  rw [Std.ExtTreeMap.mem_erase, ← h.mem_iff, List.mem_cons, Ne, Std.LawfulEqCmp.compare_eq_iff_eq]
  constructor
  · intro hj
    exact ⟨fun heq => hk (heq ▸ hj), Or.inr hj⟩
  · rintro ⟨hne, hj | hj⟩
    · exact absurd hj.symm hne
    · exact hj

/-! ## Eviction -/

/-- What an eviction leaves: a tracked part of the map with every key to keep. -/
structure Evicted (keep : κ → Bool) (m : Std.ExtTreeMap κ α cmp)
    (r : Std.ExtTreeMap κ α cmp × List κ) : Prop where
  tracks : Tracks r.1 r.2
  sub : ∀ (k : κ) (v : α), r.1[k]? = some v → m[k]? = some v
  kept : ∀ k : κ, keep k = true → r.1[k]? = m[k]?

theorem evict_spec (budget : Nat) (keep : κ → Bool) (guard : Nat) (h : Tracks m order) :
    Evicted keep m (evict budget keep guard m order) := by
  induction guard generalizing m order with
  | zero => exact ⟨h, fun _ _ hv => hv, fun _ _ => rfl⟩
  | succ guard ih =>
    unfold evict
    split
    · cases order with
      | nil => exact ⟨h, fun _ _ hv => hv, fun _ _ => rfl⟩
      | cons k rest =>
        cases hk : keep k with
        | true =>
          simp only [hk, if_true]
          exact ih h.rotate
        | false =>
          simp only [hk, Bool.false_eq_true, if_false]
          obtain ⟨htracks, hsub, hkept⟩ := ih h.erase
          refine ⟨htracks, ?_, ?_⟩
          · intro j v hv
            have hj := hsub j v hv
            rw [Std.ExtTreeMap.getElem?_erase] at hj
            split at hj
            · cases hj
            · exact hj
          · intro j hj
            rw [hkept j hj, Std.ExtTreeMap.getElem?_erase, if_neg]
            rw [Std.LawfulEqCmp.compare_eq_iff_eq]
            rintro rfl
            rw [hk] at hj
            cases hj
    · exact ⟨h, fun _ _ hv => hv, fun _ _ => rfl⟩

/-- One pass is enough: afterwards the map is within budget or every key left is
one to keep. The keys already passed over are the tail `seen` of the list. -/
theorem evict_budget (budget : Nat) (keep : κ → Bool) (todo seen : List κ)
    (hseen : ∀ k ∈ seen, keep k = true) (h : Tracks m (todo ++ seen)) :
    (evict budget keep todo.length m (todo ++ seen)).1.size ≤ budget ∨
      ∀ k ∈ (evict budget keep todo.length m (todo ++ seen)).2, keep k = true := by
  induction todo generalizing m seen with
  | nil => exact Or.inr hseen
  | cons k rest ih =>
    rw [List.length_cons, List.cons_append]
    unfold evict
    split
    · cases hk : keep k with
      | true =>
        simp only [hk, if_true, List.append_assoc]
        refine ih (seen ++ [k]) ?_ ?_
        · intro j hj
          rcases List.mem_append.mp hj with hj | hj
          · exact hseen j hj
          · rw [List.mem_singleton.mp hj]
            exact hk
        · rw [← List.append_assoc]
          exact h.rotate
      | false =>
        simp only [hk, Bool.false_eq_true, if_false]
        exact ih seen hseen h.erase
    · rename_i hle
      exact Or.inl (Nat.le_of_not_lt hle)

/-- **The budget after an eviction.** A full pass leaves at most `budget` entries,
or at most as many as there are keys to keep. -/
theorem size_evict_le (budget : Nat) {keep : κ → Bool} {keys : List κ}
    (hkeys : ∀ k, keep k = true → k ∈ keys) (h : Tracks m order) :
    (evict budget keep order.length m order).1.size ≤ max budget keys.length := by
  have hspec := evict_spec budget keep order.length h
  have hbudget := evict_budget budget keep order [] (by simp) (by simpa using h)
  rw [List.append_nil] at hbudget
  rcases hbudget with hle | hall
  · omega
  · rw [hspec.tracks.size_eq]
    have hsub : (evict budget keep order.length m order).2 ⊆ keys := fun k hk => hkeys k (hall k hk)
    have hlen := (hspec.tracks.nodup.subperm hsub).length_le
    omega

/-! ## The list alone -/

/-- What is left of the list depends on the list only. -/
theorem evict_snd (budget : Nat) (keep : κ → Bool) (guard : Nat) (h : Tracks m order) :
    (evict budget keep guard m order).2 = evictKeys budget keep guard order := by
  induction guard generalizing m order with
  | zero => rfl
  | succ guard ih =>
    unfold evict evictKeys
    rw [h.size_eq]
    split
    · cases order with
      | nil => rfl
      | cons k rest =>
        dsimp only
        split
        · exact ih h.rotate
        · exact ih h.erase
    · rfl

theorem foldl_touch [DecidableEq κ] {ks : List κ} (hks : ks.Nodup) (order : List κ) (h : order.Nodup) :
    ks.foldl touch order = (order.filter fun k => k ∉ ks) ++ ks := by
  induction ks generalizing order with
  | nil => simp
  | cons k ks ih =>
    obtain ⟨hk, hks⟩ := List.nodup_cons.mp hks
    rw [List.foldl_cons, ih hks _ (nodup_touch h k), touch, List.filter_append, h.erase_eq_filter,
      List.filter_filter, List.filter_singleton]
    simp only [hk, not_false_eq_true, decide_true, Bool.cond_true, List.append_assoc,
      List.singleton_append, List.mem_cons, not_or]
    congr 1
    refine List.filter_congr fun j _ => ?_
    by_cases hj : j = k
    · simp [hj]
    · simp [hj]

theorem evictKeys_of_le {budget : Nat} (keep : κ → Bool) (guard : Nat) (h : order.length ≤ budget) :
    evictKeys budget keep guard order = order := by
  cases guard with
  | zero => rfl
  | succ guard =>
    unfold evictKeys
    rw [if_neg (by omega)]

theorem evictKeys_cons {budget : Nat} {keep : κ → Bool} (guard : Nat) (hk : keep k = false)
    (h : budget ≤ order.length) :
    evictKeys budget keep (guard + 1) (k :: order) = evictKeys budget keep guard order := by
  rw [evictKeys, List.length_cons, if_pos (by omega)]
  simp only [hk, Bool.false_eq_true, if_false]

theorem mem_of_mem_evictKeys {budget : Nat} {keep : κ → Bool} {guard : Nat}
    (hk : k ∈ evictKeys budget keep guard order) : k ∈ order := by
  induction guard generalizing order with
  | zero => exact hk
  | succ guard ih =>
    unfold evictKeys at hk
    split at hk
    · cases order with
      | nil => cases hk
      | cons j rest =>
        dsimp only at hk
        split at hk
        · have hmem := ih hk
          rw [List.mem_append, List.mem_singleton] at hmem
          rcases hmem with hmem | rfl
          · exact List.mem_cons_of_mem j hmem
          · exact List.mem_cons_self
        · exact List.mem_cons_of_mem j (ih hk)
    · exact hk

/-- Where the keys beyond the budget lead the list and need not be kept, no other is
dropped. -/
theorem mem_evictKeys {budget : Nat} {keep : κ → Bool} {guard : Nat} {front back : List κ}
    (hkeep : ∀ k ∈ front, keep k = false) (hsize : back.length ≤ budget) {k : κ}
    (hk : k ∈ front ++ back) : k ∈ front ∨ k ∈ evictKeys budget keep guard (front ++ back) := by
  induction guard generalizing front with
  | zero => exact .inr hk
  | succ guard ih =>
    unfold evictKeys
    split
    · cases front with
      | nil =>
        rw [List.nil_append] at *
        omega
      | cons j front =>
        rw [List.cons_append]
        dsimp only
        rw [hkeep j List.mem_cons_self, if_neg Bool.false_ne_true]
        rcases List.mem_cons.mp hk with rfl | hk
        · exact .inl List.mem_cons_self
        · exact (ih (fun i hi => hkeep i (List.mem_cons_of_mem j hi)) hk).imp_left
            (List.mem_cons_of_mem j)
    · exact .inr hk

end Lru
