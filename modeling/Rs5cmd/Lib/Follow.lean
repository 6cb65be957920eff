import Mathlib.Data.List.Basic

/-!
# Following links

`next` says where a node links to. Following from a node ends at the first node
that links nowhere, or gives up after `n` links.
-/

namespace Follow

variable {κ : Type*}

/-- The node that following from `k` ends at. -/
def follow (next : κ → Option κ) : Nat → κ → Option κ
  | 0, k =>
    match next k with
    | none => some k
    | some _ => none
  | n + 1, k =>
    match next k with
    | none => some k
    | some k' => follow next n k'

/-- The nodes visited from `k`, itself first. -/
def chain (next : κ → Option κ) : Nat → κ → List κ
  | 0, k => [k]
  | n + 1, k =>
    match next k with
    | none => [k]
    | some k' => k :: chain next n k'

variable {next next' : κ → Option κ} {n : Nat} {k l : κ}

theorem mem_chain_self (next : κ → Option κ) (n : Nat) (k : κ) : k ∈ chain next n k := by
  cases n with
  | zero => exact List.mem_singleton_self k
  | succ n =>
    rw [chain]
    split
    · exact List.mem_singleton_self k
    · exact List.mem_cons_self

/-- Following depends only on the nodes visited. -/
theorem follow_congr (h : ∀ x ∈ chain next n k, next' x = next x) :
    follow next' n k = follow next n k := by
  induction n generalizing k with
  | zero => rw [follow, follow, h k (mem_chain_self next 0 k)]
  | succ n ih =>
    rw [follow, follow, h k (mem_chain_self next (n + 1) k)]
    cases hk : next k with
    | none => rfl
    | some k' =>
      refine ih ?_
      intro x hx
      refine h x ?_
      rw [chain, hk]
      exact List.mem_cons_of_mem k hx

/-- The end is one of the nodes visited, and it links nowhere. -/
theorem follow_eq_some (h : follow next n k = some l) : l ∈ chain next n k ∧ next l = none := by
  induction n generalizing k with
  | zero =>
    rw [follow] at h
    split at h
    · rename_i hk
      obtain rfl := Option.some.inj h
      exact ⟨mem_chain_self next 0 k, hk⟩
    · cases h
  | succ n ih =>
    rw [follow] at h
    rw [chain]
    split at h
    · rename_i hk
      obtain rfl := Option.some.inj h
      exact ⟨List.mem_singleton_self k, hk⟩
    · obtain ⟨hmem, hl⟩ := ih h
      exact ⟨List.mem_cons_of_mem k hmem, hl⟩

theorem follow_of_none (h : next k = none) : follow next n k = some k := by
  cases n <;> simp [follow, h]

end Follow
