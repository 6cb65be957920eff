import Rs5cmd.Lib.Forest
import Mathlib.Data.List.Lex

/-!
# Outlines of forests

A forest written down as an outline, one entry for each node with how deep it is and what
its name is, each node before those below it. The outline of a sorted forest is read back
as the paths of its nodes, in order.
-/

namespace Forest

variable {κ α : Type} {f : Forest κ α} {q : List κ}

/-- The paths of the nodes, each before those below it. -/
def paths : Forest κ α → List (List κ)
  | nil => []
  | cons k _ below rest => [k] :: (below.paths.map (k :: ·) ++ rest.paths)

/-- The outline of a forest whose roots are at the given depth. -/
def outline : Forest κ α → Nat → List (Nat × κ)
  | nil, _ => []
  | cons k _ below rest, d => (d, k) :: (below.outline (d + 1) ++ rest.outline d)

/-- The paths that an outline stands for, from the one before it on: an entry keeps as much
of the path before it as it is deep. -/
def readOutline : List κ → List (Nat × κ) → List (List κ)
  | _, [] => []
  | last, (d, k) :: entries => (last.take d ++ [k]) :: readOutline (last.take d ++ [k]) entries

/-- Below a path, an outline is read back as the paths of its forest, and what follows it is
read from a path that goes through the same one. -/
theorem readOutline_append (f : Forest κ α) (entries : List (Nat × κ)) {last base : List κ} {d : Nat}
    (hd : base.length = d) (hlast : last.take d = base) :
    ∃ last', last'.take d = base ∧
      readOutline last (f.outline d ++ entries) =
        f.paths.map (base ++ ·) ++ readOutline last' entries := by
  induction f generalizing last base d entries with
  | nil => exact ⟨last, hlast, rfl⟩
  | cons k v below rest ihBelow ihRest =>
    have hlen : (base ++ [k]).length = d + 1 := by rw [List.length_append, hd]; rfl
    have htake : (base ++ [k]).take (d + 1) = base ++ [k] := List.take_of_length_le (by omega)
    obtain ⟨last₁, h₁, hbelow⟩ := ihBelow (rest.outline d ++ entries) hlen htake
    have h₁' : last₁.take d = base := by
      have htwice : (last₁.take (d + 1)).take d = last₁.take d := by
        rw [List.take_take, Nat.min_eq_left (Nat.le_succ d)]
      rw [← htwice, h₁, List.take_left' hd]
    obtain ⟨last₂, h₂, hrest⟩ := ihRest entries hd h₁'
    refine ⟨last₂, h₂, ?_⟩
    rw [outline, List.cons_append, List.append_assoc, readOutline, hlast, hbelow, hrest, paths,
      List.map_cons, List.map_append, List.map_map, List.cons_append, List.append_assoc]
    congr 2
    apply List.map_congr_left
    intro q _
    exact List.append_assoc base [k] q

/-- **An outline is read back** as the paths of its forest. -/
theorem readOutline_outline (f : Forest κ α) : readOutline [] (f.outline 0) = f.paths := by
  obtain ⟨last, -, hread⟩ := @readOutline_append κ α f [] [] [] 0 rfl rfl
  rw [List.append_nil] at hread
  rw [hread, readOutline, List.append_nil]
  exact List.map_id' f.paths

theorem ne_nil_of_mem_paths (hq : q ∈ f.paths) : q ≠ [] := by
  induction f generalizing q with
  | nil => cases hq
  | cons k v below rest _ ihRest =>
    rcases List.mem_cons.mp hq with rfl | hq
    · exact List.cons_ne_nil k []
    rcases List.mem_append.mp hq with hq | hq
    · obtain ⟨q', -, rfl⟩ := List.mem_map.mp hq
      exact List.cons_ne_nil k q'
    · exact ihRest hq

/-- A path starts with one of the names at the top. -/
theorem exists_name_of_mem_paths (hq : q ∈ f.paths) : ∃ p ∈ f.names, ∃ q', q = p :: q' := by
  induction f generalizing q with
  | nil => cases hq
  | cons k v below rest _ ihRest =>
    rcases List.mem_cons.mp hq with rfl | hq
    · exact ⟨k, List.mem_cons_self, [], rfl⟩
    rcases List.mem_append.mp hq with hq | hq
    · obtain ⟨q', -, rfl⟩ := List.mem_map.mp hq
      exact ⟨k, List.mem_cons_self, q', rfl⟩
    · obtain ⟨p, hp, hq'⟩ := ihRest hq
      exact ⟨p, List.mem_cons_of_mem k hp, hq'⟩

section Order

variable [LinearOrder κ]

/-- The paths are those that lead to a node. -/
theorem Sorted.mem_paths (h : f.Sorted) : q ∈ f.paths ↔ (f.value? q).isSome = true := by
  induction h generalizing q with
  | nil => simp [paths, value?]
  | @cons k v below rest hlt _ _ ihBelow ihRest =>
    cases q with
    | nil =>
      rw [value?_empty_path]
      constructor
      · intro hq
        exact absurd rfl (ne_nil_of_mem_paths hq)
      · intro hsome
        cases hsome
    | cons p q =>
      rw [paths, List.mem_cons, List.mem_append, List.mem_map]
      by_cases hp : p = k
      · subst hp
        have hnotRest : p :: q ∉ rest.paths := by
          intro hmem
          obtain ⟨p', hp', q', heq⟩ := exists_name_of_mem_paths hmem
          rw [List.cons.injEq] at heq
          exact absurd (hlt p' hp') (by rw [heq.1]; exact lt_irrefl p')
        by_cases hq : q = []
        · subst hq
          rw [value?_cons_self]
          simp
        · rw [value?_cons_below hq, ← ihBelow]
          constructor
          · rintro (heq | ⟨q', hq', heq⟩ | hmem)
            · exact absurd (List.cons.inj heq).2 hq
            · rw [← (List.cons.inj heq).2]
              exact hq'
            · exact absurd hmem hnotRest
          · intro hmem
            exact Or.inr (Or.inl ⟨q, hmem, rfl⟩)
      · rw [value?_cons_rest hp, ← ihRest]
        constructor
        · rintro (heq | ⟨q', -, heq⟩ | hmem)
          · exact absurd (List.cons.inj heq).1 hp
          · exact absurd (List.cons.inj heq).1.symm hp
          · exact hmem
        · intro hmem
          exact Or.inr (Or.inr hmem)

/-- The paths of a sorted forest stand in order. -/
theorem Sorted.pairwise_paths (h : f.Sorted) : f.paths.Pairwise (· < ·) := by
  induction h with
  | nil => exact List.Pairwise.nil
  | @cons k v below rest hlt _ _ ihBelow ihRest =>
    have hrest : ∀ q ∈ rest.paths, ∀ q', k :: q' < q := by
      intro q hq q'
      obtain ⟨p, hp, r, rfl⟩ := exists_name_of_mem_paths hq
      exact List.cons_lt_cons_iff.mpr (Or.inl (hlt p hp))
    rw [paths, List.pairwise_cons, List.pairwise_append]
    refine ⟨?_, ?_, ihRest, ?_⟩
    · intro q hq
      rcases List.mem_append.mp hq with hq | hq
      · obtain ⟨q', hq', rfl⟩ := List.mem_map.mp hq
        obtain ⟨p, r, rfl⟩ := List.exists_cons_of_ne_nil (ne_nil_of_mem_paths hq')
        exact List.cons_lt_cons_iff.mpr (Or.inr ⟨rfl, List.nil_lt_cons p r⟩)
      · exact hrest q hq []
    · rw [List.pairwise_map]
      apply ihBelow.imp
      intro a b hab
      exact List.cons_lt_cons_iff.mpr (Or.inr ⟨rfl, hab⟩)
    · intro a ha b hb
      obtain ⟨q', -, rfl⟩ := List.mem_map.mp ha
      exact hrest b hb q'

end Order

end Forest
