import Mathlib.Order.Lattice
import Mathlib.Data.List.Infix

/-!
# Forests of named nodes

Trees whose siblings have different names and stand in the order of their names: what
a map from names to nodes, each with such a map below it, amounts to. A node is reached
by the names on the way to it, and a forest is known by the values at its paths.
-/

/-- Nodes next to each other: the first one's name, value and children, and the others. -/
inductive Forest (κ α : Type) where
  | nil
  | cons (name : κ) (value : α) (below rest : Forest κ α)
  deriving DecidableEq, Repr

namespace Forest

variable {κ α β : Type}

def isEmpty : Forest κ α → Bool
  | nil => true
  | cons _ _ _ _ => false

/-- The names at the top. -/
def names : Forest κ α → List κ
  | nil => []
  | cons k _ _ rest => k :: rest.names

/-- Siblings stand in the order of their names, on each level. -/
inductive Sorted [LT κ] : Forest κ α → Prop
  | nil : Sorted nil
  | cons {k : κ} {v : α} {below rest : Forest κ α} : (∀ k' ∈ rest.names, k < k') →
      Sorted below → Sorted rest → Sorted (cons k v below rest)

/-- The first `n` levels. -/
def cut : Forest κ α → Nat → Forest κ α
  | nil, _ => nil
  | cons _ _ _ _, 0 => nil
  | cons k v below rest, n + 1 => cons k v (below.cut n) (rest.cut (n + 1))

/-- The forest with another value in each node. -/
def map (g : α → β) : Forest κ α → Forest κ β
  | nil => nil
  | cons k v below rest => cons k (g v) (below.map g) (rest.map g)

theorem names_map (g : α → β) (f : Forest κ α) : (f.map g).names = f.names := by
  induction f with
  | nil => rfl
  | cons k v below rest _ ih => rw [map, names, names, ih]

theorem names_cut (f : Forest κ α) (n : Nat) : ∀ k ∈ (f.cut n).names, k ∈ f.names := by
  induction f with
  | nil => exact fun _ hk => hk
  | cons k v below rest _ ih =>
    cases n with
    | zero => exact fun _ hk => absurd hk List.not_mem_nil
    | succ n =>
      intro k' hk'
      rcases List.mem_cons.mp hk' with rfl | hrest
      · exact List.mem_cons_self
      · exact List.mem_cons_of_mem k (ih k' hrest)

section Order

variable [LinearOrder κ]

/-- The value of the node at a path. -/
def value? : Forest κ α → List κ → Option α
  | nil, _ => none
  | cons _ _ _ _, [] => none
  | cons k v below rest, p :: ps =>
    if p = k then (if ps = [] then some v else below.value? ps) else rest.value? (p :: ps)

/-- A single path. A node's value is made from what follows it on the path. -/
def spine (init : α) (mark : List κ → α → α) : List κ → Forest κ α
  | [] => nil
  | p :: ps => cons p (mark ps init) (spine init mark ps) nil

/-- Adds the nodes of a path that are missing, with `init` in them, and marks each node
of the path with what follows it. -/
def graft (init : α) (mark : List κ → α → α) : Forest κ α → List κ → Forest κ α
  | nil, path => spine init mark path
  | cons k v below rest, [] => cons k v below rest
  | cons k v below rest, p :: ps =>
    if p < k then cons p (mark ps init) (spine init mark ps) (cons k v below rest)
    else if p = k then cons k (mark ps v) (below.graft init mark ps) rest
    else cons k v below (rest.graft init mark (p :: ps))

variable {f f' : Forest κ α} {k : κ} {v : α} {below rest : Forest κ α} {init : α}
  {mark : List κ → α → α} {path q r : List κ} {n : Nat}

/-! ## Values -/

@[simp] theorem value?_empty_path (f : Forest κ α) : f.value? [] = none := by
  cases f with
  | nil => rfl
  | cons k v below rest => rfl

theorem value?_cons_self : (cons k v below rest).value? [k] = some v := by
  rw [value?, if_pos rfl, if_pos rfl]

theorem value?_cons_below (hq : q ≠ []) :
    (cons k v below rest).value? (k :: q) = below.value? q := by
  rw [value?, if_pos rfl, if_neg hq]

theorem value?_cons_rest {p : κ} (hp : p ≠ k) (q : List κ) :
    (cons k v below rest).value? (p :: q) = rest.value? (p :: q) := by
  rw [value?, if_neg hp]

theorem value?_eq_none {p : κ} (hp : p ∉ f.names) (q : List κ) : f.value? (p :: q) = none := by
  induction f with
  | nil => rfl
  | cons k v below rest _ ih =>
    obtain ⟨hne, hrest⟩ := not_or.mp fun h => hp (List.mem_cons.mpr h)
    rw [value?_cons_rest hne, ih hrest]

theorem value?_cut (f : Forest κ α) (n : Nat) (q : List κ) :
    (f.cut n).value? q = if q.length ≤ n then f.value? q else none := by
  induction f generalizing n q with
  | nil =>
    show none = if q.length ≤ n then none else none
    rw [ite_self]
  | cons k v below rest ihBelow ihRest =>
    cases q with
    | nil => simp
    | cons p ps =>
      cases n with
      | zero => rfl
      | succ n =>
        rw [cut, value?, value?, ihBelow, ihRest]
        simp only [List.length_cons, Nat.add_le_add_iff_right]
        by_cases hp : p = k
        · by_cases hps : ps = []
          · simp [hp, hps]
          · simp [hp, hps]
        · simp [hp]

theorem value?_map (g : α → β) (f : Forest κ α) (q : List κ) :
    (f.map g).value? q = (f.value? q).map g := by
  induction f generalizing q with
  | nil => rfl
  | cons k v below rest ihBelow ihRest =>
    cases q with
    | nil => rfl
    | cons p ps =>
      rw [map, value?, value?, ihBelow, ihRest]
      split
      · split
        · rfl
        · rfl
      · rfl

/-! ## Order -/

theorem Sorted.not_mem_rest (h : (Forest.cons k v below rest).Sorted) : k ∉ rest.names := by
  cases h with
  | cons hlt _ _ => exact fun hmem => lt_irrefl k (hlt k hmem)

theorem Sorted.value?_of_lt (h : (Forest.cons k v below rest).Sorted) {p : κ} (hp : p < k)
    (q : List κ) : (Forest.cons k v below rest).value? (p :: q) = none := by
  cases h with
  | cons hlt _ _ =>
    refine value?_eq_none ?_ q
    intro hmem
    rcases List.mem_cons.mp hmem with rfl | hmem
    · exact lt_irrefl p hp
    · exact lt_asymm hp (hlt p hmem)

theorem Sorted.cut (h : f.Sorted) (n : Nat) : (f.cut n).Sorted := by
  induction h generalizing n with
  | nil => exact .nil
  | cons hlt _ _ ihBelow ihRest =>
    cases n with
    | zero => exact .nil
    | succ n =>
      exact .cons (fun k' hk' => hlt k' (names_cut _ _ k' hk')) (ihBelow n) (ihRest (n + 1))

theorem Sorted.map (h : f.Sorted) (g : α → β) : (f.map g).Sorted := by
  induction h with
  | nil => exact .nil
  | cons hlt _ _ ihBelow ihRest => exact .cons (by rwa [names_map]) ihBelow ihRest

/-- **A forest is known by its values.** -/
theorem Sorted.ext (h : f.Sorted) (h' : f'.Sorted) (hv : ∀ q, f.value? q = f'.value? q) :
    f = f' := by
  induction h generalizing f' with
  | nil =>
    cases h' with
    | nil => rfl
    | @cons k v below rest _ _ _ =>
      have hk := hv [k]
      rw [value?_cons_self] at hk
      cases hk
  | @cons k v below rest hlt hbelow hrest ihBelow ihRest =>
    have hs := Sorted.cons (v := v) hlt hbelow hrest
    cases h' with
    | nil =>
      have hk := hv [k]
      rw [value?_cons_self] at hk
      cases hk
    | @cons k' v' below' rest' hlt' hbelow' hrest' =>
      have hs' := Sorted.cons (v := v') hlt' hbelow' hrest'
      -- each first name is among the names of the other side, so neither is smaller
      have hkey : k = k' := by
        by_contra hne
        have hmem : k ∈ rest'.names := by
          by_contra hnot
          have hk := hv [k]
          rw [value?_cons_self, value?_cons_rest hne, value?_eq_none hnot] at hk
          cases hk
        have hmem' : k' ∈ rest.names := by
          by_contra hnot
          have hk := hv [k']
          rw [value?_cons_self, value?_cons_rest (Ne.symm hne), value?_eq_none hnot] at hk
          cases hk
        exact lt_asymm (hlt k' hmem') (hlt' k hmem)
      subst hkey
      have hvalue : v = v' := by
        have hk := hv [k]
        rw [value?_cons_self, value?_cons_self] at hk
        exact Option.some.inj hk
      have hbelow_eq : below = below' := by
        refine ihBelow hbelow' fun q => ?_
        by_cases hq : q = []
        · rw [hq, value?_empty_path, value?_empty_path]
        · have hk := hv (k :: q)
          rwa [value?_cons_below hq, value?_cons_below hq] at hk
      have hrest_eq : rest = rest' := by
        refine ihRest hrest' fun q => ?_
        cases q with
        | nil => rw [value?_empty_path, value?_empty_path]
        | cons p ps =>
          by_cases hp : p = k
          · rw [hp, value?_eq_none hs.not_mem_rest, value?_eq_none hs'.not_mem_rest]
          · have hk := hv (p :: ps)
            rwa [value?_cons_rest hp, value?_cons_rest hp] at hk
      rw [hvalue, hbelow_eq, hrest_eq]

/-! ## Grafting a path -/

theorem value?_spine_append (hq : q ≠ []) :
    (spine init mark (q ++ r)).value? q = some (mark r init) := by
  induction q with
  | nil => exact absurd rfl hq
  | cons p ps ih =>
    rw [List.cons_append, spine]
    by_cases hps : ps = []
    · subst hps
      exact value?_cons_self
    · rw [value?_cons_below hps]
      exact ih hps

theorem value?_spine_of_apart (hq : ¬ q <+: path) :
    (spine init mark path).value? q = none := by
  induction path generalizing q with
  | nil => rfl
  | cons p ps ih =>
    cases q with
    | nil => exact absurd List.nil_prefix hq
    | cons a as =>
      rw [spine]
      by_cases ha : a = p
      · subst ha
        have has : ¬ as <+: ps := fun h => hq (List.prefix_cons_inj a |>.mpr h)
        have hne : as ≠ [] := fun h => has (h ▸ List.nil_prefix)
        rw [value?_cons_below hne, ih has]
      · rw [value?_cons_rest ha]
        rfl

/-- A node of the path has been marked. -/
theorem Sorted.value?_graft_append (h : f.Sorted) (hq : q ≠ []) :
    (f.graft init mark (q ++ r)).value? q = some (mark r ((f.value? q).getD init)) := by
  induction h generalizing q with
  | nil => exact value?_spine_append hq
  | @cons k v below rest hlt hbelow hrest ihBelow ihRest =>
    obtain ⟨p, ps, rfl⟩ := List.exists_cons_of_ne_nil hq
    rw [List.cons_append, graft]
    split
    · -- the node is new at the top
      rename_i hp
      rw [(Sorted.cons hlt hbelow hrest).value?_of_lt hp]
      by_cases hps : ps = []
      · subst hps
        exact value?_cons_self
      · rw [value?_cons_below hps]
        exact value?_spine_append hps
    · split
      · rename_i hp
        subst hp
        by_cases hps : ps = []
        · subst hps
          rw [value?_cons_self, value?_cons_self]
          rfl
        · rw [value?_cons_below hps, value?_cons_below hps]
          exact ihBelow hps
      · rename_i hp
        rw [value?_cons_rest hp, value?_cons_rest hp]
        exact ihRest hq

/-- A node off the path is as before. -/
theorem Sorted.value?_graft_of_apart (h : f.Sorted) (hq : ¬ q <+: path) :
    (f.graft init mark path).value? q = f.value? q := by
  induction h generalizing path q with
  | nil => exact value?_spine_of_apart hq
  | @cons k v below rest hlt hbelow hrest ihBelow ihRest =>
    have hqne : q ≠ [] := by
      rintro rfl
      exact hq List.nil_prefix
    obtain ⟨a, as, rfl⟩ := List.exists_cons_of_ne_nil hqne
    cases path with
    | nil => rfl
    | cons p ps =>
      have hbelowPath : a = p → ¬ as <+: ps := by
        rintro rfl hprefix
        exact hq ((List.prefix_cons_inj a).mpr hprefix)
      have hne : a = p → as ≠ [] := by
        rintro ha rfl
        exact hbelowPath ha List.nil_prefix
      rw [graft]
      split
      · rename_i hp
        by_cases ha : a = p
        · -- below the new top there is nothing but the path
          subst ha
          rw [value?_cons_below (hne rfl), value?_spine_of_apart (hbelowPath rfl),
            (Sorted.cons hlt hbelow hrest).value?_of_lt hp]
        · rw [value?_cons_rest ha]
      · split
        · rename_i hp
          subst hp
          by_cases ha : a = p
          · subst ha
            rw [value?_cons_below (hne rfl), value?_cons_below (hne rfl), ihBelow (hbelowPath rfl)]
          · rw [value?_cons_rest ha, value?_cons_rest ha]
        · by_cases ha : a = k
          · subst ha
            by_cases has : as = []
            · rw [has, value?_cons_self, value?_cons_self]
            · rw [value?_cons_below has, value?_cons_below has]
          · rw [value?_cons_rest ha, value?_cons_rest ha, ihRest hq]

/-! ## A grafted forest is sorted -/

theorem sorted_spine (init : α) (mark : List κ → α → α) (path : List κ) :
    (spine init mark path).Sorted := by
  induction path with
  | nil => exact .nil
  | cons p ps ih => exact .cons (fun _ hk => absurd hk List.not_mem_nil) ih .nil

theorem names_graft (f : Forest κ α) (path : List κ) :
    ∀ k ∈ (f.graft init mark path).names, k ∈ f.names ∨ path.head? = some k := by
  induction f with
  | nil =>
    intro k hk
    cases path with
    | nil => cases hk
    | cons p ps => exact Or.inr (congrArg some (List.mem_singleton.mp hk).symm)
  | cons k v below rest _ ih =>
    intro k' hk'
    cases path with
    | nil => exact Or.inl hk'
    | cons p ps =>
      rw [graft] at hk'
      split at hk'
      · rcases List.mem_cons.mp hk' with rfl | hold
        · exact Or.inr rfl
        · exact Or.inl hold
      · split at hk'
        · exact Or.inl hk'
        · rcases List.mem_cons.mp hk' with rfl | hrest
          · exact Or.inl List.mem_cons_self
          · rcases ih k' hrest with hold | hhead
            · exact Or.inl (List.mem_cons_of_mem k hold)
            · exact Or.inr hhead

theorem Sorted.graft (h : f.Sorted) (init : α) (mark : List κ → α → α) (path : List κ) :
    (f.graft init mark path).Sorted := by
  induction h generalizing path with
  | nil => exact sorted_spine init mark path
  | @cons k v below rest hlt hbelow hrest ihBelow ihRest =>
    cases path with
    | nil => exact .cons hlt hbelow hrest
    | cons p ps =>
      rw [Forest.graft]
      split
      · rename_i hp
        refine .cons ?_ (sorted_spine init mark ps) (.cons hlt hbelow hrest)
        intro k' hk'
        rcases List.mem_cons.mp hk' with rfl | hmem
        · exact hp
        · exact hp.trans (hlt k' hmem)
      · rename_i hnlt
        split
        · exact .cons hlt (ihBelow ps) hrest
        · rename_i hne
          refine .cons ?_ hbelow (ihRest (p :: ps))
          intro k' hk'
          rcases names_graft rest (p :: ps) k' hk' with hold | hhead
          · exact hlt k' hold
          · obtain rfl := Option.some.inj hhead
            exact lt_of_le_of_ne (not_lt.mp hnlt) (Ne.symm hne)

end Order

end Forest
