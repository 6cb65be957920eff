import Mathlib.Data.List.Iterate
import Mathlib.Data.List.Nodup
import Mathlib.Logic.Function.Iterate

/-!
# Copying the keys of a map one after another

Each of some keys of a map is copied to where a function sends it, in the order of
a list and in place: a copy reads what the copies before it have left. So what ends
up under a key comes from some key that leads to it, and which one that is depends on
the order. Under a key that is only written to, every one of them can.
-/

namespace Copies

variable {K V : Type} {f : K → K} {S : K → Prop} {ks : List K} {b : K → V} {x y : K} {n : Nat}

/-! ## Ways -/

/-- `n` copies of keys in `S`, each of what the one before it has written, take `y`
to `x`. -/
structure Leads (f : K → K) (S : K → Prop) (n : Nat) (y x : K) : Prop where
  arrives : f^[n] y = x
  copied : ∀ i < n, S (f^[i] y)

theorem leads_zero (f : K → K) (S : K → Prop) (x : K) : Leads f S 0 x x where
  arrives := rfl
  copied _ h := absurd h (Nat.not_lt_zero _)

theorem Leads.cons {k : K} (hk : S k) (h : Leads f S n (f k) x) : Leads f S (n + 1) k x where
  arrives := h.arrives
  copied := by
    intro i hi
    cases i with
    | zero => exact hk
    | succ i => exact h.copied i (Nat.lt_of_succ_lt_succ hi)

theorem Leads.mono {S' : K → Prop} (h : Leads f S n y x) (hsub : ∀ k, S k → S' k) :
    Leads f S' n y x :=
  ⟨h.arrives, fun i hi => hsub _ (h.copied i hi)⟩

/-- The way to a key that is not copied itself passes no key twice. -/
theorem Leads.nodup (h : Leads f S n y x) (hx : ¬ S x) : (List.iterate f y n).Nodup := by
  have hne : ∀ i j, i < j → j < n → f^[i] y ≠ f^[j] y := by
    intro i j hij hj heq
    -- from the second visit it would take `n - j` more copies, and from the first as many
    have hback : f^[n - j + i] y = x := by
      rw [Function.iterate_add_apply, heq, ← Function.iterate_add_apply, Nat.sub_add_cancel hj.le]
      exact h.arrives
    exact hx (hback ▸ h.copied (n - j + i) (by omega))
  rw [← List.range_map_iterate]
  refine List.Nodup.map_on ?_ List.nodup_range
  intro i hi j hj heq
  rw [List.mem_range] at hi hj
  rcases Nat.lt_trichotomy i j with hij | hij | hij
  · exact absurd heq (hne i j hij hj)
  · exact hij
  · exact absurd heq.symm (hne j i hij hi)

/-! ## Copies -/

variable [DecidableEq K]

/-- The map after the copies. -/
def run (f : K → K) : List K → (K → V) → K → V
  | [], b => b
  | k :: ks, b => run f ks (Function.update b (f k) (b k))

theorem run_append (f : K → K) (ks ks' : List K) (b : K → V) :
    run f (ks ++ ks') b = run f ks' (run f ks b) := by
  induction ks generalizing b with
  | nil => rfl
  | cons k ks ih => exact ih _

/-- A key that nothing is copied to keeps its value. -/
theorem run_of_forall_ne (h : ∀ k ∈ ks, f k ≠ x) : run f ks b x = b x := by
  induction ks generalizing b with
  | nil => rfl
  | cons k ks ih =>
    have hne : x ≠ f k := (h k List.mem_cons_self).symm
    show run f ks (Function.update b (f k) (b k)) x = b x
    rw [ih fun k' hk' => h k' (List.mem_cons_of_mem k hk'), Function.update_of_ne hne]

/-- **Where a value comes from**: a key that leads to the one it is found under. -/
theorem run_eq (f : K → K) (ks : List K) (b : K → V) (x : K) :
    ∃ n y, Leads f (· ∈ ks) n y x ∧ run f ks b x = b y := by
  induction ks generalizing b with
  | nil => exact ⟨0, x, leads_zero f _ x, rfl⟩
  | cons k ks ih =>
    obtain ⟨n, y, hlead, hrun⟩ := ih (Function.update b (f k) (b k))
    have hlead := hlead.mono fun k' hk' => List.mem_cons_of_mem k hk'
    by_cases hy : y = f k
    · subst hy
      -- the first copy has brought it there
      refine ⟨n + 1, k, hlead.cons List.mem_cons_self, ?_⟩
      exact hrun.trans (Function.update_self ..)
    · refine ⟨n, y, hlead, ?_⟩
      exact hrun.trans (Function.update_of_ne hy ..)

/-- Copying along the way from `y` takes its value to the end. -/
theorem run_iterate (f : K → K) (n : Nat) (y : K) (b : K → V) :
    run f (List.iterate f y n) b (f^[n] y) = b y := by
  induction n generalizing y b with
  | zero => rfl
  | succ n ih =>
    show run f (List.iterate f (f y) n) (Function.update b (f y) (b y)) (f^[n] (f y)) = b y
    rw [ih, Function.update_self]

/-- **Every order matters**: whatever leads to a key that is only written to, there
is an order of the copies in which it ends up there. -/
theorem Leads.exists_perm (h : Leads f (· ∈ ks) (n + 1) y x) (hx : x ∉ ks) (hks : ks.Nodup)
    (hinj : ∀ k ∈ ks, ∀ k' ∈ ks, f k = f k' → k = k') (b : K → V) :
    ∃ l, l.Perm ks ∧ run f l b x = b y := by
  let way := List.iterate f y (n + 1)
  have hway : ∀ k ∈ way, k ∈ ks := by
    intro k hk
    obtain ⟨i, hi, rfl⟩ := List.mem_iterate.mp hk
    exact h.copied i hi
  have hlast : f^[n] y ∈ way := List.mem_iterate.mpr ⟨n, Nat.lt_succ_self n, rfl⟩
  refine ⟨way ++ ks.filter (fun k => decide (k ∉ way)), ?_, ?_⟩
  · have hnodup : (way ++ ks.filter fun k => decide (k ∉ way)).Nodup := by
      refine List.Nodup.append (h.nodup hx) (hks.filter _) ?_
      intro k hk hrest
      exact of_decide_eq_true (List.mem_filter.mp hrest).2 hk
    rw [List.perm_ext_iff_of_nodup hnodup hks]
    intro k
    rw [List.mem_append, List.mem_filter, decide_eq_true_eq]
    constructor
    · rintro (hk | ⟨hk, -⟩)
      · exact hway k hk
      · exact hk
    · intro hk
      by_cases hmem : k ∈ way
      · exact Or.inl hmem
      · exact Or.inr ⟨hk, hmem⟩
  · -- the copies after these leave the key alone
    rw [run_append, run_of_forall_ne]
    · rw [← h.arrives]
      exact run_iterate f (n + 1) y b
    · intro k hk heq
      obtain ⟨hk, hnot⟩ := List.mem_filter.mp hk
      have hsame : f k = f (f^[n] y) := by
        rw [heq, ← h.arrives, Function.iterate_succ_apply']
      rw [hinj k hk _ (hway _ hlast) hsame] at hnot
      exact of_decide_eq_true hnot hlast

end Copies
